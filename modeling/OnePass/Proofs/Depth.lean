import OnePass.Proofs.Parsing.Basic

/-!
# Depth

Expressions are compiled with a bound on the depth that is left. More depth keeps every result but the one that the depth is used
up (`Refines`), and a depth of four for each token ahead is never used up (`Parses.parts`), since every four nested steps take a
token.
-/

namespace OnePass

namespace Analysis

variable {σ α β : Type}
variable {s s' : AnalysisState σ} {m n : Analysis σ α} {f : Nat → Analysis σ α} {inner value : Analysis σ ValueType}
  {g : Nat → α → Analysis σ β} {a : α} {d : Nat} {more : Analysis σ Nat} {e : Failure}

/-! ## More depth -/

/-- From some depth on, the family gives this result. -/
def Ends (f : Nat → Analysis σ α) (s : AnalysisState σ) (r : Except Failure (α × AnalysisState σ)) : Prop :=
  ∃ d, ∀ d', d ≤ d' → (f d').run s = r

namespace Ends

variable {r : Except Failure (α × AnalysisState σ)}

theorem of_run (h : m.run s = r) : Ends (fun _ => m) s r := ⟨0, fun _ _ => h⟩

theorem bind_of_ok {r : Except Failure (β × AnalysisState σ)} (hf : Ends f s (.ok (a, s'))) (hg : Ends (fun d => g d a) s' r) :
    Ends (fun d => f d >>= g d) s r := by
  obtain ⟨d, hd⟩ := hf
  obtain ⟨e, he⟩ := hg
  refine ⟨max d e, fun d' h => ?_⟩
  rw [run_bind_of_ok (hd d' (by omega)), he d' (by omega)]

theorem bind_of_error (hf : Ends f s (.error e)) : Ends (fun d => f d >>= g d) s (.error e) := by
  obtain ⟨d, hd⟩ := hf
  exact ⟨d, fun d' h => run_bind_of_error (hd d' h)⟩

/-- A family that from the second member on is like another one. -/
theorem of_succ {g : Nat → Analysis σ α} (hf : Ends f s' r) (h : ∀ d, (g (d + 1)).run s = (f d).run s') : Ends g s r := by
  obtain ⟨d, hd⟩ := hf
  refine ⟨d + 1, fun d' hd' => ?_⟩
  obtain ⟨e, rfl⟩ : ∃ e, d' = e + 1 := ⟨d' - 1, by omega⟩
  rw [h, hd e (by omega)]

/-- A family that from the second member on is like the tail of another one. -/
theorem congr_succ {g : Nat → Analysis σ α} (hf : Ends f s' r) (h : ∀ d, (g (d + 1)).run s = (f (d + 1)).run s') :
    Ends g s r := by
  obtain ⟨d, hd⟩ := hf
  refine ⟨d + 1, fun d' hd' => ?_⟩
  obtain ⟨e, rfl⟩ : ∃ e, d' = e + 1 := ⟨d' - 1, by omega⟩
  rw [h, hd (e + 1) (by omega)]

end Ends

/-- The family, once deep enough, does what the part does, unless that has too little depth. -/
def Refines (m : Analysis σ α) (f : Nat → Analysis σ α) : Prop :=
  ∀ s, m.run s ≠ .error (.breach .tooDeep) → Ends f s (m.run s)

namespace Refines

variable {m' : Analysis σ α}

theorem const (m : Analysis σ α) : Refines m fun _ => m := fun _ _ => .of_run rfl

theorem breach (f : Nat → Analysis σ α) : Refines (breach .tooDeep) f := fun _ h => absurd rfl h

theorem bind {k : α → Analysis σ β} (hm : Refines m f) (hk : ∀ a, Refines (k a) fun d => g d a) :
    Refines (m >>= k) fun d => f d >>= g d := by
  intro s h
  cases hr : m.run s with
  | error e =>
    rw [run_bind_of_error hr] at h ⊢
    exact .bind_of_error (hr ▸ hm s fun hc => h (by rw [hr] at hc; cases hc; rfl))
  | ok p =>
    rw [run_bind_of_ok hr] at h ⊢
    exact .bind_of_ok (hr ▸ hm s (by rw [hr]; simp)) (hk p.1 p.2 h)

theorem ite {c : Prop} [Decidable c] {g : Nat → Analysis σ α} (hm : Refines m f) (hn : Refines n g) :
    Refines (if c then m else n) fun d => if c then f d else g d := by
  split
  · exact hm
  · exact hn

theorem of_succ {m : Analysis σ α} {f : Nat → Analysis σ α} (h : Refines m fun d => f (d + 1)) : Refines m f :=
  fun s hd => (h s hd).of_succ fun _ => rfl

/-- A part that does not run out of depth gives the same with more depth. -/
theorem run_eq (h : Refines m fun _ => m') (hd : m.run s ≠ .error (.breach .tooDeep)) : m'.run s = m.run s := by
  obtain ⟨d, hr⟩ := h s hd
  exact hr d (Nat.le_refl d)

theorem trans (h : Refines m fun _ => m') (h' : Refines m' f) : Refines m f := by
  intro s hd
  have he := h.run_eq hd
  exact he ▸ h' s (he ▸ hd)

/-- A family that refines from each member to the next refines over any distance. -/
theorem of_le (h : ∀ d, Refines (f d) fun _ => f (d + 1)) {e : Nat} (hd : d ≤ e) : Refines (f d) fun _ => f e := by
  induction hd with
  | refl => exact const _
  | step _ ih => exact ih.trans (h _)

variable [TokenSource σ]

theorem assignment (out : Section) (name : Token) {f : Nat → Analysis σ ValueType} (h : Refines value f) :
    Refines (assignment out name value) fun d => assignment out name (f d) :=
  bind (const _) fun _ => bind (const _) fun _ =>
    ite (const _) (bind (const _) fun _ => bind (const _) fun _ => bind h fun _ => const _)

theorem call (out : Section) (name : Token) {arguments : List ValueType → Analysis σ Nat}
    {f : Nat → List ValueType → Analysis σ Nat} (h : ∀ params, Refines (arguments params) fun d => f d params) :
    Refines (call out name arguments) fun d => call out name (f d) :=
  bind (const _) fun _ => bind (const _) fun _ => bind (const _) fun _ => bind (const _) fun _ =>
    ite (const _) (bind (h _) fun _ => const _)

theorem operandWith (out : Section) {f g : Nat → Analysis σ ValueType} {arguments : Token → List ValueType → Analysis σ Nat}
    {k : Nat → Token → List ValueType → Analysis σ Nat} (hv : Refines value f) (hi : Refines inner g)
    (ha : ∀ name params, Refines (arguments name params) fun d => k d name params) :
    Refines (operandWith out value inner arguments) fun d => operandWith out (f d) (g d) (k d) := by
  refine bind (const _) fun token => ?_
  unfold operandFrom
  cases token.kind
  case lparen => exact bind hv fun _ => const _
  case minus => exact bind hi fun _ => const _
  case identifier =>
    refine bind (const _) fun following => ?_
    cases following.kind
    case assign => exact bind (const _) fun _ => assignment out token hv
    case lparen => exact call out token (ha token)
    all_goals exact const _
  all_goals exact const _

theorem argumentWith (name : Token) {f : Nat → Analysis σ ValueType} {g : Nat → Analysis σ Nat} (count : Nat)
    (params : List ValueType) (hv : Refines value f) (hm : Refines more g) :
    Refines (argumentWith name value more count params) fun d => argumentWith name (f d) (g d) count params :=
  bind (const _) fun _ => bind hv fun _ => bind (const _) fun _ => bind (const _) fun _ => ite hm (const _)

/-- One more level of depth, for the four parts of an expression together. -/
theorem parts (out : Section) : ∀ d,
    Refines (expression out d : Analysis σ ValueType) (fun _ => expression out (d + 1)) ∧
    (∀ p, Refines (operators out d p : Analysis σ ValueType) fun _ => operators out (d + 1) p) ∧
    Refines (operand out d : Analysis σ ValueType) (fun _ => operand out (d + 1)) ∧
    (∀ name count params, Refines (arguments out name d count params : Analysis σ Nat) fun _ =>
      arguments out name (d + 1) count params)
  | 0 => ⟨breach _, fun _ => breach _, breach _, fun _ _ _ => breach _⟩
  | d + 1 => by
    obtain ⟨he, hops, ho, ha⟩ := parts out d
    refine ⟨bind ho fun _ => hops _, fun p => ?_, operandWith out he ho fun _ _ => ha _ _ _,
      fun name count params => argumentWith name count params he (ha _ _ _)⟩
    refine bind (const _) fun token => ?_
    cases Operator.ofKind? token.kind with
    | none => exact const _
    | some op =>
      exact bind (const _) fun _ => bind (const _) fun _ => ite (bind (const _) fun _ => hops _) (bind ho fun _ => hops _)

theorem expression (out : Section) {e : Nat} (h : d ≤ e) :
    Refines (expression out d : Analysis σ ValueType) fun _ => Analysis.expression out e :=
  of_le (fun d => (parts out d).1) h

end Refines

/-! ## Enough depth -/

variable [TokenSource σ] [Supply σ]

/-- With a depth of four for each token ahead the four parts of an expression do not run out of it. -/
theorem Parses.parts (out : Section) : ∀ (d : Nat) (s : AnalysisState σ),
    (4 * s.ahead.length + 2 ≤ d → Parses True (expression out d) s fun _ _ _ => True) ∧
    (∀ p, 4 * s.ahead.length + 1 ≤ d → Parses True (operators out d p) s fun _ _ _ => True) ∧
    (4 * s.ahead.length + 1 ≤ d → Parses True (operand out d) s fun _ _ _ => True) ∧
    (∀ name count params, 4 * s.ahead.length + 3 ≤ d → Parses True (arguments out name d count params) s fun _ _ _ => True)
  | 0, s => ⟨by omega, by omega, by omega, by omega⟩
  | d + 1, s => by
    have ih := parts out d
    refine ⟨fun hd => ?_, fun p hd => ?_, fun hd => ?_, fun name count params hd => ?_⟩
    · exact bind ((ih s).2.2.1 (by omega)) fun type _ s1 _ h1 => (ih s1).2.1 _ (by omega)
    · refine peek_bind fun token s1 hfront h1 => ?_
      split
      · exact of_still (.conclude out p) fun _ _ _ => trivial
      · rename_i op hop
        refine still_bind (.makeWay out p op) fun pending s2 hsource h2 => ?_
        have hk : token.kind ≠ .eof := by
          intro hk
          rw [hk] at hop
          cases hop
        refine next_bind ((congrArg (fun source => (TokenSource.peek source).1) hsource).trans hfront) hk fun s3 h3 => ?_
        refine ite (fun _ => ?_) fun _ => ?_
        · have htarget : Parses True (Analysis.typeName >>= fun p => Pure.pure p.2) s3 fun _ _ _ => True :=
            typeName_bind fun _ _ _ _ => pure trivial
          exact bind htarget fun type _ s4 _ h4 => (ih s4).2.1 _ (by omega)
        · exact bind ((ih s3).2.2.1 (by omega)) fun type _ s4 _ h4 => (ih s4).2.1 _ (by omega)
    · exact operandWith out (fun s' h => (ih s').1 (by omega)) (fun s' h => (ih s').2.2.1 (by omega))
        (fun name params s' h => (ih s').2.2.2 name 0 params (by omega)) (by simp) (by simp) (by simp) (by simp) (by simp)
    · exact argumentWith name count params (fun s' h => (ih s').1 (by omega)) (fun s' h => (ih s').2.2.2 name _ params (by omega))
        (by simp) (by simp)

end Analysis

end OnePass

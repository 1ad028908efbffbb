import Mathlib
import OnePass.Proofs.Descent

/-!
# Operator precedence and recursive descent

The pending stacks compile an expression as recursive descent does. The argument follows one operator: shifting it above operators
of lower precedence leaves those alone (`run_operators_shift`), and once its right operand is complete and the token behind it is
no operator of higher precedence, it is applied as descent applies it (`run_operators_reduce`). A chain of one precedence class is
then a run of shifts and reductions (`chain_tracks`), and by induction on the depth of the descent every stratum is the same as
its operators on the stacks.
-/

namespace OnePass

variable {looks : Bool}

namespace Descent

open Analysis

variable {σ : Type}
variable {out : Section} {op : Operator} {ops : List Waiting} {types : List ValueType} {k : Nat} {s : AnalysisState σ}
  {part : Analysis σ ValueType} {left right : ValueType} {due : Operator → Bool} {w : Waiting}

/-! ## One operator -/

/-- Operators of lower precedence wait when an operator comes. -/
theorem makeWayFor_of_lower (h : ∀ w ∈ ops, w.op.level < op.level) :
    (Pending.mk ops types).makeWayFor op = .ok (⟨ops, types⟩, []) := by
  cases ops with
  | nil => rfl
  | cons w ops =>
    have hw : w.op.yieldsTo op = false := by
      have := h w (by simp)
      simp only [Operator.yieldsTo, Operator.precedence_eq_level, decide_eq_false_iff_not]
      omega
    simp [Pending.makeWayFor, Pending.applyWhile, hw]

theorem apply_ok {type : ValueType} {code : List Instruction} (h : op.code left right = .ok (code, type))
    (pos : Pos) (s : AnalysisState σ) :
    (apply out op pos left right).run s = .ok (type, s.append out code) := by
  rw [apply, h]
  exact run_emitAll_bind out code _ s

theorem apply_error {fault : Fault} (h : op.code left right = .error fault) (pos : Pos) (s : AnalysisState σ) :
    (apply out op pos left right).run s = .error (.diagnostic ⟨pos, fault⟩) := by
  rw [apply, h]
  rfl

/-- Applying waiting operators, the top one being due. -/
theorem applyWhile_of_due (hw : due w.op = true) (ops : List Waiting) (left right : ValueType) (types : List ValueType) :
    Pending.applyWhile due (w :: ops) (right :: left :: types) =
      match w.op.code left right with
      | .ok (code, type) => (Pending.applyWhile due ops (type :: types)).map fun r => (r.1, code ++ r.2)
      | .error fault => .error ⟨w.pos, fault⟩ := by
  rw [Pending.applyWhile, if_pos hw]
  simp only [Pending.apply]
  cases w.op.code left right with
  | error fault => rfl
  | ok r =>
    dsimp only
    cases Pending.applyWhile due ops (r.2 :: types) <;> rfl

/-- Applies the waiting operators that are due. -/
def applyDue (out : Section) (due : Operator → Bool) (p : Pending) : Analysis σ Pending := do
  let (pending, code) ← orFail (Pending.applyWhile due p.ops p.types)
  emitAll out code
  return pending

/-- The operators that are due are applied one by one, from the top. -/
theorem run_applyDue_cons (hw : due w.op = true) (out : Section) (ops : List Waiting) (left right : ValueType)
    (types : List ValueType) (s : AnalysisState σ) :
    (applyDue out due ⟨w :: ops, right :: left :: types⟩).run s =
      (apply out w.op w.pos left right >>= fun type => applyDue out due ⟨ops, type :: types⟩).run s := by
  unfold applyDue
  rw [applyWhile_of_due hw]
  cases hc : w.op.code left right with
  | error fault =>
    rw [run_bind_of_error (apply_error hc w.pos s)]
    rfl
  | ok r =>
    obtain ⟨code, type⟩ := r
    rw [run_bind_of_ok (apply_ok hc w.pos s)]
    dsimp only
    cases Pending.applyWhile due ops (type :: types) with
    | error e => rfl
    | ok q =>
      change (emitAll out (code ++ q.2) >>= fun _ => pure q.1).run s = (emitAll out q.2 >>= fun _ => pure q.1).run
        (s.append out code)
      rw [run_emitAll_bind, run_emitAll_bind, AnalysisState.append_append]

variable [TokenSource σ]

/-- The right operand of an operator as the pending stacks read it: a type name after a cast, an operand after any other. -/
def rightOperand (out : Section) (op : Operator) (depth : Nat) : Analysis σ ValueType :=
  if op = .cast then Prod.snd <$> typeName else operand out depth

variable [Supply σ]

/-- A look at the next token changes nothing for the operators. -/
theorem run_operators_looked (out : Section) (d : Nat) (p : Pending) (s : AnalysisState σ) :
    (operators out d p).run s.looked = (operators out d p).run s := by
  cases d with
  | zero => rfl
  | succ d =>
    rw [operators]
    cases hf : s.front with
    | error e => rw [run_bind_of_error (run_peek_error hf), run_bind_of_error (run_peek_error (by rw [s.front_looked, hf]))]
    | ok token =>
      rw [run_bind_of_ok (run_peek_ok hf), run_bind_of_ok (run_peek_ok (by rw [s.front_looked, hf])), s.looked_looked]

/-- An operator above operators of lower precedence joins them with its right operand. -/
theorem run_operators_shift (out : Section) (d : Nat) {token : Token} (hf : s.front = .ok token)
    (hop : Operator.ofKind? token.kind = some op) (hl : ∀ w ∈ ops, w.op.level < op.level) :
    (operators out (d + 1) ⟨ops, types⟩).run s =
      (rightOperand out op d >>= fun type => operators out d ⟨⟨op, token.pos⟩ :: ops, type :: types⟩).run s.taken := by
  rw [operators, run_bind_of_ok (run_peek_ok hf)]
  have hway : (makeWay out ⟨ops, types⟩ op : Analysis σ Pending).run s.looked = .ok (⟨ops, types⟩, s.looked) := by
    rw [makeWay, makeWayFor_of_lower hl]
    cases out <;> rfl
  simp only [hop]
  have hn : next.run s.looked = .ok (token, s.taken) := by rw [run_next_ok (by rw [s.front_looked, hf]), s.taken_looked]
  rw [run_bind_of_ok hway, run_bind_of_ok hn]
  unfold rightOperand
  split <;> rfl

/-- Whether the token in front lets an operator of a precedence class be applied: it is there, and no operator of a higher class
comes with it. -/
def Settled (k : Nat) (s : AnalysisState σ) : Prop :=
  ∃ token, s.front = .ok token ∧ ∀ op, Operator.ofKind? token.kind = some op → op.level < k

omit [Supply σ] in
/-- An operator is applied when the token behind its right operand is there and is no operator of a higher class. -/
theorem run_operators_reduce (out : Section) (d : Nat) (w : Waiting) (ops : List Waiting) (left right : ValueType)
    (types : List ValueType) (h : Settled (w.op.level + 1) s) :
    (operators out (d + 1) ⟨w :: ops, right :: left :: types⟩).run s =
      (apply out w.op w.pos left right >>= fun type => operators out (d + 1) ⟨ops, type :: types⟩).run s := by
  obtain ⟨token, hf, hk⟩ := h
  -- what is left to do after the look at the token, whichever operators are due then
  have after_look (due : Operator → Bool) (hw : due w.op = true) (k : Pending → Analysis σ ValueType)
      (hk : ∀ p s', s'.front = .ok token → (operators out (d + 1) p).run s' = (applyDue out due p >>= k).run s'.looked) :
      (operators out (d + 1) ⟨w :: ops, right :: left :: types⟩).run s =
        (apply out w.op w.pos left right >>= fun type => operators out (d + 1) ⟨ops, type :: types⟩).run s := by
    have hstep := run_applyDue_cons hw out ops left right types s.looked
    rw [hk _ s hf, StateT.run_bind, hstep, ← StateT.run_bind]
    cases hc : w.op.code left right with
    | error fault =>
      rw [run_bind_of_error (apply_error hc w.pos s), run_bind_of_error (run_bind_of_error (apply_error hc w.pos _))]
    | ok r =>
      rw [run_bind_of_ok (apply_ok hc w.pos s), hk _ _ (by rw [s.front_append, hf]), s.looked_append,
        StateT.run_bind, run_bind_of_ok (apply_ok hc w.pos _), ← StateT.run_bind]
  cases hop : Operator.ofKind? token.kind with
  | none =>
    refine after_look (fun _ => true) rfl (fun p => p.types.getLast?.elim (breach .noOperand) pure) fun p s' hf' => ?_
    rw [operators, run_bind_of_ok (run_peek_ok hf')]
    simp only [hop, conclude, applyDue, Pending.finish, bind_assoc, pure_bind]
    refine congrArg (StateT.run · s'.looked) (bind_congr fun r => bind_congr fun _ => ?_)
    cases r.1.types.getLast? <;> rfl
  | some op =>
    have hw : w.op.yieldsTo op = true := by
      have := hk op hop
      simp only [Operator.yieldsTo, Operator.precedence_eq_level, decide_eq_true_eq]
      omega
    refine after_look (·.yieldsTo op) hw
      (fun p => next >>= fun _ => rightOperand out op d >>= fun type => operators out d (p.shift op token.pos type))
      fun p s' hf' => ?_
    rw [operators, run_bind_of_ok (run_peek_ok hf')]
    simp only [hop]
    by_cases hc : op = .cast
    · simp only [rightOperand, if_pos hc]
      rfl
    · simp only [rightOperand, if_neg hc]
      rfl

/-! ## A chain of operators -/

/-- The operators after an operand of this type, with these operators waiting. -/
def waiting (out : Section) (ops : List Waiting) (types : List ValueType) (type : ValueType) (depth : Nat) :
    Analysis σ ValueType :=
  operators out depth ⟨ops, type :: types⟩

/-- What a part of an expression comes to on the pending stacks: its failure, or else, from where it leaves off, all that the
operators below it come to. -/
def Reaches (out : Section) (k : Nat) (ops : List Waiting) (types : List ValueType) (f : Nat → Analysis σ ValueType)
    (s : AnalysisState σ) : Except Failure (ValueType × AnalysisState σ) → Prop
  | .error e => Ends f s (.error e)
  | .ok (type, s') => Settled k s' ∧ ∀ r, Ends (waiting out ops types type) s' r → Ends f s r

/-- A part of an expression by descent does what reading an operand and the operators of class `k` and above after it does. -/
def Tracks (out : Section) (k : Nat) (first : Nat → Analysis σ ValueType) (part : Analysis σ ValueType) : Prop :=
  ∀ s, part.run s ≠ .error (.breach .tooDeep) → ∀ ops types, (∀ w ∈ ops, w.op.level < k) →
    Reaches out k ops types (fun d => first d >>= fun type => waiting out ops types type d) s (part.run s)

omit [Supply σ] in
theorem Reaches.imp {f g : Nat → Analysis σ ValueType} {s' : AnalysisState σ} {r : Except Failure (ValueType × AnalysisState σ)}
    (h : Reaches out k ops types f s r) (hfg : ∀ r, Ends f s r → Ends g s' r) : Reaches out k ops types g s' r := by
  cases r with
  | error e => exact hfg _ h
  | ok p => exact ⟨h.1, fun r hr => hfg r (h.2 r hr)⟩

/-- The chain of a class: each of its operators is shifted, its right operand read, and it is applied. -/
theorem reaches_chain (out : Section) (k : Nat) {right : Analysis σ ValueType}
    (hright : ∀ op : Operator, op.level = k → Tracks out (k + 1) (rightOperand out op) right)
    (ops : List Waiting) (types : List ValueType) (hops : ∀ w ∈ ops, w.op.level < k) :
    ∀ (n : Nat) (left : ValueType) (s : AnalysisState σ),
      (∀ token op, s.front = .ok token → Operator.ofKind? token.kind = some op → op.level < k + 1) →
      (chain out k right n left).run s ≠ .error (.breach .tooDeep) →
      Reaches out k ops types (waiting out ops types left) s ((chain out k right n left).run s)
  | 0, _, _, _, h => absurd rfl h
  | n + 1, left, s, hk, h => by
    have stop (hfront : ∃ token, s.front = .ok token ∧ ∀ op, Operator.ofKind? token.kind = some op → op.level < k) :
        Reaches out k ops types (waiting out ops types left) s (.ok (left, s.looked)) := by
      refine ⟨?_, fun r hr => ?_⟩
      · obtain ⟨token, hf, hlow⟩ := hfront
        exact ⟨token, by rw [s.front_looked, hf], hlow⟩
      · obtain ⟨d, hd⟩ := hr
        exact ⟨d, fun d' hd' => by rw [← hd d' hd', waiting, run_operators_looked]⟩
    rw [chain] at h ⊢
    cases hf : s.front with
    | error e =>
      rw [run_bind_of_error (run_peek_error hf)]
      refine ⟨1, fun d hd => ?_⟩
      obtain ⟨d, rfl⟩ : ∃ e, d = e + 1 := ⟨d - 1, by omega⟩
      rw [waiting, operators, run_bind_of_error (run_peek_error hf)]
    | ok token =>
      rw [run_bind_of_ok (run_peek_ok hf)] at h ⊢
      cases hop : Operator.ofKind? token.kind with
      | none => exact stop ⟨token, hf, fun op h' => by rw [hop] at h'; cases h'⟩
      | some op =>
        simp only [hop] at h ⊢
        by_cases hp : op.level = k
        · rw [if_pos hp] at h ⊢
          have hn : next.run s.looked = .ok (token, s.taken) := by
            rw [run_next_ok (by rw [s.front_looked, hf]), s.taken_looked]
          rw [run_bind_of_ok hn] at h ⊢
          -- the operator waits above the others while its right operand is read
          have shift {r} (hr : Ends (fun d => rightOperand out op d >>= fun type =>
              waiting out (⟨op, token.pos⟩ :: ops) (left :: types) type d) s.taken r) : Ends (waiting out ops types left) s r :=
            hr.of_succ fun d => run_operators_shift out d hf hop (by simpa [hp] using hops)
          have hwait : ∀ w ∈ (⟨op, token.pos⟩ :: ops : List Waiting), w.op.level < k + 1 := by
            intro w hw
            rcases List.mem_cons.1 hw with rfl | hw
            · simp [hp]
            · exact Nat.lt_succ_of_lt (hops w hw)
          have hgo := hright op hp s.taken
          cases hr : right.run s.taken with
          | error e =>
            rw [run_bind_of_error hr] at h ⊢
            rw [hr] at hgo
            exact shift (hgo (fun hc => h (by cases hc; rfl)) _ _ hwait)
          | ok p =>
            obtain ⟨type, s2⟩ := p
            rw [run_bind_of_ok hr] at h ⊢
            rw [hr] at hgo
            obtain ⟨hset, hgo⟩ := hgo (by simp) _ _ hwait
            -- and it is applied once that is complete
            have reduce {r} (hr : Ends (fun d => apply out op token.pos left type >>= fun type =>
                waiting out ops types type d) s2 r) : Ends (waiting out ops types left) s r :=
              shift (hgo r (hr.congr_succ fun d => run_operators_reduce out d _ ops left type types (by rwa [hp])))
            cases hc : op.code left type with
            | error fault =>
              rw [run_bind_of_error (apply_error hc token.pos s2)]
              exact reduce (.bind_of_error (.of_run (apply_error hc token.pos s2)))
            | ok q =>
              rw [run_bind_of_ok (apply_ok hc token.pos s2)] at h ⊢
              have hk2 : ∀ token op, (s2.append out q.1).front = .ok token → Operator.ofKind? token.kind = some op →
                  op.level < k + 1 := by
                intro t o ht ho
                obtain ⟨token2, hf2, hlow⟩ := hset
                rw [s2.front_append, hf2] at ht
                cases ht
                exact hlow o ho
              refine (reaches_chain out k hright ops types hops n q.2 _ hk2 h).imp fun r hr => reduce ?_
              exact .bind_of_ok (.of_run (apply_ok hc token.pos s2)) hr
        · rw [if_neg hp]
          refine stop ⟨token, hf, fun o ho => ?_⟩
          have := hk token op hf hop
          rw [hop] at ho
          cases ho
          omega

/-! ## The strata -/

/-- A chain above a part of the next class. -/
theorem Tracks.chain {first : Nat → Analysis σ ValueType} (hpart : Tracks out (k + 1) first part)
    (hright : ∀ op : Operator, op.level = k → Tracks out (k + 1) (rightOperand out op) part) (n : Nat) :
    Tracks out k first (part >>= Descent.chain out k part n) := by
  intro s h ops types hops
  have hlow : ∀ w ∈ ops, w.op.level < k + 1 := fun w hw => Nat.lt_succ_of_lt (hops w hw)
  cases hr : part.run s with
  | error e =>
    rw [run_bind_of_error hr] at h ⊢
    have hgo := hpart s (fun hc => h (by rw [hr] at hc; cases hc; rfl)) ops types hlow
    rw [hr] at hgo
    exact hgo
  | ok p =>
    rw [run_bind_of_ok hr] at h ⊢
    have hgo := hpart s (by rw [hr]; simp) ops types hlow
    rw [hr] at hgo
    obtain ⟨⟨token, hf, hset⟩, hgo⟩ := hgo
    refine (reaches_chain out k hright ops types hops n p.1 p.2 (fun t op ht hop => ?_) h).imp hgo
    rw [hf] at ht
    cases ht
    exact hset op hop

omit [Supply σ] in
theorem rightOperand_eq_operand (h : op.level ≠ 3) (out : Section) :
    (rightOperand out op : Nat → Analysis σ ValueType) = operand out := by
  have hc : op ≠ .cast := by rintro rfl; exact h rfl
  funext d
  rw [rightOperand, if_neg hc]

/-- A stratum above another one, both of operators between operands. -/
theorem Tracks.stratum (hk : k < 3) (hpart : Tracks out (k + 1) (operand out) part) (n : Nat) :
    Tracks out k (operand out) (part >>= Descent.chain out k part n) :=
  hpart.chain (fun op hop => by rwa [rightOperand_eq_operand (by omega)]) n

/-- The type name after a cast, where the token behind it is looked at or is sure to be there. -/
theorem tracks_castTarget (out : Section) (hl : looks = true ∨ ∀ source : σ, ∃ token, (TokenSource.peek source).1 = .ok token) :
    Tracks out 4 (rightOperand out .cast) (castTarget looks : Analysis σ ValueType) := by
  intro s h ops types hops
  have hfirst : rightOperand out .cast = fun _ => (Prod.snd <$> typeName : Analysis σ ValueType) := rfl
  have hbelow : ∀ op : Operator, op.level < 4 := by intro op; cases op <;> decide
  rw [hfirst, castTarget]
  rw [castTarget] at h
  cases hr : (typeName : Analysis σ (Token × ValueType)).run s with
  | error e =>
    have hm : (Prod.snd <$> typeName : Analysis σ ValueType).run s = .error e := by rw [StateT.run_map, hr]; rfl
    rw [run_bind_of_error hr]
    exact .bind_of_error (.of_run hm)
  | ok p =>
    obtain ⟨⟨token, type⟩, s1⟩ := p
    have hm : (Prod.snd <$> typeName : Analysis σ ValueType).run s = .ok (type, s1) := by rw [StateT.run_map, hr]; rfl
    have after {r} (hr : Ends (waiting out ops types type) s1 r) :
        Ends (fun d => (Prod.snd <$> typeName : Analysis σ ValueType) >>= fun type => waiting out ops types type d) s r :=
      .bind_of_ok (.of_run hm) hr
    rw [run_bind_of_ok hr] at h ⊢
    cases hf : s1.front with
    | error e =>
      have hlooks : looks = true := hl.resolve_right fun hall => by
        obtain ⟨t, ht⟩ := hall s1.source
        exact absurd (hf.symm.trans ht) (by simp)
      simp only [hlooks, if_true]
      rw [run_bind_of_error (run_peek_error hf)]
      exact after (.of_succ (f := fun _ => peek >>= fun _ => pure type)
        (.of_run (run_bind_of_error (run_peek_error hf))) fun d => by
          rw [waiting, operators, run_bind_of_error (run_peek_error hf), run_bind_of_error (run_peek_error hf)])
    | ok t =>
      cases looks with
      | false => exact ⟨⟨t, hf, fun op _ => hbelow op⟩, fun r hr => after hr⟩
      | true =>
        simp only [if_true]
        rw [run_bind_of_ok (run_peek_ok hf)]
        refine ⟨⟨t, by rw [s1.front_looked, hf], fun op _ => hbelow op⟩, fun r hr => after ?_⟩
        exact hr.congr_succ fun d => (run_operators_looked out _ _ s1).symm

/-- Casts after an operand. -/
theorem tracks_cast {first : Analysis σ ValueType}
    (hl : looks = true ∨ ∀ source : σ, ∃ token, (TokenSource.peek source).1 = .ok token)
    (hfirst : Refines first (operand out)) (n : Nat) :
    Tracks out 3 (operand out) (first >>= chain out 3 (castTarget looks) n) := by
  intro s h ops types hops
  cases hr : first.run s with
  | error e =>
    rw [run_bind_of_error hr] at h ⊢
    exact .bind_of_error (hr ▸ hfirst s fun hc => h (by rw [hr] at hc; cases hc; rfl))
  | ok p =>
    rw [run_bind_of_ok hr] at h ⊢
    have hright : ∀ op : Operator, op.level = 3 → Tracks out 4 (rightOperand out op)
      (castTarget looks : Analysis σ ValueType) := by
      intro op hop
      have hc : op = .cast := by cases op <;> first | rfl | cases hop
      rw [hc]
      exact tracks_castTarget out hl
    refine (reaches_chain out 3 hright ops types hops n p.1 p.2 (fun _ op _ _ => by cases op <;> decide) h).imp fun r hr' => ?_
    exact .bind_of_ok (hr ▸ hfirst s (by rw [hr]; simp)) hr'

/-- A chain ends with a look at the token behind it. -/
theorem looked_of_run_chain {out : Section} {k : Nat} {right : Analysis σ ValueType} : ∀ {n : Nat} {left type : ValueType}
    {s s' : AnalysisState σ}, (chain out k right n left).run s = .ok (type, s') → s'.looked = s'
  | 0, _, _, _, _, h => by cases h
  | n + 1, left, type, s, s', h => by
    rw [chain] at h
    obtain ⟨token, s1, hp, h⟩ := run_bind_ok_iff.1 h
    have hs1 : s1 = s.looked := by
      cases hf : s.front with
      | error e =>
        rw [run_peek_error hf] at hp
        cases hp
      | ok t =>
        rw [run_peek_ok hf] at hp
        cases hp
        rfl
    split at h
    · split at h
      · obtain ⟨_, _, _, h⟩ := run_bind_ok_iff.1 h
        obtain ⟨_, _, _, h⟩ := run_bind_ok_iff.1 h
        obtain ⟨_, _, _, h⟩ := run_bind_ok_iff.1 h
        exact looked_of_run_chain h
      · cases h
        rw [hs1, s.looked_looked]
    · cases h
      rw [hs1, s.looked_looked]

/-- The lowest stratum is an expression. -/
theorem refines_expression {n : Nat} (h : Tracks out 0 (operand out) (part >>= chain out 0 part n)) :
    Refines (part >>= chain out 0 part n) (expression out) := by
  intro s hd
  have hgo := h s hd [] [] (by simp)
  have up {r} (hr : Ends (fun d => operand out d >>= fun type => waiting out [] [] type d) s r) : Ends (expression out) s r :=
    hr.of_succ fun d => by rw [expression]; rfl
  cases hr : (part >>= chain out 0 part n).run s with
  | error e =>
    rw [hr] at hgo
    exact up hgo
  | ok p =>
    obtain ⟨type, s'⟩ := p
    rw [hr] at hgo
    obtain ⟨⟨token, hf, hset⟩, hgo⟩ := hgo
    obtain ⟨_, _, _, hc⟩ := run_bind_ok_iff.1 hr
    have hnone : Operator.ofKind? token.kind = none := by
      cases hop : Operator.ofKind? token.kind with
      | none => rfl
      | some op => exact absurd (hset op hop) (Nat.not_lt_zero _)
    refine up (hgo _ (.of_succ (f := fun _ => pure type) (.of_run (s := s') rfl) fun d => ?_))
    rw [waiting, operators, run_bind_of_ok (run_peek_ok hf), looked_of_run_chain hc]
    simp only [hnone]
    cases out <;> rfl

/-- Every part of an expression by descent is the same as that part on the pending stacks. -/
theorem refines_strata (out : Section) {looks : Bool}
    (hl : looks = true ∨ ∀ source : σ, ∃ token, (TokenSource.peek source).1 = .ok token) : ∀ d,
    Refines (comparison out looks d : Analysis σ ValueType) (expression out) ∧
    Tracks out 1 (operand out) (additive out looks d : Analysis σ ValueType) ∧
    Tracks out 2 (operand out) (multiplicative out looks d : Analysis σ ValueType) ∧
    Tracks out 3 (operand out) (cast out looks d : Analysis σ ValueType) ∧
    Refines (primary out looks d : Analysis σ ValueType) (operand out) ∧
    (∀ name count params, Refines (arguments out looks name d count params : Analysis σ Nat) fun e =>
      Analysis.arguments out name e count params)
  | 0 => ⟨.breach _, fun _ h => absurd rfl h, fun _ h => absurd rfl h, fun _ h => absurd rfl h, .breach _,
      fun _ _ _ => .breach _⟩
  | d + 1 => by
    obtain ⟨hc, ha, hm, ht, hp, hargs⟩ := refines_strata out hl d
    refine ⟨refines_expression (ha.stratum (by omega) d), hm.stratum (by omega) d, ht.stratum (by omega) d, tracks_cast hl hp d,
      ?_, fun name count params => ?_⟩
    · exact .of_succ (.operandWith out hc hp fun name params => hargs name 0 params)
    · exact .of_succ (.argumentWith name count params hc (hargs name (count + 1) params))

end Descent

namespace Analysis

variable {σ : Type} [TokenSource σ] [Supply σ]

theorem run_expression_eq_comparison (out : Section) (s : AnalysisState σ) {d e : Nat} (hd : 4 * s.ahead.length + 2 ≤ d)
    (he : 6 * s.ahead.length + 5 ≤ e) (hl : looks = true ∨ ∀ source : σ, ∃ token, (TokenSource.peek source).1 = .ok token) :
    (expression out d).run s = (Descent.comparison out looks e).run s := by
  obtain ⟨d', hd'⟩ := (Descent.refines_strata out hl e).1 s
    (((Descent.parses_strata out looks e s).1 fun _ => he).ne_tooDeep trivial)
  have hdeep := (Refines.expression out (Nat.le_max_left d d')).run_eq (((Parses.parts out d s).1 hd).ne_tooDeep trivial)
  rw [← hdeep, hd' _ (Nat.le_max_right d d')]

/-- Compiling an expression with pending stacks is compiling it by descent, from every state: the same tokens are taken, the same
code is emitted, the same type or failure comes out, and the state is the same then. The right operand of a cast is a type name,
and descent looks at the token behind it before it applies the cast; where every token can be read it need not look. -/
theorem run_expression_eq_descent (out : Section) (s : AnalysisState σ) (d e : Nat) (hd : 4 * s.ahead.length + 2 ≤ d)
    (he : 6 * s.ahead.length + 5 ≤ e) :
    (expression out d).run s = (Descent.comparison out true e).run s ∧
    ((∀ source : σ, ∃ token, (TokenSource.peek source).1 = .ok token) →
      (expression out d).run s = (Descent.comparison out false e).run s) :=
  ⟨run_expression_eq_comparison out s hd he (.inl rfl), fun h => run_expression_eq_comparison out s hd he (.inr h)⟩

/-- The tokens of `1 + 2 * 3 as double < 4.0`. -/
def mixedOperators : List Token :=
  let at_ (col : Int) (kind : TokenKind) : Token := { kind, lexeme := [], pos := ⟨1, col⟩ }
  [at_ 1 .uintLit, at_ 3 .plus, at_ 5 .uintLit, at_ 7 .star, at_ 9 .uintLit, at_ 11 .as, at_ 14 .double, at_ 21 .less,
    at_ 23 .doubleLit]

theorem run_expression_mixedOperators : (expression .body 38).run { source := Replay.ofTokens mixedOperators } =
        (Descent.comparison .body true 59).run { source := Replay.ofTokens mixedOperators } ∧
      (expression .body 38).run { source := Replay.ofTokens mixedOperators } =
        (Descent.comparison .body false 59).run { source := Replay.ofTokens mixedOperators } := by
  have h := run_expression_eq_descent .body { source := Replay.ofTokens mixedOperators } 38 59 (by decide) (by decide)
  exact ⟨h.1, h.2 fun r => ⟨_, rfl⟩⟩

/-- A cast to `void` with an unreadable token behind it. -/
def unreadableBehindCast : AnalysisState Lexer := { source := Lexer.ofSource (Bytes.ofString "1 as void @") }

theorem run_expression_unreadableBehindCast : (expression .body 50).run unreadableBehindCast =
    .error (.diagnostic ⟨⟨1, 11⟩, .unexpectedCharacter '@'⟩) := by cbv

theorem run_comparison_unreadableBehindCast : (Descent.comparison .body false 72).run unreadableBehindCast =
    .error (.diagnostic ⟨⟨1, 3⟩, .casted .int .void⟩) := by cbv

/-- Without the look, the fault of a cast comes before that of an unreadable token behind it. -/
theorem run_expression_ne_strict_descent : ∃ (s : AnalysisState Lexer) (d e : Nat), 4 * s.ahead.length + 2 ≤ d ∧
    6 * s.ahead.length + 5 ≤ e ∧ (expression .body d).run s ≠ (Descent.comparison .body false e).run s := by
  have hremaining : TokenSource.remaining unreadableBehindCast.source = 11 := by cbv
  have hlength : unreadableBehindCast.ahead.length ≤ 11 := hremaining ▸ Supply.length_ahead unreadableBehindCast.source
  refine ⟨unreadableBehindCast, 50, 72, by omega, by omega, ?_⟩
  rw [run_expression_unreadableBehindCast, run_comparison_unreadableBehindCast]
  simp

end Analysis

end OnePass

import OnePass.Proofs.Depth

/-!
# Recursive descent

A second compiler of expressions, by the strata of their grammar: a comparison is a chain of sums, a sum a chain of products, a
product a chain of casts, and a cast a chain of type names after an operand. Every operator is checked and its code emitted as
soon as its right operand has been read. Operands are those of `operandWith`, with the expressions in them compiled by descent
too.
-/

namespace OnePass

namespace Descent

open Analysis

variable {σ : Type} [TokenSource σ]

/-- Applies an operator to operands of these types. -/
def apply (out : Section) (op : Operator) (pos : Pos) (left right : ValueType) : Analysis σ ValueType :=
  match op.code left right with
  | .ok (code, type) => do
    emitAll out code
    return type
  | .error fault => fail pos fault

/-- Operators of one precedence class, each with its right operand, after a left operand. -/
def chain (out : Section) (level : Nat) (right : Analysis σ ValueType) : Nat → ValueType → Analysis σ ValueType
  | 0, _ => breach .tooDeep
  | depth + 1, left => do
    let token ← peek
    match Operator.ofKind? token.kind with
    | some op =>
      if op.level = level then do
        let _ ← next
        let type ← right
        chain out level right depth (← apply out op token.pos left type)
      else return left
    | none => return left

/-- The right operand of a cast. If `looks`, the token behind it is looked at, as it is behind every other right operand. -/
def castTarget (looks : Bool) : Analysis σ ValueType := do
  let (_, type) ← typeName
  if looks then
    let _ ← peek
  return type

mutual

/-- Sums with comparisons between them. -/
def comparison (out : Section) (looks : Bool) : Nat → Analysis σ ValueType
  | 0 => breach .tooDeep
  | depth + 1 => do chain out 0 (additive out looks depth) depth (← additive out looks depth)

/-- Products with additions and subtractions between them. -/
def additive (out : Section) (looks : Bool) : Nat → Analysis σ ValueType
  | 0 => breach .tooDeep
  | depth + 1 => do chain out 1 (multiplicative out looks depth) depth (← multiplicative out looks depth)

/-- Casts with multiplications and divisions between them. -/
def multiplicative (out : Section) (looks : Bool) : Nat → Analysis σ ValueType
  | 0 => breach .tooDeep
  | depth + 1 => do chain out 2 (cast out looks depth) depth (← cast out looks depth)

/-- An operand and the types it is cast to. -/
def cast (out : Section) (looks : Bool) : Nat → Analysis σ ValueType
  | 0 => breach .tooDeep
  | depth + 1 => do chain out 3 (castTarget looks) depth (← primary out looks depth)

/-- An operand. -/
def primary (out : Section) (looks : Bool) : Nat → Analysis σ ValueType
  | 0 => breach .tooDeep
  | depth + 1 =>
    operandWith out (comparison out looks depth) (primary out looks depth) fun name params =>
      arguments out looks name depth 0 params

/-- The arguments of a call from one on, with the closing parenthesis. Gives their number. -/
def arguments (out : Section) (looks : Bool) (name : Token) : Nat → Nat → List ValueType → Analysis σ Nat
  | 0, _, _ => breach .tooDeep
  | depth + 1, count, params =>
    argumentWith name (comparison out looks depth) (arguments out looks name depth (count + 1) params) count params

end

/-! ## What is read -/

omit [TokenSource σ] in
theorem still_apply (out : Section) (op : Operator) (pos : Pos) (left right : ValueType) :
    Still (apply out op pos left right : Analysis σ ValueType) := by
  unfold apply
  split
  · exact .bind (.emitAll out _) fun _ => .pure _
  · exact .fail _ _

variable {s s' : AnalysisState σ} {ys : List Terminal} {k : Nat} {deep : Prop} {part : Analysis σ ValueType}

/-- No operator of class `k` or above is in front. -/
def Below (k : Nat) (s : AnalysisState σ) : Prop :=
  ∀ token op, s.front = .ok token → Operator.ofKind? token.kind = some op → op.level < k

theorem Below.congr (h : Below k s) (hfront : s'.front = s.front) : Below k s' := fun token op ht => h token op (hfront ▸ ht)

theorem below_four (s : AnalysisState σ) : Below 4 s := by
  intro _ op _ _
  cases op <;> decide

/-- The terminals are those of a grouped tree of class `k` or above. An operator in front is of a lower class, and after an
assignment none is. -/
def Read (k : Nat) (ys : List Terminal) (s : AnalysisState σ) : Prop :=
  ∃ e : Expr, e.Grouped ∧ k ≤ e.level ∧ ys = e.yield ∧ Below k s ∧ (e.endsOpen = true → Below 0 s)

/-- After a left operand and an operator of class `k`, the terminals complete a tree. -/
def ReadRight (k : Nat) (ys : List Terminal) (s : AnalysisState σ) : Prop :=
  ∀ (op : Operator) (left : Expr), op.level = k → left.Grouped → k ≤ left.level → left.endsOpen = false →
    ∃ e : Expr, e.Grouped ∧ k ≤ e.level ∧ e.yield = left.yield ++ .mark op.kind :: ys ∧ Below (k + 1) s ∧
      (e.endsOpen = true → Below 0 s)

/-- The terminals are those of arguments from one on, with the closing parenthesis. -/
def ReadArgs (ys : List Terminal) (_ : AnalysisState σ) : Prop :=
  ∃ (first : Expr) (rest : Args), first.Grouped ∧ rest.Grouped ∧ ys = first.yield ++ rest.more

theorem Read.right (hk : k < 3) (h : Read (k + 1) ys s) : ReadRight k ys s := by
  obtain ⟨e, heg, hel, rfl, hb, hopen⟩ := h
  intro op left hop hg hl ho
  have hc : op ≠ .cast := by
    rintro rfl
    exact absurd hop (by simp only [Operator.level]; omega)
  exact ⟨.binary op left e, ⟨hc, by omega, by omega, ho, hg, heg⟩, Nat.le_of_eq hop.symm, rfl, hb, hopen⟩

theorem readRight_typeName (n : TypeName) (s : AnalysisState σ) : ReadRight 3 [.mark n.kind] s := by
  intro op left hop hg hl ho
  have hc : op = .cast := by cases op <;> first | rfl | cases hop
  exact ⟨.cast left n, ⟨hl, ho, hg⟩, Nat.le_refl _, by rw [hc]; rfl, below_four s, nofun⟩

variable [Supply σ]

theorem parses_castTarget (looks : Bool) : Parses deep (castTarget looks) s fun _ => ReadRight 3 :=
  .typeName_bind fun _ n _ _ => .ite (fun _ => .peek_bind fun _ s' _ _ => .pure (readRight_typeName n s')) fun _ =>
    .pure (readRight_typeName n _)

/-- A chain of a class completes a left operand to a tree of that class. -/
theorem parses_chain (out : Section) (k : Nat) {right : Analysis σ ValueType} :
    ∀ {n : Nat} {left : Expr} {τ : ValueType} {s : AnalysisState σ},
    (∀ s', s'.ahead.length + 1 ≤ s.ahead.length → Parses deep right s' fun _ => ReadRight k) → (deep → s.ahead.length + 1 ≤ n) →
    left.Grouped → k ≤ left.level → Below (k + 1) s → (left.endsOpen = true → Below 0 s) →
    Parses deep (chain out k right n τ) s fun _ ys => Read k (left.yield ++ ys)
  | 0, _, _, _, _, hn, _, _, _, _ => .tooDeep fun hdeep => by simpa using hn hdeep
  | n + 1, left, τ, s, hright, hn, hg, hl, hb, ho => by
    refine .looked_bind fun token hf => ?_
    have hf' := s.front_looked.trans hf
    have stop (hlow : Below k s) : Parses deep (pure τ) s.looked fun _ ys => Read k (left.yield ++ ys) :=
      .pure ⟨left, hg, hl, List.append_nil _, hlow.congr s.front_looked, fun h => (ho h).congr s.front_looked⟩
    split
    · rename_i op hop
      have hkind := Operator.kind_of_ofKind? hop
      refine .ite (fun hp => ?_) fun hp => stop fun t o ht ho => ?_
      · have hterm : token.terminal = .mark op.kind := by
          rw [Token.terminal, ← hkind]
          cases op <;> rfl
        refine .next_bind hf' (by rw [← hkind]; cases op <;> decide) fun s1 h1 => ?_
        rw [hterm]
        rw [AnalysisState.ahead_looked] at h1
        refine .bind (hright s1 (by omega)) fun τ1 ys s2 hread h2 => ?_
        have hclosed : left.endsOpen = false := by
          rw [Bool.eq_false_iff]
          exact fun h => absurd (ho h token op hf hop) (Nat.not_lt_zero _)
        obtain ⟨e, hge, hle, hy, hbe, hoe⟩ := hread op left hp hg hl hclosed
        refine .still_bind (still_apply out op token.pos τ τ1) fun τ2 s3 hsource h3 => ?_
        have same : s3.front = s2.front := congrArg (fun source => (TokenSource.peek source).1) hsource
        have hmore := parses_chain (n := n) (s := s3) (τ := τ2) out k (fun s' h => hright s' (by omega))
          (fun hdeep => by have := hn hdeep; omega) hge hle
          (hbe.congr same) fun h => (hoe h).congr same
        simpa [hy] using hmore
      · rw [hf] at ht
        cases ht
        have := hb token o hf ho
        rw [hop] at ho
        cases ho
        omega
    · rename_i hop
      refine stop fun t op ht hop' => ?_
      rw [hf] at ht
      cases ht
      rw [hop] at hop'
      cases hop'

theorem parses_operandWith (out : Section) {value inner : Analysis σ ValueType}
    {arguments : Token → List ValueType → Analysis σ Nat}
    (hv : ∀ s', s'.ahead.length + 1 ≤ s.ahead.length → Parses deep value s' fun _ => Read 0)
    (hi : ∀ s', s'.ahead.length + 1 ≤ s.ahead.length → Parses deep inner s' fun _ => Read 4)
    (ha : ∀ name params s', s'.ahead.length + 1 ≤ s.ahead.length → Parses deep (arguments name params) s' fun _ => ReadArgs) :
    Parses deep (operandWith out value inner arguments) s fun _ => Read 4 := by
  refine .operandWith out hv hi ha (fun e s' hg hl ho => ?_) ?_ ?_ ?_ ?_
  · exact ⟨e, hg, Nat.le_of_eq hl.symm, rfl, below_four s', fun h => by rw [ho] at h; cases h⟩
  · rintro _ _ s'' ⟨e, hg, -, rfl, -⟩
    exact ⟨.paren e, hg, Nat.le_refl _, rfl, below_four s'', nofun⟩
  · rintro _ _ s'' hsource ⟨e, hg, hl, rfl, -, ho⟩
    refine ⟨.neg e, ⟨Nat.le_antisymm e.level_le hl, hg⟩, Nat.le_refl _, rfl, below_four s'', fun h => (ho h).congr ?_⟩
    exact congrArg (fun source => (TokenSource.peek source).1) hsource
  · rintro x _ _ s'' hsource ⟨e, hg, -, rfl, hb, -⟩
    refine ⟨.assign x e, hg, Nat.le_refl _, rfl, below_four s'', fun _ => hb.congr ?_⟩
    exact congrArg (fun source => (TokenSource.peek source).1) hsource
  · rintro f _ _ s'' ⟨first, rest, hgf, hgr, rfl⟩
    exact ⟨.call f (.cons first rest), ⟨hgf, hgr⟩, Nat.le_refl _, rfl, below_four s'', nofun⟩

theorem parses_argumentWith (name : Token) {value : Analysis σ ValueType} {more : Analysis σ Nat} (count : Nat)
    (params : List ValueType) (hv : ∀ s', s'.ahead.length = s.ahead.length → Parses deep value s' fun _ => Read 0)
    (hm : ∀ s', s'.ahead.length + 1 ≤ s.ahead.length → Parses deep more s' fun _ => ReadArgs) :
    Parses deep (argumentWith name value more count params) s fun _ => ReadArgs := by
  refine .argumentWith name count params hv hm ?_ ?_
  · rintro _ _ _ ⟨e, hg, -, rfl, -⟩
    exact ⟨e, .nil, hg, trivial, rfl⟩
  · rintro _ _ _ _ ⟨e, hg, -, rfl, -⟩ ⟨second, rest, hgs, hgr, rfl⟩
    exact ⟨e, .cons second rest, hg, ⟨hgs, hgr⟩, rfl⟩

theorem parses_stratum (out : Section) {right : Analysis σ ValueType} {n : Nat} (h : Parses deep part s fun _ => Read (k + 1))
    (hright : ∀ s', s'.ahead.length + 1 ≤ s.ahead.length → Parses deep right s' fun _ => ReadRight k)
    (hn : deep → s.ahead.length + 1 ≤ n) :
    Parses deep (part >>= chain out k right n) s fun _ => Read k := by
  refine .bind h ?_
  rintro τ _ s1 ⟨left, hg, hl, rfl, hb, ho⟩ h1
  exact parses_chain out k (fun s' h => hright s' (by omega)) (fun hdeep => by have := hn hdeep; omega) hg (by omega) hb ho

/-- Every stratum reads trees of its class, and with a depth of six for each token ahead none runs out of it. -/
theorem parses_strata (out : Section) (looks : Bool) : ∀ (d : Nat) (s : AnalysisState σ),
    ((deep → 6 * s.ahead.length + 5 ≤ d) → Parses deep (comparison out looks d) s fun _ => Read 0) ∧
    ((deep → 6 * s.ahead.length + 4 ≤ d) → Parses deep (additive out looks d) s fun _ => Read 1) ∧
    ((deep → 6 * s.ahead.length + 3 ≤ d) → Parses deep (multiplicative out looks d) s fun _ => Read 2) ∧
    ((deep → 6 * s.ahead.length + 2 ≤ d) → Parses deep (cast out looks d) s fun _ => Read 3) ∧
    ((deep → 6 * s.ahead.length + 1 ≤ d) → Parses deep (primary out looks d) s fun _ => Read 4) ∧
    ∀ name count params, (deep → 6 * s.ahead.length + 6 ≤ d) → Parses deep (arguments out looks name d count params) s
      fun _ => ReadArgs
  | 0, s => by refine ⟨?_, ?_, ?_, ?_, ?_, fun _ _ _ => ?_⟩ <;> exact fun hd => .tooDeep fun hdeep => by simpa using hd hdeep
  | d + 1, s => by
    have ih := parses_strata out looks d
    refine ⟨fun hd => ?_, fun hd => ?_, fun hd => ?_, fun hd => ?_, fun hd => ?_, fun name count params hd => ?_⟩
    · exact parses_stratum out ((ih s).2.1 (by grind))
        (fun s' h => ((ih s').2.1 (by grind)).imp fun _ _ _ h => h.right (by omega)) (by grind)
    · exact parses_stratum out ((ih s).2.2.1 (by grind))
        (fun s' h => ((ih s').2.2.1 (by grind)).imp fun _ _ _ h => h.right (by omega)) (by grind)
    · exact parses_stratum out ((ih s).2.2.2.1 (by grind))
        (fun s' h => ((ih s').2.2.2.1 (by grind)).imp fun _ _ _ h => h.right (by omega)) (by grind)
    · exact parses_stratum out ((ih s).2.2.2.2.1 (by grind)) (fun _ _ => parses_castTarget looks) (by grind)
    · exact parses_operandWith out (fun s' h => (ih s').1 (by grind)) (fun s' h => (ih s').2.2.2.2.1 (by grind))
        fun name params s' h => (ih s').2.2.2.2.2 name 0 params (by grind)
    · exact parses_argumentWith name count params (fun s' h => (ih s').1 (by grind)) fun s' h =>
        (ih s').2.2.2.2.2 name _ params (by grind)

end Descent

end OnePass

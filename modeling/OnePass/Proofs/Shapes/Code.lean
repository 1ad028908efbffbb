import OnePass.Proofs.Shapes.Pieces

/-!
# The code of trees is typed

If the names in scope are what a program declares (`Scope.Fits`), the code of an expression puts its value on the stack
(`Expr.typed_of_emits`), and the items of a statement leave the stack as they find it (`ItemLaw.typed`).
-/

namespace OnePass

variable {τ : ValueType} {n : Nat}

/-- The variable with this home is declared with the type. -/
def Home.Fits (D : Declared) (τ : ValueType) : Home → Prop
  | .global n => n < placeLimit ∧ D.global n = some τ
  | .local n => n < placeLimit ∧ D.locals[n]? = some τ
  | .argument n => n < placeLimit ∧ D.arguments[n]? = some τ

/-- The name stands for what is declared. -/
def Binding.Fits (D : Declared) : Binding → Prop
  | .variable τ _ _ home => τ.IsStored ∧ home.Fits D τ
  | .function params returns number _ =>
    number < placeLimit ∧ D.callee number = some ⟨params, returns⟩ ∧ Signature.IsPlain ⟨params, returns⟩

/-- All names stand for what is declared. -/
def Scope.Fits (D : Declared) (N : Scope) : Prop := ∀ entry ∈ N, entry.2.Fits D

/-- The pool has the names of primitives where they are declared. -/
structure Declared.Pooled (D : Declared) (P : List PoolEntry) : Prop where
  limit : P.length < placeLimit
  routine {slot : Nat} {f : Bytes} {primitive : Primitive} (hslot : P[slot]? = some (.primitive f))
    (hf : Primitive.ofName? f = some primitive) : D.routine slot = some primitive

theorem ValueType.IsStored.exists_kinds (h : τ.IsStored) : ∃ k a, τ.kinds = [k] ∧ τ.addressKind? = some a ∧
    a.Locates k ∧ k.IsNumber := by
  rcases h with rfl | rfl
  · exact ⟨.int, .intAddress, rfl, rfl, .inl ⟨rfl, rfl⟩, .inl rfl⟩
  · exact ⟨.double, .doubleAddress, rfl, rfl, .inr ⟨rfl, rfl⟩, .inr rfl⟩

theorem ValueType.IsStored.exists_value (h : τ.IsStored) : ∃ k, τ.kinds = [k] ∧ k.IsValue := by
  rcases h with rfl | rfl
  · exact ⟨.int, rfl, .inl rfl⟩
  · exact ⟨.double, rfl, .inr (.inl rfl)⟩

theorem Scope.Fits.of_lookup {D : Declared} {N : Scope} (hN : N.Fits D) {x : Bytes} {binding : Binding}
    (h : N.lookup x = some binding) :
    binding.Fits D := by
  obtain ⟨before, after, rfl, -⟩ := List.lookup_eq_some_iff.1 h
  exact hN (x, binding) (by simp)

theorem toInt_withNat {op : Opcode} (h : n < placeLimit) : (Instruction.withNat op n).operand.toInt = n :=
  Int64.toInt_ofNat_of_lt (Nat.lt_trans h (by decide))

section

variable {D : Declared} {P : List PoolEntry} {N : Scope} {inLoop : Bool}
variable {code : List Instruction} {home : Home} {d : Declaration} {items : List Item} {f : Flow} {e : Expr}

namespace Typed

variable {τ1 τ2 : ValueType}

theorem address {a : Kind} (h : home.Fits D τ) (ha : τ.addressKind? = some a) (σ : Shape) :
    Typed D inLoop (plain [home.address]) σ (some (a :: σ)) := by
  have hoperand {n : Nat} (hn : n < placeLimit) : (Int64.ofInt n).toInt = n :=
    Int64.toInt_ofInt_of_le (by omega) (by unfold placeLimit at hn; omega)
  cases home with
  | «global» n => exact instr (.globA rfl (hoperand h.1) h.2 ha) rfl σ
  | «local» n => exact instr (.locA rfl (hoperand h.1) h.2 ha) rfl σ
  | argument n => exact instr (.argA rfl (hoperand h.1) h.2 ha) rfl σ

/-- Loading a variable. -/
theorem load {home : Home} {τ : ValueType} (hτ : τ.IsStored) (h : home.Fits D τ) (σ : Shape) :
    Typed D inLoop (plain [home.address, { op := .load }]) σ (some (τ.kinds ++ σ)) := by
  obtain ⟨k, a, hk, ha, hlocates, -⟩ := hτ.exists_kinds
  rw [hk]
  exact (address h ha σ).append (instr (.load rfl hlocates) rfl σ)

/-- Storing a value in a variable. -/
theorem store {home : Home} {τ : ValueType} {code : List Instruction} (hτ : τ.IsStored) (h : home.Fits D τ)
    (hvalue : ∀ σ, Typed D inLoop (plain code) σ (some (τ.kinds ++ σ))) (σ : Shape) :
    Typed D inLoop (plain (home.address :: code ++ [{ op := .store }])) σ (some σ) := by
  obtain ⟨k, a, hk, ha, hlocates, -⟩ := hτ.exists_kinds
  have hcode := hvalue (a :: σ)
  rw [hk] at hcode
  have hitems : plain (home.address :: code ++ [{ op := .store }]) = plain [home.address] ++
    (plain code ++ plain [{ op := .store }]) := by
    simp [plain]
  rw [hitems]
  exact (address h ha σ).append (hcode.append (instr (.store rfl hlocates) rfl σ))

/-- An operation that needs no declaration. -/
theorem fixed (op : Opcode) {takes gives : Shape} (h : op.effect? = some (takes, gives))
    (hop : op.isOrdinary = true) (σ : Shape) :
    Typed D inLoop (plain [{ op }]) (takes ++ σ) (some (gives ++ σ)) := instr (.fixed h) hop σ

/-- What makes a truth value out of an order. -/
theorem tests (op : Operator) (σ : Shape) :
    Typed D inLoop (plain (op.tests.map fun op => { op })) (.bool :: σ) (some (.bool :: σ)) := by
  have hgt : Typed D inLoop (plain [{ op := .setGt }]) (.bool :: σ) (some (.bool :: σ)) := fixed .setGt rfl rfl σ
  have hlt : Typed D inLoop (plain [{ op := .setLt }]) (.bool :: σ) (some (.bool :: σ)) := fixed .setLt rfl rfl σ
  have hnot : Typed D inLoop (plain [{ op := .not }]) (.bool :: σ) (some (.bool :: σ)) := fixed .not rfl rfl σ
  cases op with
  | gt => exact hgt
  | lt => exact hlt
  | ge => exact hlt.append hnot
  | le => exact hgt.append hnot
  | eq => exact hnot
  | ne | add | sub | mul | div | cast => exact nil _

theorem operation {op : Operator} (h : op.code τ1 τ2 = .ok (code, τ)) (hcast : op ≠ .cast) (σ : Shape) :
    Typed D inLoop (plain code) (τ2.kinds ++ (τ1.kinds ++ σ)) (some (τ.kinds ++ σ)) := by
  rcases Operator.code_ok h hcast with ⟨onInt, onDouble, hop, h⟩ | ⟨-, h⟩
  · have heffects : onInt.effect? = some ([.int, .int], [.int]) ∧ onInt.isOrdinary = true ∧
        onDouble.effect? = some ([.double, .double], [.double]) ∧ onDouble.isOrdinary = true := by
      cases op <;> cases hop <;> simp [Opcode.effect?, Opcode.isOrdinary]
    obtain ⟨hint, hintOp, hdouble, hdoubleOp⟩ := heffects
    rcases Operator.arithmetic_ok h with ⟨rfl, rfl, rfl, rfl⟩ | ⟨rfl, rfl, rfl, rfl⟩
    · exact fixed _ hint hintOp σ
    · exact fixed _ hdouble hdoubleOp σ
  · obtain ⟨hcases, hτ⟩ := Operator.comparison_ok h
    subst hτ
    rcases hcases with ⟨rfl, rfl, rfl⟩ | ⟨rfl, rfl, rfl⟩
    · have hcmp : Typed D inLoop (plain [{ op := .cmpI }]) (.int :: .int :: σ) (some (.bool :: σ)) :=
        fixed .cmpI rfl rfl σ
      exact hcmp.append (tests op σ)
    · have hcmp : Typed D inLoop (plain [{ op := .cmpF }]) (.double :: .double :: σ) (some (.bool :: σ)) :=
        fixed .cmpF rfl rfl σ
      exact hcmp.append (tests op σ)

theorem conversion (h : Operator.cast.code τ1 τ2 = .ok (code, τ)) (σ : Shape) :
    Typed D inLoop (plain code) (τ1.kinds ++ σ) (some (τ.kinds ++ σ)) := by
  obtain ⟨rfl, h⟩ := Operator.cast_ok h
  rcases h with ⟨rfl, -, rfl⟩ | ⟨rfl, rfl, rfl⟩ | ⟨rfl, rfl, rfl⟩
  · exact nil _
  · exact fixed .iToF rfl rfl σ
  · exact fixed .fToI rfl rfl σ

theorem stackAlloc {τ : ValueType} (h : τ.IsReturned) (σ : Shape) :
    Typed D inLoop (plain [.withNat .stackAlloc τ.slots]) σ (some (τ.kinds ++ σ)) := by
  refine instr (.stackAlloc rfl ?_ ?_) rfl σ
  · rcases h with rfl | rfl | rfl <;> rfl
  · rcases h with rfl | rfl | rfl <;> simp [ValueType.kinds, Kind.IsNumber]

/-- A call, from the slot for its result on. -/
theorem call {s : Signature} {i : Instruction} (hs : s.IsPlain) (hi : i.Acts D s.takes s.gives) (hop : i.op.isOrdinary = true)
    (hargs : ∀ σ, Typed D inLoop (plain code) σ (some (s.params.reverse.flatMap ValueType.kinds ++ σ))) (σ : Shape) :
    Typed D inLoop (plain (.withNat .stackAlloc s.returns.slots :: code ++ [i])) σ (some (s.returns.kinds ++ σ)) := by
  have hitems : plain (.withNat .stackAlloc s.returns.slots :: code ++ [i]) =
      plain [.withNat .stackAlloc s.returns.slots] ++ (plain code ++ plain [i]) := by simp [plain]
  have hcall : Typed D inLoop (plain [i]) (s.takes ++ σ) (some (s.gives ++ σ)) := instr hi hop σ
  rw [Signature.takes, List.append_assoc] at hcall
  rw [hitems]
  exact (stackAlloc hs.2 σ).append ((hargs _).append hcall)

end Typed

@[simp] theorem plain_append (code more : List Instruction) :
    plain (code ++ more) = plain code ++ plain more := List.map_append ..

mutual

/-- An expression puts its value on the stack. -/
theorem Expr.typed_of_emits (hN : N.Fits D) (hP : D.Pooled P) : ∀ (e : Expr) {τ code},
    e.Emits P N τ code → ∀ σ, Typed D inLoop (plain code) σ (some (τ.kinds ++ σ))
  | .int value, _, _, .int _, σ => .instr (.push rfl (.inl rfl)) rfl σ
  | .double bits, _, _, .double _, σ => .instr (.push rfl (.inr rfl)) rfl σ
  | .text _ _, _, _, .text _ _, σ => .instr (.push rfl (.inl rfl)) rfl σ
  | .name x, _, _, .name hx, σ => by
    obtain ⟨hτ, hhome⟩ := hN.of_lookup hx
    exact .load hτ hhome σ
  | .assign x value, _, _, .assign hx hvalue, σ => by
    obtain ⟨hτ, hhome⟩ := hN.of_lookup hx
    exact .store hτ hhome (value.typed_of_emits hN hP hvalue) σ
  | .call f args, _, _, .function hf hargs, σ => by
    obtain ⟨hnumber, hcallee, hplain⟩ := hN.of_lookup hf
    exact .call hplain (.call rfl (toInt_withNat hnumber) hcallee hplain) rfl
      (args.typed_of_emits hN hP hargs) σ
  | .call f args, _, _, .primitive hf hroutine hslot hargs, σ => by
    have hentry := getElem?_of_idxOf? hslot
    have hlimit := Nat.lt_trans (List.getElem?_eq_some_iff.1 hentry).1 hP.limit
    exact .call (Primitive.isPlain_signature _) (.callName rfl (toInt_withNat hlimit) (hP.routine hentry hroutine))
      rfl (args.typed_of_emits hN hP hargs) σ
  | .paren e, _, _, .paren he, σ => e.typed_of_emits hN hP he σ
  | .neg e, _, _, .negInt he, σ => by
    rw [plain_append]
    exact (e.typed_of_emits hN hP he σ).append (.fixed .negI rfl rfl σ)
  | .neg e, _, _, .negDouble he, σ => by
    rw [plain_append]
    exact (e.typed_of_emits hN hP he σ).append (.fixed .negF rfl rfl σ)
  | .binary op left right, _, _, .binary hcast hleft hright hop, σ => by
    rw [plain_append, plain_append]
    exact ((left.typed_of_emits hN hP hleft σ).append (right.typed_of_emits hN hP hright _)).append (.operation hop hcast σ)
  | .cast e target, _, _, .cast he hop, σ => by
    rw [plain_append]
    exact (e.typed_of_emits hN hP he σ).append (.conversion hop σ)

/-- The arguments of a call stand on the stack in their order, the last one topmost. -/
theorem Args.typed_of_emits (hN : N.Fits D) (hP : D.Pooled P) : ∀ (args : Args) {params code},
    args.Emits P N params code → ∀ σ, Typed D inLoop (plain code) σ (some (params.reverse.flatMap ValueType.kinds ++ σ))
  | .nil, _, _, .nil, σ => .nil σ
  | .cons first rest, _, _, .cons (τ := τ) hfirst hrest, σ => by
    have hmore := rest.typed_of_emits hN hP hrest (τ.kinds ++ σ)
    rw [plain_append, List.reverse_cons, List.flatMap_append, List.flatMap_singleton, List.append_assoc]
    exact (first.typed_of_emits hN hP hfirst σ).append hmore

end

/-- An expression has no value, or one slot. -/
theorem Expr.kinds_of_emits (hN : N.Fits D) : ∀ (e : Expr) {τ code}, e.Emits P N τ code →
    τ = .void ∨ ∃ k, τ.kinds = [k] ∧ k.IsValue
  | .int _, _, _, h | .text _ _, _, _, h => by
    cases h
    exact .inr ⟨.int, rfl, .inl rfl⟩
  | .double _, _, _, h => by
    cases h
    exact .inr ⟨.double, rfl, .inr (.inl rfl)⟩
  | .name _, _, _, h => by
    cases h with
    | name hx => exact .inr (hN.of_lookup hx).1.exists_value
  | .assign _ _, _, _, h => by
    cases h
    exact .inl rfl
  | .call _ _, _, _, h => by
    cases h with
    | function hf => exact (hN.of_lookup hf).2.2.2.imp_right ValueType.IsStored.exists_value
    | primitive => exact (Primitive.isPlain_signature _).2.imp_right ValueType.IsStored.exists_value
  | .paren e, _, _, h => by
    cases h with
    | paren he => exact e.kinds_of_emits hN he
  | .neg _, _, _, h => by
    cases h with
    | negInt => exact .inr ⟨.int, rfl, .inl rfl⟩
    | negDouble => exact .inr ⟨.double, rfl, .inr (.inl rfl)⟩
  | .binary _ _ _, _, _, h => by
    cases h with
    | binary hcast _ _ hop =>
      rcases Operator.code_ok hop hcast with ⟨_, _, -, h⟩ | ⟨-, h⟩
      · rcases Operator.arithmetic_ok h with ⟨-, -, -, rfl⟩ | ⟨-, -, -, rfl⟩
        · exact .inr ⟨.int, rfl, .inl rfl⟩
        · exact .inr ⟨.double, rfl, .inr (.inl rfl)⟩
      · obtain ⟨-, rfl⟩ := Operator.comparison_ok h
        exact .inr ⟨.bool, rfl, .inr (.inr rfl)⟩
  | .cast _ target, _, _, h => by
    cases h with
    | cast _ hop =>
      obtain ⟨rfl, -⟩ := Operator.cast_ok hop
      cases target with
      | int => exact .inr ⟨.int, rfl, .inl rfl⟩
      | double => exact .inr ⟨.double, rfl, .inr (.inl rfl)⟩
      | void => exact .inl rfl

/-! ## Statements -/

/-- From `n` on, the locals are those of these declarations. -/
structure Declared.Has (D : Declared) (n : Nat) (ds : List Declaration) : Prop where
  limit : D.locals.length < placeLimit
  types : ds.map (·.type.type) <+: D.locals.drop n

theorem prefix_drop_append {α : Type} {l ds more : List α} (h : ds ++ more <+: l.drop n) :
    ds <+: l.drop n ∧ more <+: l.drop (n + ds.length) := by
  obtain ⟨rest, hrest⟩ := h
  rw [List.append_assoc] at hrest
  refine ⟨⟨_, hrest⟩, rest, ?_⟩
  rw [← List.drop_drop, ← hrest, List.drop_left]

theorem Declared.Has.of_append {ds more : List Declaration} (h : D.Has n (ds ++ more)) :
    D.Has n ds ∧ D.Has (n + ds.length) more := by
  have htypes := h.types
  rw [List.map_append] at htypes
  obtain ⟨hds, hmore⟩ := prefix_drop_append htypes
  rw [List.length_map] at hmore
  exact ⟨⟨h.limit, hds⟩, h.limit, hmore⟩

theorem TypeName.isStored_type {type : TypeName} (h : type.type ≠ .void) : type.type.IsStored := by
  cases type with
  | int => exact .inl rfl
  | double => exact .inr rfl
  | void => exact absurd rfl h

theorem Declared.Has.fits_entry (h : D.Has n [d]) : (Home.local n).Fits D d.type.type := by
  obtain ⟨rest, hrest⟩ := h.types
  have hget := congrArg (·[0]?) hrest
  simp only [List.map_cons, List.map_nil, List.singleton_append, List.getElem?_cons_zero,
    List.getElem?_drop, Nat.add_zero] at hget
  have hlt := (List.getElem?_eq_some_iff.1 hget.symm).1
  exact ⟨Nat.lt_trans hlt h.limit, hget.symm⟩

theorem Scope.Fits.cons {entry : Bytes × Binding} (hentry : entry.2.Fits D) (hN : N.Fits D) : Scope.Fits D (entry :: N) :=
  List.forall_mem_cons.2 ⟨hentry, hN⟩

theorem Declaration.typed_of_emits {d : Declaration} {home : Home} {code : List Instruction} (hN : N.Fits D) (hP : D.Pooled P)
    (hhome : home.Fits D d.type.type) (h : d.Emits P N home code) : Typed D inLoop (plain code) [] (some []) := by
  cases h with
  | bare => exact .nil []
  | value htype hvalue he =>
    have hstored := TypeName.isStored_type htype
    have hentry : (d.entry home).2.Fits D := ⟨hstored, hhome⟩
    exact .store hstored hhome (Expr.typed_of_emits (hN.cons hentry) hP _ he) []

/-- What follows a statement: nothing, or an empty stack. -/
def Flow.after (f : Flow) : Option Shape := if f.leaves then none else some []

theorem Flow.after_cases (f : Flow) : f.after = none ∨ f.after = some [] := by
  unfold Flow.after
  split
  · exact .inl rfl
  · exact .inr rfl

/-- An `if` with an `else` leaves only if both branches do. -/
theorem Flow.after_both (f g : Flow) : (f.both g).after = some [] ∨ f.after = none ∧ g.after = (f.both g).after := by
  obtain ⟨fr, fb⟩ := f
  obtain ⟨gr, gb⟩ := g
  cases fr <;> cases fb <;> cases gr <;> cases gb <;> simp [Flow.both, Flow.after, Flow.leaves]

theorem Typed.of_after (h : Typed D inLoop items [] f.after) : Typed D inLoop items [] (some []) := by
  rcases f.after_cases with hf | hf <;> rw [hf] at h
  · exact h.weaken _
  · exact h

/-- An expression as a statement, whose value is dropped. -/
theorem Expr.typed_effect (hN : N.Fits D) (hP : D.Pooled P) (he : e.Emits P N τ code) :
    Typed D inLoop (plain (code ++ if τ = .void then [] else [{ op := .pop }])) [] (some []) := by
  have hcode : Typed D inLoop (plain code) [] (some (τ.kinds ++ [])) := e.typed_of_emits hN hP he []
  rw [plain_append]
  split
  · rename_i hτ
    subst hτ
    exact hcode.append (.nil [])
  · rename_i hτ
    obtain ⟨k, hk, hvalue⟩ := (e.kinds_of_emits hN he).resolve_left hτ
    rw [hk] at hcode
    exact hcode.append (.instr (.pop rfl hvalue) rfl [])

/-- A branch of an `if` with an `else`. -/
theorem Typed.both {body others : List Item} {k : Kind} {g : Flow} (hk : k.IsValue)
    (htest : Typed D inLoop (plain code) [] (some [k]))
    (hbody : Typed D inLoop body [] f.after) (hothers : Typed D inLoop others [] g.after) :
    Typed D inLoop (armItems (testCode code) body others) [] (f.both g).after := by
  rcases Flow.after_both f g with hafter | ⟨hf, hg⟩
  · rw [hafter]
    exact arm hk htest hbody.of_after hothers.of_after (.inr ⟨rfl, rfl⟩)
  · rw [← hg]
    exact arm hk htest hbody hothers (.inl hf)

theorem Declaration.Emits.type_ne (h : d.Emits P N home code) : d.type.type ≠ .void := by
  cases h with
  | bare htype => exact htype
  | value htype => exact htype

/-- The names that a statement adds are those of its declarations. -/
theorem Stmt.fits_scope {s : Stmt} {returns : ValueType} (h : s.Emits P returns inLoop N n items)
    (hhas : D.Has n s.locals) (hN : N.Fits D) :
    Scope.Fits D (s.scope n ++ N) := by
  cases h with
  | @declare _ _ _ d _ hd =>
    have hentry : (d.entry (.local n)).2.Fits D := ⟨TypeName.isStored_type hd.type_ne, hhas.fits_entry⟩
    exact hN.cons hentry
  | _ => exact hN

/-- A condition puts one value on the stack. -/
theorem Expr.typed_test (hN : N.Fits D) (hP : D.Pooled P) (he : e.Emits P N τ code) (hτ : τ ≠ .void) :
    ∃ k, k.IsValue ∧ ∀ inLoop, Typed D inLoop (plain code) [] (some [k]) := by
  obtain ⟨k, hk, hvalue⟩ := (e.kinds_of_emits hN he).resolve_left hτ
  refine ⟨k, hvalue, fun inLoop => ?_⟩
  rw [← hk, ← List.append_nil τ.kinds]
  exact e.typed_of_emits hN hP he []

variable {returns : ValueType}

/-- A statement leaves the stack empty, as it finds it. -/
theorem ItemLaw.typed (hP : D.Pooled P) (hentry : D.isEntry = false)
    (hreturns : returns ≠ .void → returns.IsStored ∧ (Home.argument 0).Fits D returns) :
    ItemLaw P returns fun inLoop N n ds f items => N.Fits D → D.Has n ds → Typed D inLoop items [] f.after where
  nil _ _ := .nil []
  cons hemits hfirst hrest hN hhas := by
    obtain ⟨hhas, hhas'⟩ := hhas.of_append
    have htyped := hfirst hN hhas
    have htyped' := hrest (Stmt.fits_scope hemits hhas hN) hhas'
    split
    · exact htyped
    · rename_i hleaves
      rw [Flow.after, if_neg hleaves] at htyped
      exact htyped.append htyped'
  declare hd hN hhas := Declaration.typed_of_emits hN hP hhas.fits_entry hd
  effect he hN _ := Expr.typed_effect hN hP he
  exit _ _ := .exit
  again _ _ := .again
  leave _ _ _ := .ret hentry
  result {_ _ _ _ value} hne hvalue hN _ := by
    obtain ⟨hstored, hhome⟩ := hreturns hne
    have hitems (code : List Instruction) : plain ({ op := .argA } :: code ++ [{ op := .store }, { op := .ret }]) =
        plain ((Home.argument 0).address :: code ++ [{ op := .store }]) ++
          [.instr { op := .ret }] := by simp [plain, Home.address]
    rw [hitems]
    exact (Typed.store hstored hhome (value.typed_of_emits hN hP hvalue) []).append (Typed.ret hentry)
  loop {_ _ _ _ _ _ f _ _} hcondition htype hbody hN hhas := by
    obtain ⟨k, hk, htest⟩ := Expr.typed_test hN hP hcondition htype
    exact .loop hk (htest false) (hbody hN hhas) f.after_cases
  arm hcondition htype hbody hothers hN hhas := by
    obtain ⟨hhas, hhas'⟩ := hhas.of_append
    obtain ⟨k, hk, htest⟩ := Expr.typed_test hN hP hcondition htype
    exact .both hk (htest _) (hbody hN hhas) (hothers hN hhas')

end

end OnePass

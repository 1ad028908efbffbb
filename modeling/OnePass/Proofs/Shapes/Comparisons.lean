import OnePass.Proofs.Emission.Outputs

/-!
# Comparisons in one piece

A comparison is compiled to an operation that leaves an order, and up to two that make a truth value out of it. These stand right
behind it, and nowhere else (`Source.Makes.settled_code`).
-/

namespace OnePass

namespace Opcode

/-- The operation makes a truth value out of an order. -/
def isTest : Opcode → Bool
  | not | setLt | setGt => true
  | _ => false

/-- The operation leaves an order, or what a test can still turn around. -/
def isOrder : Opcode → Bool
  | cmpI | cmpF | setLt | setGt => true
  | _ => false

end Opcode

/-- After this operation, every test among these stands right behind what it tests. -/
def TestsFollow : Opcode → List Opcode → Prop
  | _, [] => True
  | previous, op :: ops => (op.isTest = true → previous.isOrder = true) ∧ TestsFollow op ops

/-- The same after any operation. -/
def Settled (ops : List Opcode) : Prop := ∀ previous, TestsFollow previous ops

namespace Settled

theorem nil : Settled [] := fun _ => trivial

theorem append {ops more : List Opcode} (h : Settled ops) (h' : Settled more) : Settled (ops ++ more) := by
  intro previous
  have hfollow := h previous
  clear h
  induction ops generalizing previous with
  | nil => exact h' previous
  | cons op ops ih => exact ⟨hfollow.1, ih op hfollow.2⟩

theorem one {op : Opcode} (hop : op.isTest = false) : Settled [op] := fun _ => ⟨fun h => by simp [hop] at h, trivial⟩

theorem cons {op : Opcode} {ops : List Opcode} (hop : op.isTest = false) (h : Settled ops) :
    Settled (op :: ops) := (one hop).append h

theorem exists_order {ops : List Opcode} (h : Settled ops) {n : Nat} {op : Opcode} (hop : ops[n]? = some op)
    (htest : op.isTest = true) :
    ∃ m order, n = m + 1 ∧ ops[m]? = some order ∧ order.isOrder = true := by
  -- a first operation may stand behind anything, so it is no test
  have hgeneral : ∀ (ops : List Opcode) (previous : Opcode) (n : Nat), TestsFollow previous ops → ops[n]? = some op →
      ∃ order, (previous :: ops)[n]? = some order ∧ order.isOrder = true := by
    intro ops
    induction ops with
    | nil => nofun
    | cons first ops ih =>
      intro previous n hfollow hop
      cases n with
      | zero =>
        cases hop
        exact ⟨previous, rfl, hfollow.1 htest⟩
      | succ n => exact ih first n hfollow.2 hop
  obtain ⟨order, horder, hisOrder⟩ := hgeneral ops .nop n (h .nop) hop
  cases n with
  | zero =>
    cases horder
    cases hisOrder
  | succ n => exact ⟨n, order, rfl, horder, hisOrder⟩

end Settled

/-- The operations of instructions. -/
def opsOf (code : List Instruction) : List Opcode := code.map Instruction.op

@[simp] theorem opsOf_append (code more : List Instruction) :
    opsOf (code ++ more) = opsOf code ++ opsOf more := List.map_append ..

/-- The operation of an item. -/
def Item.op : Item → Opcode
  | instr i => i.op
  | exit | again => .br

theorem Item.op_close (item : Item) (first stop place : Nat) : (item.close first stop place).op = item.op := by
  cases item <;> rfl

theorem map_op_plain (code : List Instruction) : (plain code).map Item.op = opsOf code := by
  simp [plain, opsOf, Item.op]

theorem opsOf_mapIdx_close (items : List Item) (first stop : Nat) :
    opsOf (items.mapIdx (Item.close first stop)) = items.map Item.op := by
  refine List.ext_getElem? fun j => ?_
  rw [opsOf, List.getElem?_map, List.getElem?_mapIdx, List.getElem?_map, Option.map_map]
  congr 1
  exact funext fun item => item.op_close first stop j

section

variable {P : List PoolEntry}

theorem Operator.settled_code {op : Operator} {τ1 τ2 τ : ValueType} {code : List Instruction}
    (h : op.code τ1 τ2 = .ok (code, τ)) :
    Settled (opsOf code) := by
  intro previous
  cases op <;> cases τ1 <;> cases τ2 <;> cases h <;> simp [opsOf, TestsFollow, Opcode.isTest, Opcode.isOrder]

theorem Home.settled_address (home : Home) : Settled [home.address.op] := by
  cases home <;> exact .one rfl

theorem CodeLaw.settled (N : Scope) : CodeLaw P N fun code => Settled (opsOf code) where
  nil := .nil
  append hcode hmore := by
    rw [opsOf_append]
    exact hcode.append hmore
  push _ := .one rfl
  address _ := Home.settled_address _
  load := .one rfl
  store := .one rfl
  stackAlloc _ := .one rfl
  call _ := .one rfl
  callName _ := .one rfl
  negInt := .one rfl
  negDouble := .one rfl
  operation hop := Operator.settled_code hop

variable {returns : ValueType}

theorem Settled.testCode {code : List Instruction} (h : Settled (opsOf code)) :
    Settled ((plain (testCode code)).map Item.op) := by
  rw [map_op_plain, OnePass.testCode, opsOf_append]
  exact h.append (.one rfl)

theorem ItemLaw.settled : ItemLaw P returns fun _ _ _ _ _ items => Settled (items.map Item.op) where
  nil := .nil
  cons _ hfirst hrest := by
    split
    · exact hfirst
    · rw [List.map_append]
      exact hfirst.append hrest
  declare hd := by
    rw [map_op_plain]
    exact (CodeLaw.settled _).declaration hd
  effect he := by
    rw [map_op_plain, opsOf_append]
    refine ((CodeLaw.settled _).expr _ he).append ?_
    split
    · exact .nil
    · exact .one rfl
  exit := .one rfl
  again := .one rfl
  leave _ := .one rfl
  result _ hvalue := by
    rw [map_op_plain, List.cons_append, opsOf, List.map_cons, ← opsOf, opsOf_append]
    exact Settled.cons rfl (((CodeLaw.settled _).expr _ hvalue).append (Settled.cons rfl (Settled.one rfl)))
  loop hcondition _ hbody := by
    rw [map_op_plain, closedLoop, opsOf_mapIdx_close, loopItems, List.map_append, List.map_cons, List.map_append]
    refine (Settled.testCode ((CodeLaw.settled _).expr _ hcondition)).append (Settled.cons rfl (hbody.append ?_))
    split
    · exact .nil
    · exact .one rfl
  arm hcondition _ hbody hothers := by
    rw [armItems, armHead, List.map_append, List.map_append, List.map_cons, List.map_cons]
    have htest := Settled.testCode ((CodeLaw.settled _).expr _ hcondition)
    exact (htest.append (.cons rfl hbody)).append (.cons rfl hothers)

/-- In every function, what makes a truth value out of an order stands right behind the comparison. -/
theorem Source.Makes.settled_code {A : Source} {p : Program} (h : A.Makes P p) {k : Nat} {f : Function}
    (hf : p.functions[k]? = some f) :
    Settled (opsOf f.code.toList) := by
  refine h.law_code (T := fun code => Settled (opsOf code)) CodeLaw.settled (fun _ => .one rfl) (.one rfl) (fun hbody => ?_) hf
  rw [opsOf_mapIdx_close]
  exact ItemLaw.settled.block _ hbody

end

end OnePass

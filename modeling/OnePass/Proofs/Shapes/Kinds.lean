import OnePass.Proofs.Emission.Laws

/-!
# Shapes of the operand stack

Every slot of the operand stack is of a kind, and the kinds in a place of a function, the topmost first, are the shape there. What
an instruction takes off the stack and puts on it is a matter of rules (`Instruction.Acts`), which refer to the types that a
program declares for its globals, functions, parameters and locals (`Declared`). Code is typed by giving a shape to its places
such that every instruction finds what it takes and all ways into a place agree (`Typed`).
-/

namespace OnePass

/-- The kind of a slot of the operand stack. -/
inductive Kind where
  | int
  | double
  /-- What a comparison gives. -/
  | bool
  | intAddress
  | doubleAddress
  deriving DecidableEq, Repr

/-- The kinds on the operand stack, the topmost first. -/
abbrev Shape := List Kind

namespace Kind

/-- A number, as variables hold. -/
def IsNumber (k : Kind) : Prop := k = int ∨ k = double

/-- No address. -/
def IsValue (k : Kind) : Prop := k = int ∨ k = double ∨ k = bool

/-- The kind of the addresses of variables that hold this kind. -/
def Locates (address k : Kind) : Prop := address = intAddress ∧ k = int ∨ address = doubleAddress ∧ k = double

end Kind

namespace ValueType

/-- The slots of a value of the type. -/
def kinds : ValueType → Shape
  | int => [.int]
  | double => [.double]
  | bool => [.bool]
  | void | foreign _ => []

/-- The kind of the addresses of variables of the type. -/
def addressKind? : ValueType → Option Kind
  | int => some .intAddress
  | double => some .doubleAddress
  | _ => none

/-- The type is that of variables. -/
def IsStored (τ : ValueType) : Prop := τ = int ∨ τ = double

/-- The type can be declared for what a function returns. -/
def IsReturned (τ : ValueType) : Prop := τ = void ∨ τ.IsStored

end ValueType

namespace Signature

/-- What a call finds on the stack: the arguments, the last one topmost, above the slot for the result. -/
def takes (s : Signature) : Shape := s.params.reverse.flatMap ValueType.kinds ++ s.returns.kinds

/-- What a call leaves on the stack. -/
def gives (s : Signature) : Shape := s.returns.kinds

/-- The types are those that a function can declare. -/
def IsPlain (s : Signature) : Prop := (∀ τ ∈ s.params, τ.IsStored) ∧ s.returns.IsReturned

/-- The types of the argument slots, that for the result first. -/
def arguments (s : Signature) : List ValueType := (if s.returns = .void then [] else [s.returns]) ++ s.params

end Signature

/-- What the operands of a function's instructions stand for. -/
structure Declared where
  /-- The type of the variable that has a global slot. -/
  global : Nat → Option ValueType
  /-- The signature of the function with a number. -/
  callee : Nat → Option Signature
  /-- The primitive whose name is in a global. -/
  routine : Nat → Option Primitive
  arguments : List ValueType
  locals : List ValueType
  /-- The code is that of the entry routine, which nothing has called. -/
  isEntry : Bool

/-- What an operation that needs no declaration takes and gives. -/
def Opcode.effect? : Opcode → Option (Shape × Shape)
  | addI | subI | mulI | divI => some ([.int, .int], [.int])
  | addF | subF | mulF | divF => some ([.double, .double], [.double])
  | cmpI => some ([.int, .int], [.bool])
  | cmpF => some ([.double, .double], [.bool])
  | not | setLt | setGt => some ([.bool], [.bool])
  | negI => some ([.int], [.int])
  | negF => some ([.double], [.double])
  | iToF => some ([.int], [.double])
  | fToI => some ([.double], [.int])
  | br => some ([], [])
  | _ => none

/-- The instruction takes these kinds off the stack and gives those. -/
inductive Instruction.Acts (D : Declared) (i : Instruction) : Shape → Shape → Prop where
  | fixed {takes gives : Shape} (h : i.op.effect? = some (takes, gives)) : Acts D i takes gives
  | push {k : Kind} (hop : i.op = .push) (hk : k.IsNumber) : Acts D i [] [k]
  | pop {k : Kind} (hop : i.op = .pop) (hk : k.IsValue) : Acts D i [k] []
  | brTrue {k : Kind} (hop : i.op = .brTrue) (hk : k.IsValue) : Acts D i [k] []
  | ret (hop : i.op = .ret) (hentry : D.isEntry = false) : Acts D i [] []
  | popN {ks : Shape} (hop : i.op = .popN) (hn : i.operand.toInt = ks.length) (hks : ∀ k ∈ ks, k.IsNumber) : Acts D i ks []
  | stackAlloc {ks : Shape} (hop : i.op = .stackAlloc) (hn : i.operand.toInt = ks.length) (hks : ∀ k ∈ ks, k.IsNumber) :
      Acts D i [] ks
  | locA {n : Nat} {τ : ValueType} {a : Kind} (hop : i.op = .locA) (hn : i.operand.toInt = n) (hτ : D.locals[n]? = some τ)
    (ha : τ.addressKind? = some a) : Acts D i [] [a]
  | argA {n : Nat} {τ : ValueType} {a : Kind} (hop : i.op = .argA) (hn : i.operand.toInt = n) (hτ : D.arguments[n]? = some τ)
    (ha : τ.addressKind? = some a) : Acts D i [] [a]
  | globA {n : Nat} {τ : ValueType} {a : Kind} (hop : i.op = .globA) (hn : i.operand.toInt = n) (hτ : D.global n = some τ)
    (ha : τ.addressKind? = some a) : Acts D i [] [a]
  | load {a k : Kind} (hop : i.op = .load) (ha : a.Locates k) : Acts D i [a] [k]
  | store {a k : Kind} (hop : i.op = .store) (ha : a.Locates k) : Acts D i [k, a] []
  | call {n : Nat} {s : Signature} (hop : i.op = .call) (hn : i.operand.toInt = n) (hs : D.callee n = some s)
      (hplain : s.IsPlain) :
    Acts D i s.takes s.gives
  | callName {n : Nat} {primitive : Primitive} (hop : i.op = .callName) (hn : i.operand.toInt = n)
      (hp : D.routine n = some primitive) :
    Acts D i primitive.signature.takes primitive.signature.gives

theorem ValueType.IsStored.bool_notMem {τ : ValueType} (h : τ.IsStored) : .bool ∉ τ.kinds := by
  rcases h with rfl | rfl <;> decide

theorem Signature.IsPlain.bool_notMem {s : Signature} (h : s.IsPlain) : .bool ∉ s.takes := by
  intro hb
  rcases List.mem_append.1 hb with hb | hb
  · obtain ⟨τ, hτ, hb⟩ := List.mem_flatMap.1 hb
    exact (h.1 τ (List.mem_reverse.1 hτ)).bool_notMem hb
  · rcases h.2 with hreturns | hreturns
    · rw [hreturns] at hb
      cases hb
    · exact hreturns.bool_notMem hb

theorem Primitive.isPlain_signature (primitive : Primitive) : primitive.signature.IsPlain := by
  cases primitive <;> simp [Primitive.signature, Signature.IsPlain, ValueType.IsReturned, ValueType.IsStored]

/-- A truth value is taken by a branch, by `pop`, and by what makes it out of an order; nothing else does. -/
theorem Instruction.Acts.op_of_bool_mem {D : Declared} {i : Instruction} {takes gives : Shape} (h : i.Acts D takes gives)
    (hb : .bool ∈ takes) : i.op ∈ [.brTrue, .pop, .not, .setLt, .setGt] := by
  have hnumber {k : Kind} (hk : k.IsNumber) : k ≠ .bool := by rcases hk with rfl | rfl <;> nofun
  cases h with
  | fixed h =>
    cases hop : i.op <;> rw [hop] at h <;> cases h <;> simp at hb ⊢
  | push | ret | stackAlloc | locA | argA | globA => cases hb
  | pop hop | brTrue hop => simp [hop]
  | popN hop hn hks => exact absurd rfl (hnumber (hks _ hb))
  | load hop ha => rcases ha with ⟨rfl, rfl⟩ | ⟨rfl, rfl⟩ <;> simp at hb
  | store hop ha => rcases ha with ⟨rfl, rfl⟩ | ⟨rfl, rfl⟩ <;> simp at hb
  | call hop hn hs hplain => exact absurd hb hplain.bool_notMem
  | callName hop hn hp => exact absurd hb (Primitive.isPlain_signature _).bool_notMem

/-- A comparison gives a truth value. -/
theorem Instruction.Acts.gives_of_cmp {D : Declared} {i : Instruction} {takes gives : Shape} (h : i.Acts D takes gives)
    (hop : i.op = .cmpI ∨ i.op = .cmpF) : gives = [.bool] := by
  rcases hop with hop | hop <;> cases h <;> simp_all [Opcode.effect?]

/-- One place of a function's code may be followed by another. -/
def Instruction.Goes (i : Instruction) (place next : Nat) : Prop :=
  match i.op with
  | .br => (next : Int) = place + 1 + i.operand.toInt
  | .brTrue | .brFalse => next = place + 1 ∨ (next : Int) = place + 1 + i.operand.toInt
  | .ret | .abort => False
  | _ => next = place + 1

/-- The places that can be reached in a function. -/
inductive Function.Reaches (f : Function) : Nat → Prop where
  | start : Reaches f 0
  | go {place next : Nat} {i : Instruction} (hplace : Reaches f place) (hi : f.code[place]? = some i) (hgo : i.Goes place next) :
    Reaches f next

end OnePass

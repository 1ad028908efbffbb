import OnePass.Diagnostic
import OnePass.Code.Instruction

/-!
# Pending operators

An expression is compiled with two stacks: operators that wait for their right operand to be complete, and the types of the
operands so far. Applying the top operator takes it with its two operands off the stacks, emits its code and puts the type of its
result back. The right operand of a cast is the target type.
-/

namespace OnePass

/-- The code that casts a value, and its type then. -/
def castCode (source target : ValueType) : Except Fault (List Instruction × ValueType) :=
  if source.isNumeric && target.isNumeric then
    match source, target with
    | .int, .double => .ok ([{ op := .iToF }], target)
    | .double, .int => .ok ([{ op := .fToI }], target)
    | _, _ => .ok ([], target)
  else .error (.casted source target)

namespace Operator

/-- The code of an arithmetic operator that has one operation for integers and one for doubles. -/
def arithmetic (op : Operator) (onInt onDouble : Opcode) (left right : ValueType) :
    Except Fault (List Instruction × ValueType) :=
  if left.isNumeric && left == right then .ok ([{ op := if left = .int then onInt else onDouble }], left)
  else .error (.combined op left right)

/-- The code of a comparison, which leaves -1, 0 or 1, and then the operations that make it a truth value. -/
def comparison (op : Operator) (tests : List Opcode) (left right : ValueType) :
    Except Fault (List Instruction × ValueType) :=
  if left.isNumeric && left == right then
    .ok ({ op := if left = .int then .cmpI else .cmpF } :: tests.map fun op => { op }, .bool)
  else .error (.combined op left right)

/-- The code of an operator on operands of these types, and the type of its result. -/
def code (op : Operator) (left right : ValueType) : Except Fault (List Instruction × ValueType) :=
  match op with
  | cast => castCode left right
  | add => op.arithmetic .addI .addF left right
  | sub => op.arithmetic .subI .subF left right
  | mul => op.arithmetic .mulI .mulF left right
  | div => op.arithmetic .divI .divF left right
  | gt => op.comparison [.setGt] left right
  | lt => op.comparison [.setLt] left right
  | ge => op.comparison [.setLt, .not] left right
  | le => op.comparison [.setGt, .not] left right
  | eq => op.comparison [.not] left right
  | ne => op.comparison [] left right

end Operator

/-- A waiting operator and where it stands. -/
structure Waiting where
  op : Operator
  pos : Pos
  deriving DecidableEq, Repr

/-- The two stacks of an expression, the top of each first. -/
structure Pending where
  ops : List Waiting := []
  types : List ValueType := []
  deriving DecidableEq, Repr

namespace Pending

/-- The stacks after the first operand. -/
def single (type : ValueType) : Pending := ⟨[], [type]⟩

/-- An operator and its right operand join the stacks. -/
def shift (p : Pending) (op : Operator) (pos : Pos) (type : ValueType) : Pending := ⟨⟨op, pos⟩ :: p.ops, type :: p.types⟩

/-- What applying an operator to the operands on the stack comes to. -/
structure Outcome where
  /-- The operands that are left, the result among them if there is one. -/
  types : List ValueType
  result : Except Diagnostic (List Instruction)

/-- Applies an operator that is off its stack to the two topmost operands. A fault still uses them up. -/
def apply (w : Waiting) : List ValueType → Outcome
  | right :: left :: types =>
    match w.op.code left right with
    | .ok (code, type) => ⟨type :: types, .ok code⟩
    | .error fault => ⟨types, .error ⟨w.pos, fault⟩⟩
  | types => ⟨types, .error ⟨w.pos, .missingOperand w.op⟩⟩

/-- Applies waiting operators from the top as long as they are due. Gives the stacks then, and the code in order. -/
def applyWhile (due : Operator → Bool) : List Waiting → List ValueType → Except Diagnostic (Pending × List Instruction)
  | [], types => .ok (⟨[], types⟩, [])
  | w :: ops, types =>
    if due w.op then
      match (apply w types).result with
      | .ok code => do
        let (pending, more) ← applyWhile due ops (apply w types).types
        return (pending, code ++ more)
      | .error d => .error d
    else .ok (⟨w :: ops, types⟩, [])

/-- Applies the operators that yield to the next one. -/
def makeWayFor (p : Pending) (next : Operator) : Except Diagnostic (Pending × List Instruction) :=
  applyWhile (·.yieldsTo next) p.ops p.types

/-- Applies all operators. -/
def finish (p : Pending) : Except Diagnostic (Pending × List Instruction) := applyWhile (fun _ => true) p.ops p.types

/-- What has become of the stacks after applying operators one by one: how the last one failed, if it did. -/
structure Progress where
  pending : Pending
  code : List Instruction
  fault : Option Diagnostic := none

/-- Applies the topmost `n` operators, up to the first fault; none if there are not so many. -/
def applyTop (code : List Instruction) : Nat → Pending → Option Progress
  | 0, p => some ⟨p, code, none⟩
  | _ + 1, ⟨[], _⟩ => none
  | n + 1, ⟨w :: ops, types⟩ =>
    match (apply w types).result with
    | .ok more => applyTop (code ++ more) n ⟨ops, (apply w types).types⟩
    | .error d => some ⟨⟨ops, (apply w types).types⟩, code, some d⟩

end Pending

end OnePass

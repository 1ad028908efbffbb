import OnePass.Code.Opcode

/-!
# Instructions

An instruction is an operation with its operand. A function marker carries the header of the function that it starts.
-/

namespace OnePass

/-- What a function needs of its caller and its frame. -/
structure Header where
  /-- The global that holds the function's name. -/
  slot : UInt32 := 0
  returns : UInt32 := 0
  params : UInt32 := 0
  locals : UInt32 := 0
  deriving DecidableEq, Repr, Inhabited

/-- An instruction. The operand is zero where the operation has none; the header is that of a marker. -/
structure Instruction where
  op : Opcode
  operand : Int64 := 0
  header : Option Header := none
  deriving DecidableEq, Repr, Inhabited

namespace Instruction

/-- An instruction with a natural number for its operand. -/
def withNat (op : Opcode) (operand : Nat) : Instruction := { op, operand := Int64.ofNat operand }

/-- The marker that starts a function. -/
def start (header : Header) : Instruction := { op := .marker, header := some header }

/-- The instruction as a line of a listing. -/
def text (i : Instruction) : Bytes :=
  match i.op, i.header with
  | .marker, some h =>
    Bytes.ofString ".func [" ++ Bytes.ofNat h.slot.toNat ++ Bytes.ofString "] " ++ Bytes.ofNat h.locals.toNat ++
      Bytes.ofString " " ++ Bytes.ofNat h.params.toNat ++ Bytes.ofString " -> " ++ Bytes.ofNat h.returns.toNat
  | op, _ => if op.hasOperand then op.name ++ 0x20 :: Bytes.ofInt i.operand.toInt else op.name

end Instruction

end OnePass

import OnePass.Text.Bytes

/-!
# Opcodes

The operations of the stack machine, their bytes and names. A byte that is none of theirs is kept as it is, so that code from
outside can be shown and refused.
-/

namespace OnePass

/-- An operation of the machine. -/
inductive Opcode where
  | nop
  /-- Pushes its operand. -/
  | push
  | pop
  | popN
  | dup
  /-- Pushes the address of a local slot. -/
  | locA
  /-- Pushes the address of an argument slot, return slots first. -/
  | argA
  /-- Pushes the address of a global. -/
  | globA
  | load
  | store
  | stackAlloc
  | addI
  | subI
  | mulI
  | divI
  | addF
  | subF
  | mulF
  | divF
  | not
  | cmpI
  | cmpF
  | negI
  | negF
  | iToF
  | fToI
  | setLt
  | setGt
  /-- Branches relative to the next instruction. -/
  | br
  | brFalse
  | brTrue
  /-- Calls a function by its place in the function table. -/
  | call
  | ret
  /-- Calls a primitive by the global that holds its name. -/
  | callName
  | abort
  /-- Marks the start of a function in an instruction stream; no machine runs it and no binary holds it. -/
  | marker
  /-- A byte that stands for no operation. -/
  | unassigned (byte : UInt8)
  deriving DecidableEq, Repr, Inhabited

namespace Opcode

/-- The operations, in the order of their bytes. -/
def all : List Opcode :=
  [nop, push, pop, popN, dup, locA, argA, globA, load, store, stackAlloc, addI, subI, mulI, divI, addF, subF, mulF, divF, not,
    cmpI, cmpF, negI, negF, iToF, fToI, setLt, setGt, br, brFalse, brTrue, call, ret, callName, abort, marker]

/-- The byte of an operation. -/
def toByte : Opcode → UInt8
  | nop => 0x00
  | push => 0x01
  | pop => 0x02
  | popN => 0x03
  | dup => 0x04
  | locA => 0x0a
  | argA => 0x0b
  | globA => 0x0c
  | load => 0x13
  | store => 0x17
  | stackAlloc => 0x1a
  | addI => 0x20
  | subI => 0x21
  | mulI => 0x22
  | divI => 0x23
  | addF => 0x24
  | subF => 0x25
  | mulF => 0x26
  | divF => 0x27
  | not => 0x2e
  | cmpI => 0x30
  | cmpF => 0x32
  | negI => 0x34
  | negF => 0x35
  | iToF => 0x36
  | fToI => 0x37
  | setLt => 0x39
  | setGt => 0x3a
  | br => 0x41
  | brFalse => 0x42
  | brTrue => 0x43
  | call => 0x48
  | ret => 0x49
  | callName => 0x4a
  | abort => 0xfe
  | marker => 0xff
  | unassigned byte => byte

/-- The operation of a byte. -/
def ofByte (byte : UInt8) : Opcode := (all.find? (·.toByte = byte)).getD (unassigned byte)

/-- The name of an operation. -/
def name : Opcode → Bytes
  | nop => Bytes.ofString "nop"
  | push => Bytes.ofString "push"
  | pop => Bytes.ofString "pop"
  | popN => Bytes.ofString "popn"
  | dup => Bytes.ofString "dup"
  | locA => Bytes.ofString "loca"
  | argA => Bytes.ofString "arga"
  | globA => Bytes.ofString "globa"
  | load => Bytes.ofString "load.64"
  | store => Bytes.ofString "store.64"
  | stackAlloc => Bytes.ofString "stackalloc"
  | addI => Bytes.ofString "add.i"
  | subI => Bytes.ofString "sub.i"
  | mulI => Bytes.ofString "mul.i"
  | divI => Bytes.ofString "div.i"
  | addF => Bytes.ofString "add.f"
  | subF => Bytes.ofString "sub.f"
  | mulF => Bytes.ofString "mul.f"
  | divF => Bytes.ofString "div.f"
  | not => Bytes.ofString "not"
  | cmpI => Bytes.ofString "cmp.i"
  | cmpF => Bytes.ofString "cmp.f"
  | negI => Bytes.ofString "neg.i"
  | negF => Bytes.ofString "neg.f"
  | iToF => Bytes.ofString "itof"
  | fToI => Bytes.ofString "ftoi"
  | setLt => Bytes.ofString "set.lt"
  | setGt => Bytes.ofString "set.gt"
  | br => Bytes.ofString "br"
  | brFalse => Bytes.ofString "br.false"
  | brTrue => Bytes.ofString "br.true"
  | call => Bytes.ofString "call"
  | ret => Bytes.ofString "ret"
  | callName => Bytes.ofString "callname"
  | abort => Bytes.ofString "panic"
  | marker => Bytes.ofString ".func"
  | unassigned byte => Bytes.ofString "Opcode(0x" ++ Bytes.ofNatHex 2 byte.toNat ++ Bytes.ofString ")"

/-- The operation may stand in the body of an encoded function. -/
def isEncodable : Opcode → Bool
  | marker | unassigned _ => false
  | _ => true

/-- How many bytes the operand takes in a binary. -/
def operandWidth : Opcode → Nat
  | push => 8
  | popN | locA | argA | globA | stackAlloc | br | brFalse | brTrue | call | callName => 4
  | _ => 0

/-- The operation carries an operand. -/
def hasOperand (op : Opcode) : Bool := 0 < op.operandWidth

/-- Reading the byte of an operation gives the operation back. -/
theorem ofByte_toByte {op : Opcode} (h : op ∈ all) : ofByte op.toByte = op := by
  revert h
  cases op <;> simp [all] <;> rfl

end Opcode

end OnePass

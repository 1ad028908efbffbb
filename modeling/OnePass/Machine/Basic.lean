import OnePass.Code.Program
import OnePass.Machine.Console
import OnePass.Primitive

/-!
# The machine

The machine runs a program on a stack of 64-bit slots. A slot is an integer, a double or an address; an address has its region in
the top two bits, a global or a place on the stack. Each call has a frame, whose arguments start with the slots for the return
value.
-/

namespace OnePass

/-- The number of slots of the stack. -/
def stackSize : Nat := 65536

/-- An activation of a function. -/
structure Frame where
  /-- The place of the function in the function table. -/
  function : Nat
  /-- The next instruction. -/
  pc : Nat := 0
  /-- The first argument slot, which is the return slot if there is one. -/
  argBase : Nat := 0
  localBase : Nat := 0
  deriving DecidableEq, Repr, Inhabited

/-- A machine at work. -/
structure Machine where
  program : Program
  globals : Array UInt64
  stack : Vector UInt64 stackSize
  /-- The number of slots in use. -/
  sp : Nat
  /-- The active calls, the innermost first. -/
  frames : List Frame
  halted : Bool := false
  /-- The steps that runs have counted. -/
  steps : Nat := 0
  console : Console := {}

/-- Why an instruction fails. -/
inductive MachineFault where
  | stackOverflow
  | stackUnderflow
  | badAddress (address : UInt64)
  | noFunction (operand : Int)
  | noLocal (operand : Int)
  | noArgument (operand : Int)
  | noGlobal (operand : Int)
  | badBranch (target : Int)
  | noName (operand : Int)
  | noText (index : UInt64)
  | notExecutable (op : Opcode)
  | divideByZero
  | unknownPrimitive (name : Bytes)
  | fellOffEnd (function : Nat)
  | aborted
  | input (primitive : Primitive) (error : InputError)
  /-- A slot beyond the end of the stack is touched, which only a stack pointer that started out there can do. -/
  | beyondStack
  deriving DecidableEq, Repr

namespace MachineFault

/-- The class of a fault, in words; a fault of the input has none, nor has the machine's own breakdown. -/
def reason? : MachineFault → Option Bytes
  | stackOverflow => some (Bytes.ofString "stack overflow")
  | stackUnderflow => some (Bytes.ofString "stack underflow")
  | badAddress _ => some (Bytes.ofString "bad address")
  | noFunction _ | noLocal _ | noArgument _ | noGlobal _ | badBranch _ | noName _ | noText _ | notExecutable _ =>
    some (Bytes.ofString "operand out of range")
  | divideByZero => some (Bytes.ofString "integer divide by zero")
  | unknownPrimitive _ => some (Bytes.ofString "unknown primitive")
  | fellOffEnd _ => some (Bytes.ofString "function ran past its last instruction")
  | aborted => some (Bytes.ofString "panic instruction")
  | input .. | beyondStack => none

/-- What exactly is at fault. -/
def detail : MachineFault → Bytes
  | badAddress address => Bytes.ofString ": 0x" ++ Bytes.ofNatHex 1 address.toNat
  | noFunction operand => Bytes.ofString ": call " ++ Bytes.ofInt operand
  | noLocal operand => Bytes.ofString ": loca " ++ Bytes.ofInt operand
  | noArgument operand => Bytes.ofString ": arga " ++ Bytes.ofInt operand
  | noGlobal operand => Bytes.ofString ": globa " ++ Bytes.ofInt operand
  | badBranch target => Bytes.ofString ": branch to " ++ Bytes.ofInt target
  | noName operand => Bytes.ofString ": callname " ++ Bytes.ofInt operand
  | noText index => Bytes.ofString ": putstr of global " ++ Bytes.ofNat index.toNat
  | notExecutable op => Bytes.ofString ": cannot execute " ++ op.name
  | unknownPrimitive name => Bytes.ofString ": " ++ Text.quote name
  | fellOffEnd function => Bytes.ofString ": function " ++ Bytes.ofNat function
  | input primitive error => primitive.name ++ Bytes.ofString ": " ++ error.message
  | _ => []

/-- The wording of a fault. -/
def message (f : MachineFault) : Bytes := f.reason?.getD [] ++ f.detail

end MachineFault

namespace Machine

/-- A machine about to run the entry routine of a program, which is function 0; a program without functions is at its end. -/
def start (program : Program) (input : Bytes) : Machine :=
  { program
    globals := Array.replicate program.globals.size 0
    stack := Vector.replicate stackSize 0
    sp := (program.functions[0]?.map fun f => f.header.locals.toNat).getD 0
    frames := if program.functions.isEmpty then [] else [{ function := 0 }]
    halted := program.functions.isEmpty
    console := { input } }

/-- The number of slots in use. -/
def depth (m : Machine) : Nat := m.sp

/-- The topmost slot in use, if the stack reaches that far. -/
def top? (m : Machine) : Option UInt64 := if m.sp = 0 then none else m.stack[m.sp - 1]?

end Machine

/-! ## Addresses -/

namespace Address

/-- Addresses of globals. -/
def globalRegion : UInt64 := 0x4000000000000000

/-- Addresses of stack slots. -/
def stackRegion : UInt64 := 0x8000000000000000

/-- The bits of an address below its region. -/
def indexMask : UInt64 := 0x3fffffffffffffff

/-- The place of an address in its region. -/
def index (a : UInt64) : Nat := (a &&& indexMask).toNat

/-- The region of an address. -/
def region (a : UInt64) : UInt64 := a &&& ~~~indexMask

/-- The address of a global. -/
def ofGlobal (n : Nat) : UInt64 := globalRegion ||| UInt64.ofNat n

/-- The address of a stack slot. -/
def ofStack (n : Nat) : UInt64 := stackRegion ||| UInt64.ofNat n

end Address

end OnePass

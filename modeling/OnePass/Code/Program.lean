import OnePass.Code.Stream

/-!
# Programs

A program is a pool of globals and a table of functions. The compiler writes all functions into one stream, each after its
marker; `splitFunctions` cuts it into the table.
-/

namespace OnePass

/-- A global of the pool. Without a value it is a zeroed slot; names and literals have their bytes as value. -/
structure Global where
  const : Bool := false
  value : Option Bytes := none
  /-- The declared name of a variable, which no binary keeps. -/
  name : Bytes := []
  deriving DecidableEq, Repr, Inhabited

/-- The size of a slot in bytes. -/
def slotSize : Nat := 8

/-- The bytes that a binary holds for a global. -/
def Global.payload (g : Global) : Bytes := g.value.getD (List.replicate slotSize 0)

/-- A function of the table. -/
structure Function where
  header : Header
  code : Array Instruction := #[]
  deriving DecidableEq, Repr, Inhabited

/-- A program. -/
structure Program where
  globals : Array Global := #[]
  functions : Array Function := #[]
  deriving DecidableEq, Repr, Inhabited

/-- The name of a function: the value of the global its header points to, empty if there is none. -/
def Program.functionName (p : Program) (f : Function) : Bytes := (p.globals[f.header.slot.toNat]? >>= (·.value)).getD []

/-- Why a stream is no sequence of functions. -/
inductive SplitError where
  | noHeader (place : Nat)
  | outside (op : Opcode) (place : Nat)
  deriving DecidableEq, Repr

namespace SplitError

/-- The words for an instruction before the first marker. -/
def outsideReason : Bytes := Bytes.ofString "instruction outside of any function"

/-- The wording of the error. -/
def message : SplitError → Bytes
  | noHeader place => Bytes.ofString "function marker at " ++ Bytes.ofNat place ++ Bytes.ofString " has no header"
  | outside op place => outsideReason ++ Bytes.ofString ": " ++ op.name ++ Bytes.ofString " at " ++ Bytes.ofNat place

end SplitError

/-- Appends an instruction to the last function of a table. -/
def appendToLast (table : Array Function) (i : Instruction) : Array Function :=
  table.modify (table.size - 1) fun f => { f with code := f.code.push i }

/-- Cuts a stream that goes on at a place into functions, after those already cut. -/
def splitFrom (place : Nat) (table : Array Function) : List Instruction → Except SplitError (Array Function)
  | [] => .ok table
  | i :: rest =>
    if i.op = .marker then
      match i.header with
      | none => .error (.noHeader place)
      | some header => splitFrom (place + 1) (table.push { header }) rest
    else if table.isEmpty then .error (.outside i.op place)
    else splitFrom (place + 1) (appendToLast table i) rest

/-- Cuts a stream into functions at its markers. -/
def splitFunctions (code : List Instruction) : Except SplitError (Array Function) := splitFrom 0 #[] code

end OnePass

import OnePass.Code.Program
import OnePass.Number.BigEndian

/-!
# Binaries

The binary layout of a program. Every number is big-endian. After the magic number and the version come the pool, each global as a
flag, the length of its payload and the payload, and the functions, each as the four numbers of its header, the number of its
instructions and the instructions, an opcode byte and an operand of four or eight bytes where the opcode has one.
-/

namespace OnePass

namespace Binary

/-- The number that opens every binary. -/
def magic : Nat := 0x72303b3e

/-- The version of the layout. -/
def version : Nat := 1

/-- The longest payload that is read. -/
def maxPayload : Nat := 2 ^ 24

/-- A four-byte number. -/
def word (n : Nat) : Bytes := bigEndian 4 n

/-! ## Writing -/

/-- An instruction that no binary holds. -/
structure WriteError where
  function : Nat
  place : Nat
  op : Opcode
  deriving DecidableEq, Repr

/-- The wording of the error. -/
def WriteError.message (e : WriteError) : Bytes :=
  Bytes.ofString "function " ++ Bytes.ofNat e.function ++ Bytes.ofString " instruction " ++ Bytes.ofNat e.place ++
    Bytes.ofString ": cannot encode " ++ e.op.name

/-- A global of the pool. -/
def writeGlobal (g : Global) : Bytes := (if g.const then 1 else 0) :: word g.payload.length ++ g.payload

/-- An instruction; of an operand of four bytes the low half is kept. -/
def writeInstruction (i : Instruction) : Bytes := i.op.toByte :: bigEndian i.op.operandWidth i.operand.toUInt64.toNat

/-- The instructions of a function from a place on. -/
def writeCode (function : Nat) : Nat → List Instruction → Except WriteError Bytes
  | _, [] => .ok []
  | place, i :: rest =>
    if i.op.isEncodable then do
      let tail ← writeCode function (place + 1) rest
      return writeInstruction i ++ tail
    else .error ⟨function, place, i.op⟩

/-- The numbers of a header, in the order of the layout. -/
def writeHeader (h : Header) : Bytes := word h.slot.toNat ++ word h.returns.toNat ++ word h.params.toNat ++ word h.locals.toNat

/-- The functions of a table from a place on. -/
def writeFunctions : Nat → List Function → Except WriteError Bytes
  | _, [] => .ok []
  | place, f :: rest => do
    let code ← writeCode place 0 f.code.toList
    let tail ← writeFunctions (place + 1) rest
    return writeHeader f.header ++ word f.code.size ++ code ++ tail

/-- The binary of a program. -/
def write (p : Program) : Except WriteError Bytes := do
  let functions ← writeFunctions 0 p.functions.toList
  return word magic ++ word version ++ word p.globals.size ++ p.globals.toList.flatMap writeGlobal ++
    word p.functions.size ++ functions

/-! ## Reading -/

/-- Why a byte string is no binary. -/
inductive ReadError where
  | truncatedHeader
  | badMagic (found : Nat)
  | unsupportedVersion (found : Nat)
  | truncatedGlobal (place : Nat)
  | oversizedGlobal (place size : Nat)
  | truncatedCount
  | truncatedFunction (place : Nat)
  | unknownOpcode (function : Nat) (byte : UInt8) (place : Nat)
  deriving DecidableEq, Repr

namespace ReadError

/-- The kind of fault in a binary, in words; a payload beyond the limit has none of its own. -/
def reason? : ReadError → Option Bytes
  | truncatedHeader | truncatedGlobal _ | truncatedCount | truncatedFunction _ => some (Bytes.ofString "truncated binary")
  | badMagic _ => some (Bytes.ofString "bad magic number")
  | unsupportedVersion _ => some (Bytes.ofString "unsupported version")
  | unknownOpcode .. => some (Bytes.ofString "unknown opcode")
  | oversizedGlobal .. => none

/-- The wording of the error. -/
def message (e : ReadError) : Bytes :=
  let reason := e.reason?.getD []
  match e with
  | truncatedHeader => Bytes.ofString "header: " ++ reason
  | badMagic found => reason ++ Bytes.ofString ": 0x" ++ Bytes.ofNatHex 8 found
  | unsupportedVersion found => reason ++ Bytes.ofString ": " ++ Bytes.ofNat found
  | truncatedGlobal place => Bytes.ofString "global " ++ Bytes.ofNat place ++ Bytes.ofString ": " ++ reason
  | oversizedGlobal place size =>
    Bytes.ofString "global " ++ Bytes.ofNat place ++ Bytes.ofString ": payload of " ++ Bytes.ofNat size ++
      Bytes.ofString " bytes exceeds limit"
  | truncatedCount => Bytes.ofString "function count: " ++ reason
  | truncatedFunction place => Bytes.ofString "function " ++ Bytes.ofNat place ++ Bytes.ofString ": " ++ reason
  | unknownOpcode function byte place =>
    Bytes.ofString "function " ++ Bytes.ofNat function ++ Bytes.ofString ": " ++ reason ++ Bytes.ofString " 0x" ++
      Bytes.ofNatHex 2 byte.toNat ++ Bytes.ofString " at instruction " ++ Bytes.ofNat place

end ReadError

/-- A reader takes a value off the front of a byte string. -/
abbrev Reader := StateT Bytes (Except ReadError)

/-- The first `n` bytes; `short` is the error if there are not so many. -/
def take (short : ReadError) (n : Nat) : Reader Bytes := do
  let b ← get
  let front := b.take n
  if front.length = n then
    set (b.drop n)
    return front
  else throw short

/-- A number of `width` bytes. -/
def readNumber (short : ReadError) (width : Nat) : Reader Nat := return ofBigEndian (← take short width)

/-- A global; any flag but zero makes it constant. -/
def readGlobal (place : Nat) : Reader Global := do
  let flag ← readNumber (.truncatedGlobal place) 1
  let size ← readNumber (.truncatedGlobal place) 4
  if maxPayload < size then throw (.oversizedGlobal place size)
  let payload ← take (.truncatedGlobal place) size
  return { const := flag ≠ 0, value := some payload }

/-- `count` globals, the first of them at a place. -/
def readGlobals (place : Nat) : Nat → Reader (List Global)
  | 0 => return []
  | count + 1 => do
    let g ← readGlobal place
    return g :: (← readGlobals (place + 1) count)

/-- The operand of an operation: eight bytes as they are, four bytes with their sign. -/
def readOperand (function : Nat) (op : Opcode) : Reader Int64 := do
  let n ← readNumber (.truncatedFunction function) op.operandWidth
  return if op.operandWidth = 4 then Int64.ofInt (Int.bmod n (2 ^ 32)) else Int64.ofNat n

/-- An instruction. -/
def readInstruction (function place : Nat) : Reader Instruction := do
  let byte := UInt8.ofNat (← readNumber (.truncatedFunction function) 1)
  let op := Opcode.ofByte byte
  if op.isEncodable then return { op, operand := ← readOperand function op }
  else throw (.unknownOpcode function byte place)

/-- `count` instructions of a function, the first of them at a place. -/
def readCode (function place : Nat) : Nat → Reader (List Instruction)
  | 0 => return []
  | count + 1 => do
    let i ← readInstruction function place
    return i :: (← readCode function (place + 1) count)

/-- A function. -/
def readFunction (place : Nat) : Reader Function := do
  let short := ReadError.truncatedFunction place
  let slot ← readNumber short 4
  let returns ← readNumber short 4
  let params ← readNumber short 4
  let locals ← readNumber short 4
  let count ← readNumber short 4
  let code ← readCode place 0 count
  return { header := ⟨.ofNat slot, .ofNat returns, .ofNat params, .ofNat locals⟩, code := code.toArray }

/-- `count` functions, the first of them at a place. -/
def readFunctions (place : Nat) : Nat → Reader (List Function)
  | 0 => return []
  | count + 1 => do
    let f ← readFunction place
    return f :: (← readFunctions (place + 1) count)

/-- A whole program. -/
def readProgram : Reader Program := do
  let found ← readNumber .truncatedHeader 4
  if found ≠ magic then throw (.badMagic found)
  let found ← readNumber .truncatedHeader 4
  if found ≠ version then throw (.unsupportedVersion found)
  let globals ← readGlobals 0 (← readNumber .truncatedHeader 4)
  let functions ← readFunctions 0 (← readNumber .truncatedCount 4)
  return { globals := globals.toArray, functions := functions.toArray }

/-- The program at the front of a byte string; what follows it is of no account. -/
def read (b : Bytes) : Except ReadError Program := return (← readProgram.run b).1

end Binary

end OnePass

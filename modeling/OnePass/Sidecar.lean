import OnePass.Cbor.Reader
import OnePass.Code.Program
import OnePass.Text.Utf8

/-!
# Sidecars

A sidecar describes a compiled program: what each slot of the pool is, and the shape of each function. It is written as one CBOR
map with numbers for keys, in which an empty list is null and an empty name or text of a slot is left out. Reading accepts every
item that fits: unknown keys are skipped, of equal keys the first counts, and null stands for an absent value.
-/

namespace OnePass

open Cbor (Item)

/-- What a slot of the pool is, as a number. -/
structure SlotKind where
  number : UInt8
  deriving DecidableEq, Repr, Inhabited

namespace SlotKind

/-- A declared variable. -/
def var : SlotKind := ⟨1⟩

/-- A declared constant. -/
def constant : SlotKind := ⟨2⟩

/-- The name of a function. -/
def function : SlotKind := ⟨3⟩

/-- The name of a primitive that is called. -/
def native : SlotKind := ⟨4⟩

/-- A string literal, and whatever else has no name. -/
def string : SlotKind := ⟨5⟩

/-- The word for a kind. -/
def name (k : SlotKind) : Bytes :=
  if k = var then Bytes.ofString "variable"
  else if k = constant then Bytes.ofString "constant"
  else if k = function then Bytes.ofString "function"
  else if k = native then Bytes.ofString "native"
  else if k = string then Bytes.ofString "string"
  else Bytes.ofString "GlobalKind(" ++ Bytes.ofNat k.number.toNat ++ Bytes.ofString ")"

end SlotKind

/-- The entry of a slot. -/
structure SlotEntry where
  slot : Int64 := 0
  kind : SlotKind := ⟨0⟩
  name : Bytes := []
  text : Bytes := []
  deriving DecidableEq, Repr, Inhabited

/-- The entry of a function. -/
structure FunctionEntry where
  name : Bytes := []
  slot : UInt32 := 0
  params : UInt32 := 0
  locals : UInt32 := 0
  returns : UInt32 := 0
  instructions : Int64 := 0
  deriving DecidableEq, Repr, Inhabited

/-- A sidecar. -/
structure Sidecar where
  version : Int64 := 0
  source : Bytes := []
  slots : List SlotEntry := []
  functions : List FunctionEntry := []
  deriving DecidableEq, Repr, Inhabited

namespace Sidecar

/-- The version of the layout. -/
def currentVersion : Int64 := 1

/-! ## Describing a program -/

/-- Some function has its name in this slot, of which it tells 32 bits. -/
def isFunctionSlot (p : Program) (slot : Nat) : Bool := p.functions.any (·.header.slot == UInt32.ofNat slot)

/-- Some instruction calls the primitive named in this slot. -/
def isCalledByName (p : Program) (slot : Nat) : Bool :=
  p.functions.any fun f => f.code.any fun i => i.op == .callName && i.operand.toInt == slot

/-- The entry of the global in a slot. A declared name decides first, then the use of the slot. -/
def ofGlobal (p : Program) (slot : Nat) (g : Global) : SlotEntry :=
  let place := Int64.ofNat slot
  let value := g.value.getD []
  if !g.name.isEmpty then { slot := place, kind := if g.const then .constant else .var, name := g.name }
  else if isFunctionSlot p slot then { slot := place, kind := .function, name := value }
  else if isCalledByName p slot then { slot := place, kind := .native, name := value }
  else { slot := place, kind := .string, text := value }

/-- The entry of a function. -/
def ofFunction (p : Program) (f : Function) : FunctionEntry :=
  { name := p.functionName f
    slot := f.header.slot
    params := f.header.params
    locals := f.header.locals
    returns := f.header.returns
    instructions := Int64.ofNat f.code.size }

/-- The sidecar of a program that was compiled from a source file. -/
def ofProgram (p : Program) (source : Bytes) : Sidecar :=
  { version := currentVersion
    source
    slots := p.globals.toList.zipIdx.map fun (g, slot) => ofGlobal p slot g
    functions := p.functions.toList.map (ofFunction p) }

/-! ## Writing -/

/-- A map whose keys are numbers. -/
def record (fields : List (UInt64 × Item)) : Item := .map (fields.flatMap fun (key, value) => [.unsigned key, value])

/-- A list, null if it is empty. -/
def listItem (items : List Item) : Item := if items.isEmpty then .null else .array items

/-- The item of a slot's entry. -/
def slotItem (e : SlotEntry) : Item :=
  record ([(1, .ofInt64 e.slot), (2, .unsigned e.kind.number.toUInt64)] ++
    (if e.name.isEmpty then [] else [(3, .text e.name)]) ++ (if e.text.isEmpty then [] else [(4, .bytes e.text)]))

/-- The item of a function's entry. -/
def functionItem (e : FunctionEntry) : Item :=
  record [(1, .text e.name), (2, .ofUInt32 e.slot), (3, .ofUInt32 e.params), (4, .ofUInt32 e.locals), (5, .ofUInt32 e.returns),
    (6, .ofInt64 e.instructions)]

/-- The item of a sidecar. -/
def toItem (s : Sidecar) : Item :=
  record [(1, .ofInt64 s.version), (2, .text s.source), (3, listItem (s.slots.map slotItem)),
    (4, listItem (s.functions.map functionItem))]

/-- The bytes of a sidecar. Equal sidecars have equal bytes. -/
def write (s : Sidecar) : Bytes := s.toItem.write

/-! ## Reading -/

/-- Whether what a tag tags is of the sort that the tag asks for: a date is text, a time is a number, a big number is bytes. -/
def admits (number : UInt64) (content : Item) : Bool :=
  match number, content with
  | 0, .text _ | 0, .chunkedText _ => true
  | 1, .unsigned _ | 1, .negative _ | 1, .float .. => true
  | 2, .bytes _ | 3, .bytes _ => true
  | n, _ => 3 < n

/-- An item without its tags, apart from the tag of a big number. -/
def content : Item → Option Item
  | .tag number item =>
    if !admits number item then none else if number = 2 ∨ number = 3 then some (.tag number item) else content item
  | item => some item

/-- The simple values for absence. -/
def isNull (n : UInt8) : Bool := n == 22 || n == 23

/-- An integer between two bounds. Null is zero, and a simple value that means nothing else is its number. -/
def readInt (low high : Int) (item : Item) : Option Int := do
  let n : Int ← match ← content item with
    | .unsigned n => some (n.toNat : Int)
    | .negative n => some (-1 - (n.toNat : Int))
    | .simple n => if isNull n then some 0 else if n = 20 ∨ n = 21 then none else some (n.toNat : Int)
    | .tag 2 (.bytes b) => some (ofBigEndian b : Int)
    | .tag _ (.bytes b) => some (-1 - (ofBigEndian b : Int))
    | _ => none
  if low ≤ n ∧ n ≤ high then some n else none

/-- A 64-bit integer. -/
def readInt64 (item : Item) : Option Int64 := Int64.ofInt <$> readInt (-2 ^ 63) (2 ^ 63 - 1) item

/-- A 32-bit number. -/
def readUInt32 (item : Item) : Option UInt32 := (fun n => UInt32.ofNat n.toNat) <$> readInt 0 (2 ^ 32 - 1) item

/-- A byte. -/
def readUInt8 (item : Item) : Option UInt8 := (fun n => UInt8.ofNat n.toNat) <$> readInt 0 255 item

/-- A text, which has to be UTF-8 in each of its chunks. -/
def readText (item : Item) : Option Bytes := do
  match ← content item with
  | .text b => if Utf8.isValid b then some b else none
  | .chunkedText chunks => if chunks.all Utf8.isValid then some chunks.flatten else none
  | .simple n => if isNull n then some [] else none
  | _ => none

/-- A byte string, which may also be an array of its bytes. -/
def readBytes (item : Item) : Option Bytes := do
  match ← content item with
  | .bytes b => some b
  | .tag _ (.bytes b) => some b
  | .array items => items.mapM readUInt8
  | .simple n => if isNull n then some [] else none
  | _ => none

/-- A list. -/
def readList {α : Type} (element : Item → Option α) (item : Item) : Option (List α) := do
  match ← content item with
  | .array items => items.mapM element
  | .simple n => if isNull n then some [] else none
  | _ => none

/-- A key of a record, as the number of the field it names: an integer or a numeral. Another text names no field, and neither does
a negative integer, which has to fit into 64 bits all the same. -/
def readKey (item : Item) : Option (Option UInt64) :=
  match item with
  | .unsigned n => some (some n)
  | .negative n => if n.toNat < 2 ^ 63 then some none else none
  | .text _ | .chunkedText _ => do
    let name ← readText item
    return [1, 2, 3, 4, 5, 6].find? fun n : UInt64 => name == Bytes.ofNat n.toNat
  | _ => none

/-- The fields of a map, each with the number of its key. -/
def readFields : List Item → Option (List (Option UInt64 × Item))
  | key :: value :: rest => do
    let number ← readKey key
    let fields ← readFields rest
    return (number, value) :: fields
  | _ => some []

/-- The fields of a record; null has none. -/
def readRecord (item : Item) : Option (List (Option UInt64 × Item)) := do
  match ← content item with
  | .map items => readFields items
  | .simple n => if isNull n then some [] else none
  | _ => none

/-- A field of a record, absent if no key has its number. -/
def readField {α : Type} (fields : List (Option UInt64 × Item)) (key : UInt64) (value : Item → Option α) (absent : α) :
    Option α :=
  match fields.find? (·.1 == some key) with
  | some (_, item) => value item
  | none => some absent

/-- The entry of a slot. -/
def readSlot (item : Item) : Option SlotEntry := do
  let fields ← readRecord item
  let slot ← readField fields 1 readInt64 0
  let kind ← readField fields 2 readUInt8 0
  let name ← readField fields 3 readText []
  let text ← readField fields 4 readBytes []
  return { slot, kind := ⟨kind⟩, name, text }

/-- The entry of a function. -/
def readFunction (item : Item) : Option FunctionEntry := do
  let fields ← readRecord item
  let name ← readField fields 1 readText []
  let slot ← readField fields 2 readUInt32 0
  let params ← readField fields 3 readUInt32 0
  let locals ← readField fields 4 readUInt32 0
  let returns ← readField fields 5 readUInt32 0
  let instructions ← readField fields 6 readInt64 0
  return { name, slot, params, locals, returns, instructions }

/-- The sidecar that an item is. -/
def ofItem (item : Item) : Option Sidecar := do
  let fields ← readRecord item
  let version ← readField fields 1 readInt64 0
  let source ← readField fields 2 readText []
  let slots ← readField fields 3 (readList readSlot) []
  let functions ← readField fields 4 (readList readFunction) []
  return { version, source, slots, functions }

/-- Why a byte string is no sidecar. -/
inductive ReadError where
  /-- It is no CBOR, or an item of another form. -/
  | malformed
  | unsupportedVersion (found : Int64)
  deriving DecidableEq, Repr

/-- The wording of a version that is not known. -/
def versionMessage (found : Int64) : Bytes := Bytes.ofString "debuginfo: unsupported version " ++ Bytes.ofInt found.toInt

/-- The sidecar that a byte string is. -/
def read (b : Bytes) : Except ReadError Sidecar :=
  match Cbor.read b >>= ofItem with
  | none => .error .malformed
  | some s => if s.version = currentVersion then .ok s else .error (.unsupportedVersion s.version)

end Sidecar

end OnePass

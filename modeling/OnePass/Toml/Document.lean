import OnePass.Toml.Scan

/-!
# TOML documents

The tables that the statements of a text make up. A table may be opened once, and once more if so far only keys inside it have
brought it about; a name has one value. An inline table is written into the document pair by pair, and is a table of its own as
well.
-/

namespace OnePass.Toml

/-- What a name in a table stands for. -/
inductive Node where
  | text (b : Bytes)
  | integer (n : Int64)
  | boolean (b : Bool)
  /-- A value that no setting takes: a real number, a moment, an array. -/
  | other
  | table (entries : List (Bytes × Node))
  /-- An array of tables, the latest first. -/
  | tables (elements : List (List (Bytes × Node)))
  deriving Inhabited

/-- A table: its names with what they stand for. -/
abbrev Table := List (Bytes × Node)

namespace Table

/-- Sets what a name stands for. -/
def set (t : Table) (name : Bytes) (node : Node) : Table :=
  if (t.lookup name).isSome then t.map fun entry => if entry.1 = name then (name, node) else entry else t ++ [(name, node)]

/-- The table at a key; in an array of tables the latest one counts. -/
def at? : Table → Key → Option Table
  | t, [] => some t
  | t, name :: key =>
    match t.lookup name with
    | some (.table inner) => at? inner key
    | some (.tables (inner :: _)) => at? inner key
    | _ => none

/-- Replaces the table at a key. -/
def replace (t : Table) : Key → Table → Table
  | [], new => new
  | name :: key, new =>
    match t.lookup name with
    | some (.table inner) => t.set name (.table (replace inner key new))
    | some (.tables (inner :: others)) => t.set name (.tables (replace inner key new :: others))
    | _ => t

/-- Puts a node at a key, through tables that are made where they are missing. What is no table is not gone through. -/
def place (t : Table) (node : Node) : Key → Option Table
  | [] => none
  | [name] => some (t.set name node)
  | name :: key => do
    let inner ← match t.lookup name with
      | none => some []
      | some (.table inner) => some inner
      | some _ => none
    return t.set name (.table (← place inner node key))

end Table

/-- A document under construction. -/
structure Document where
  root : Table := []
  /-- Tables that only keys inside them have brought about, and values that are being written. -/
  tentative : List Key := []
  /-- Keys whose value is an array. -/
  arrays : List Key := []
  /-- Inline tables that have taken the place of an array as a whole, so that what changes them changes the document too. -/
  shared : List Key := []
  /-- The keys that the text spells out, the last first. -/
  spelled : List Key := []

namespace Document

/-- Marks a key as tentative. -/
def mark (d : Document) (key : Key) : Document := { d with tentative := key :: d.tentative }

/-- Marks a key as settled. -/
def settle (d : Document) (key : Key) : Document := { d with tentative := d.tentative.filter (· ≠ key) }

/-- Notes whether the value at a name is an array; the empty name stands for the table itself. -/
def note (d : Document) (context : Key) (name : Bytes) (isArray : Bool) : Document :=
  let key := if name.isEmpty ∧ !context.isEmpty then context else context ++ [name]
  let others := d.arrays.filter (· ≠ key)
  { d with arrays := if isArray then key :: others else others }

/-- Lists a key among those spelled out. -/
def spell (d : Document) (key : Key) : Document := { d with spelled := key :: d.spelled }

/-- Puts a node at a name of the table at a key, whatever was there. -/
def put (d : Document) (context : Key) (name : Bytes) (node : Node) : Option Document := do
  let t ← d.root.at? context
  let key := context ++ [name]
  return { d with root := d.root.replace context (t.set name node), shared := d.shared.filter fun k => !key.isPrefixOf k }

/-- Marks the table at a key as shared. -/
def share (d : Document) (key : Key) : Document := { d with shared := key :: d.shared }

/-- The keys of the shared tables inside the one at a key, from there on. -/
def sharedIn (d : Document) (context : Key) : List Key :=
  (d.shared.filter context.isPrefixOf).map (·.drop context.length)

/-- Puts a node at a key into the inline table `own` that lies at `context`. What the table shares with the document is the same
in both before and after. -/
def placeOwn (d : Document) (context : Key) (own : Table) (node : Node) (key : Key) : Option (Document × Table) := do
  let common := d.sharedIn context
  let own ← (common.foldl (fun t k => ((d.root.at? (context ++ k)).map (t.replace k)).getD t) own).place node key
  let root := common.foldl (fun t k => ((own.at? k).map (t.replace (context ++ k))).getD t) d.root
  return ({ d with root }, own)

/-- Gives a name its value. Of what is there already a tentative table stays as it is and a tentative array gives way; anything
else may not be defined again. -/
def define (d : Document) (context : Key) (name : Bytes) (node : Node) : Option Document := do
  let t ← d.root.at? context
  let key := context ++ [name]
  if (t.lookup name).isNone then d.put context name node
  else if key ∉ d.tentative then none
  else if key ∈ d.arrays then (d.settle key).put context name node
  else return d.settle key

/-- Brings about the tables that a key lies in. -/
def reach (d : Document) (context : Key) : Key → Option Document
  | [] => some d
  | name :: key => do
    let t ← d.root.at? context
    let d ← match t.lookup name with
      | none => (d.mark (context ++ [name])).put context name (.table [])
      | some _ => some d
    let _ ← d.root.at? (context ++ [name])
    d.reach (context ++ [name]) key

/-- Opens the table at a key. -/
def openTable (d : Document) (key : Key) : Option Document := do
  let d ← d.reach [] key.dropLast
  d.define key.dropLast (key.getLast?.getD []) (.table [])

/-- Adds a table to the array of tables at a key. -/
def addTable (d : Document) (key : Key) : Option Document := do
  let context := key.dropLast
  let name := key.getLast?.getD []
  let d ← d.reach [] context
  let t ← d.root.at? context
  match t.lookup name with
  | none => d.put context name (.tables [[]])
  | some (.tables elements) => d.put context name (.tables ([] :: elements))
  | some _ => none

/-- Opens the tables that the parts of a key before its last name, from a context inwards. -/
def openParts (d : Document) (context : Key) : Key → Option Document
  | [] => some d
  | part :: parts => do
    let d ← (d.mark (context ++ [part])).openTable (context ++ [part])
    d.openParts (context ++ [part]) parts

/-- The value is an array. -/
def isArray : Value → Bool
  | .array _ => true
  | _ => false

/-- The value is an inline table. -/
def isInline : Value → Bool
  | .inline _ => true
  | _ => false

mutual

/-- Writes a value at a name of the table at a key; what is inside it goes into the document at once. Gives the value by itself
too. -/
def evaluate (d : Document) (context : Key) (name : Bytes) (inArray : Bool) : Value → Option (Document × Node)
  | .text b => some (d, .text b)
  | .integer n => some (d, .integer n)
  | .boolean b => some (d, .boolean b)
  | .real => some (d, .other)
  | .moment => some (d, .other)
  | .array items => do
    let d ← evaluateItems (d.note context name true) context name items
    return (d, .other)
  | .inline pairs => do
    let key := context ++ [name]
    let d := d.mark key
    let d ← if inArray then d.addTable key else d.openTable key
    let (d, own) ← evaluatePairs d key [] pairs
    return (d, .table own)
termination_by v => (sizeOf v, 0)

/-- Writes the items of an array. -/
def evaluateItems (d : Document) (context : Key) (name : Bytes) : List Value → Option Document
  | [] => some d
  | item :: items => do
    let (d, _) ← evaluate d context name true item
    evaluateItems d context name items
termination_by items => (sizeOf items, 0)

/-- Writes a pair into the table at a key. Gives the value by itself too. -/
def evaluatePair (d : Document) (context key : Key) (value : Value) : Option (Document × Node) := do
  let d ← d.openParts context key.dropLast
  let inner := context ++ key.dropLast
  let name := key.getLast?.getD []
  let (d, node) ← evaluate (d.spell (inner ++ [name])) inner name false value
  let replaces := isInline value && d.arrays.contains (inner ++ [name])
  let d ← d.define inner name node
  let d := if replaces then d.share (inner ++ [name]) else d
  return (d.note inner name (isArray value), node)
termination_by (sizeOf value, 1)

/-- Writes the pairs of an inline table into the document, where the table lies at a key, and into the table itself. -/
def evaluatePairs (d : Document) (context : Key) (own : Table) : List (Key × Value) → Option (Document × Table)
  | [] => some (d, own)
  | (key, value) :: pairs => do
    let (d, node) ← evaluatePair d context key value
    let (d, own) ← d.placeOwn context own node key
    evaluatePairs d context own pairs
termination_by pairs => (sizeOf pairs, 0)

end

/-- Adds the statements of a text, whose pairs go into the table opened last. -/
def add (d : Document) (context : Key) : List Statement → Option Document
  | [] => some d
  | .table key :: rest => do
    let d ← d.openTable key
    ((d.note key [] false).spell key).add key rest
  | .tables key :: rest => do
    let d ← d.addTable key
    ((d.note key [] false).spell key).add key rest
  | .pair key value :: rest => do
    let (d, _) ← evaluatePair d context key value
    d.add context rest

/-- The document of a text. -/
def read (text : Bytes) : Option Document := do Document.add {} [] (← Toml.read text)

/-- The keys that the text spells out, in its order. -/
def keys (d : Document) : List Key := d.spelled.reverse

end Document

/-! ## Texts of keys -/

/-- A byte of a part in quotes. -/
def quoteByte (b : UInt8) : Bytes :=
  match b with
  | 0x22 => Bytes.ofString "\\\x22"
  | 0x5c => Bytes.ofString "\\\\"
  | 0x08 => Bytes.ofString "\\b"
  | 0x09 => Bytes.ofString "\\t"
  | 0x0a => Bytes.ofString "\\n"
  | 0x0c => Bytes.ofString "\\f"
  | 0x0d => Bytes.ofString "\\r"
  | b => if b < 0x20 || b == 0x7f then Bytes.ofString "\\u" ++ Bytes.ofNatHex 4 b.toNat else [b]

/-- A part of a key, in quotes unless it is bare. -/
def partText (part : Bytes) : Bytes :=
  if !part.isEmpty && (Utf8.chars part).all isBare then part else 0x22 :: part.flatMap quoteByte ++ [0x22]

/-- A key with its parts between points. -/
def keyText (key : Key) : Bytes := Bytes.join (Bytes.ofString ".") (key.map partText)

end OnePass.Toml

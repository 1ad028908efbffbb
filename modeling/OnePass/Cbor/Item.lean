import OnePass.Number.BigEndian

/-!
# CBOR items

The data items of the Concise Binary Object Representation, and their canonical writing: every head in the fewest bytes, every
length definite.
-/

namespace OnePass.Cbor

/-- A data item. -/
inductive Item where
  | unsigned (n : UInt64)
  /-- The integer -1 - `n`. -/
  | negative (n : UInt64)
  | bytes (b : Bytes)
  | text (b : Bytes)
  /-- A text of indefinite length, which comes in chunks. -/
  | chunkedText (chunks : List Bytes)
  | array (items : List Item)
  /-- A map, its keys and values in turn. -/
  | map (items : List Item)
  | tag (number : UInt64) (content : Item)
  | simple (n : UInt8)
  /-- A floating-point number of two, four or eight bytes. -/
  | float (width : Nat) (bits : UInt64)
  deriving Repr, Inhabited

/-- The item for absence. -/
def Item.null : Item := .simple 22

/-- The item of an integer. -/
def Item.ofInt64 (n : Int64) : Item := if n < 0 then .negative (~~~n.toUInt64) else .unsigned n.toUInt64

/-- The item of a 32-bit number. -/
def Item.ofUInt32 (n : UInt32) : Item := .unsigned n.toUInt64

/-- The head of an item: its major type and a number in the fewest bytes. -/
def head (major n : Nat) : Bytes :=
  if n < 24 then [UInt8.ofNat (major * 32 + n)]
  else if n < 2 ^ 8 then UInt8.ofNat (major * 32 + 24) :: bigEndian 1 n
  else if n < 2 ^ 16 then UInt8.ofNat (major * 32 + 25) :: bigEndian 2 n
  else if n < 2 ^ 32 then UInt8.ofNat (major * 32 + 26) :: bigEndian 4 n
  else UInt8.ofNat (major * 32 + 27) :: bigEndian 8 n

/-- The byte that opens a floating-point number of a width. -/
def floatMark (width : Nat) : UInt8 := if width = 2 then 0xf9 else if width = 4 then 0xfa else 0xfb

mutual

/-- The canonical bytes of an item. -/
def Item.write : Item → Bytes
  | .unsigned n => head 0 n.toNat
  | .negative n => head 1 n.toNat
  | .bytes b => head 2 b.length ++ b
  | .text b => head 3 b.length ++ b
  | .chunkedText chunks => head 3 chunks.flatten.length ++ chunks.flatten
  | .array items => head 4 items.length ++ writeAll items
  | .map items => head 5 (items.length / 2) ++ writeAll items
  | .tag number content => head 6 number.toNat ++ content.write
  | .simple n => head 7 n.toNat
  | .float width bits => floatMark width :: bigEndian width bits.toNat

/-- The canonical bytes of items one after the other. -/
def Item.writeAll : List Item → Bytes
  | [] => []
  | item :: rest => item.write ++ writeAll rest

end

end OnePass.Cbor

import OnePass.Text.Bytes

/-!
# Characters of a byte string

Byte strings are read as UTF-8 piece by piece: a piece is a character with its well-formed spelling, or one stray byte that starts
no such spelling. A stray byte reads as the replacement character.
-/

namespace OnePass.Utf8

/-- A piece of a byte string: a character, or a byte that starts no well-formed spelling of one. -/
inductive Piece where
  | char (c : Char)
  | stray (b : UInt8)
  deriving DecidableEq, Repr

/-- The character a stray byte reads as. -/
def replacement : Char := '�'

namespace Piece

/-- The character the piece reads as. -/
def toChar : Piece → Char
  | char c => c
  | stray _ => replacement

/-- The bytes of the piece. -/
def bytes : Piece → Bytes
  | char c => String.utf8EncodeChar c
  | stray b => [b]

/-- The piece is a character in its well-formed spelling. -/
def isChar : Piece → Bool
  | char _ => true
  | stray _ => false

end Piece

/-- The six bits that a continuation byte carries. -/
def continuation? (b : UInt8) : Option Nat :=
  if 0x80 ≤ b ∧ b < 0xc0 then some (b.toNat - 0x80) else none

/-- The character of a scalar value that needs a spelling as long as this one: `least` is the smallest such value. -/
def scalar? (least value : Nat) : Option Char :=
  if h : value.isValidChar then if least ≤ value then some (Char.ofNatAux value h) else none else none

/-- The character whose spelling starts with `lead` and goes on in `rest`, and how many bytes of `rest` belong to it. -/
def spelled? (lead : UInt8) (rest : Bytes) : Option (Char × Nat) :=
  if lead < 0x80 then (scalar? 0 lead.toNat).map (·, 0)
  else if 0xc0 ≤ lead ∧ lead < 0xe0 then
    match rest with
    | a :: _ => do
      let x ← continuation? a
      let c ← scalar? 0x80 ((lead.toNat - 0xc0) * 64 + x)
      return (c, 1)
    | _ => none
  else if 0xe0 ≤ lead ∧ lead < 0xf0 then
    match rest with
    | a :: b :: _ => do
      let x ← continuation? a
      let y ← continuation? b
      let c ← scalar? 0x800 (((lead.toNat - 0xe0) * 64 + x) * 64 + y)
      return (c, 2)
    | _ => none
  else if 0xf0 ≤ lead ∧ lead < 0xf8 then
    match rest with
    | a :: b :: d :: _ => do
      let x ← continuation? a
      let y ← continuation? b
      let z ← continuation? d
      let c ← scalar? 0x10000 ((((lead.toNat - 0xf0) * 64 + x) * 64 + y) * 64 + z)
      return (c, 3)
    | _ => none
  else none

/-- The first piece of `lead :: rest`, and how many bytes of `rest` belong to it. -/
def first (lead : UInt8) (rest : Bytes) : Piece × Nat :=
  match spelled? lead rest with
  | some (c, n) => (.char c, n)
  | none => (.stray lead, 0)

/-- The pieces that follow once `skip` more bytes of the piece before them have passed. -/
def piecesAfter : Nat → Bytes → List Piece
  | _, [] => []
  | skip + 1, _ :: rest => piecesAfter skip rest
  | 0, lead :: rest => (first lead rest).1 :: piecesAfter (first lead rest).2 rest

/-- The pieces of a byte string, in order. -/
def pieces (b : Bytes) : List Piece := piecesAfter 0 b

/-- The characters of a byte string, a stray byte read as the replacement character. -/
def chars (b : Bytes) : List Char := (pieces b).map Piece.toChar

/-- The number of characters a byte string reads as. -/
def charCount (b : Bytes) : Nat := (pieces b).length

/-- The byte string holds no stray byte. -/
def isValid (b : Bytes) : Bool := (pieces b).all Piece.isChar

/-- Fills with blanks on the right up to `width` characters. -/
def padRight (width : Nat) (b : Bytes) : Bytes := b ++ List.replicate (width - charCount b) 0x20

end OnePass.Utf8

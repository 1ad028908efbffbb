import OnePass.Text.Utf8

/-!
# Blanks

The white-space characters, which separate tokens and console words and are cut from the ends of a quoted source line.
-/

namespace OnePass.Text

/-- The white-space characters. -/
def isBlank (c : Char) : Bool :=
  let n := c.toNat
  (0x09 ≤ n && n ≤ 0x0d) || n == 0x20 || n == 0x85 || n == 0xa0 || n == 0x1680 || (0x2000 ≤ n && n ≤ 0x200a) ||
    n == 0x2028 || n == 0x2029 || n == 0x202f || n == 0x205f || n == 0x3000

/-- The piece is a white-space character. -/
def isBlankPiece : Utf8.Piece → Bool
  | .char c => isBlank c
  | .stray _ => false

/-- Cuts the blanks at both ends. -/
def trim (b : Bytes) : Bytes :=
  let inner := ((Utf8.pieces b).dropWhile isBlankPiece).reverse.dropWhile isBlankPiece
  inner.reverse.flatMap Utf8.Piece.bytes

/-- The trimmed text of a line, counted from 1; empty when there is no such line. -/
def line (source : Bytes) (number : Int) : Bytes :=
  if number < 1 then [] else ((Bytes.splitOn 0x0a source)[(number - 1).toNat]?.map trim).getD []

end OnePass.Text

import OnePass.Text.Utf8
import OnePass.Text.Printable

/-!
# Quoted text

Text in diagnostics and listings stands between quotes, with the quote, the backslash and every character that is not printable
written as an escape, so that each byte string has one quoted form.
-/

namespace OnePass.Text

/-- The letter of the escapes that have one. -/
def escapeLetter? (c : Char) : Option UInt8 :=
  match c.toNat with
  | 0x07 => some 0x61
  | 0x08 => some 0x62
  | 0x0c => some 0x66
  | 0x0a => some 0x6e
  | 0x0d => some 0x72
  | 0x09 => some 0x74
  | 0x0b => some 0x76
  | _ => none

/-- A byte as `\x` and two digits. -/
def escapeByte (n : Nat) : Bytes := 0x5c :: 0x78 :: Bytes.ofNatHex 2 n

/-- A character as it stands between quotes of the given kind. -/
def escapeChar (mark : Char) (c : Char) : Bytes :=
  if c = mark ∨ c.toNat = 0x5c then 0x5c :: String.utf8EncodeChar c
  else if isPrintable c then String.utf8EncodeChar c
  else match escapeLetter? c with
    | some letter => [0x5c, letter]
    | none =>
      if c.toNat < 0x20 ∨ c.toNat = 0x7f then escapeByte c.toNat
      else if c.toNat < 0x10000 then 0x5c :: 0x75 :: Bytes.ofNatHex 4 c.toNat
      else 0x5c :: 0x55 :: Bytes.ofNatHex 8 c.toNat

/-- A byte string between double quotes; a stray byte is written by its number. -/
def quote (b : Bytes) : Bytes :=
  0x22 :: (Utf8.pieces b).flatMap (fun
    | .char c => escapeChar '\x22' c
    | .stray b => escapeByte b.toNat) ++ [0x22]

/-- A character between single quotes. -/
def quoteChar (c : Char) : Bytes := 0x27 :: escapeChar '\x27' c ++ [0x27]

end OnePass.Text

import OnePass.Number.Double
import OnePass.Number.Integer

/-!
# Double numerals

Reading a numeral as the nearest double: decimal digits with an optional point and exponent, hexadecimal digits with a binary
exponent, or the words `inf`, `infinity` and `nan`. A value that rounds beyond the largest double is out of range.
-/

namespace OnePass.Double

open OnePass.Number

/-- A numeral `± mantissa · base ^ …`: the digits of its mantissa, how many of them follow the point, and its exponent. -/
structure Numeral where
  negative : Bool
  hex : Bool
  digits : List Char
  places : Nat
  exponent : Int

/-- The value of hexadecimal digits. -/
def ofHexDigits (cs : List Char) : Nat := cs.foldl (fun n c => n * 16 + (digit? c).getD 0) 0

/-- An exponent's digits: it grows no further once it has passed ten thousand, far beyond every double. -/
def exponentOf (cs : List Char) : Nat := cs.foldl (fun n c => if n < 10000 then n * 10 + (c.toNat - '0'.toNat) else n) 0

/-- The double nearest to a numeral, unless it is too large. -/
def Numeral.value? (t : Numeral) : Option UInt64 :=
  if t.hex then
    let power := t.exponent - 4 * t.places
    ofRatio? t.negative (ofHexDigits t.digits * 2 ^ power.toNat) (2 ^ (-power).toNat)
  else
    let power := t.exponent - t.places
    ofRatio? t.negative (ofDigits t.digits * 10 ^ power.toNat) (10 ^ (-power).toNat)

/-- A digit or an underscore of a mantissa. -/
def isMantissa (hex : Bool) (c : Char) : Bool := c == '_' || isDigit c || (hex && isHexDigit c)

/-- Drops the underscores. -/
def withoutGaps (cs : List Char) : List Char := cs.filter (· != '_')

/-- The exponent after its mark: an optional sign, then digits, of which the first is no underscore. -/
def readExponent? (cs : List Char) : Option Int :=
  let (negative, digits) := splitSign cs
  match digits with
  | [] => none
  | first :: _ =>
    if isDigit first && digits.all (fun c => c == '_' || isDigit c) then
      let size : Int := exponentOf (withoutGaps digits)
      some (if negative then -size else size)
    else none

/-- The numeral of a text with its sign taken off. -/
def readNumeral? (negative : Bool) (cs : List Char) : Option Numeral := do
  let (hex, body) := match cs with
    | '0' :: x :: c :: rest => if x.toLower = 'x' then (true, c :: rest) else (false, cs)
    | _ => (false, cs)
  let whole := body.takeWhile (isMantissa hex)
  let afterWhole := body.dropWhile (isMantissa hex)
  let (fraction, tail) := match afterWhole with
    | '.' :: rest => (rest.takeWhile (isMantissa hex), rest.dropWhile (isMantissa hex))
    | _ => ([], afterWhole)
  let digits := withoutGaps (whole ++ fraction)
  if digits.isEmpty || !underscoresSeparate cs then none
  match tail with
  | [] => if hex then none else some ⟨negative, hex, digits, (withoutGaps fraction).length, 0⟩
  | mark :: power =>
    if mark.toLower = (if hex then 'p' else 'e') then
      return ⟨negative, hex, digits, (withoutGaps fraction).length, ← readExponent? power⟩
    else none

/-- Letters of either case spell the word. -/
def spells (word : String) (cs : List Char) : Bool := cs.map Char.toLower == word.toList

/-- The double of a numeral's text. -/
def parse (cs : List Char) : Except NumeralError UInt64 :=
  let (negative, rest) := splitSign cs
  if spells "inf" rest || spells "infinity" rest then .ok (if negative then neg infinity else infinity)
  else if spells "nan" cs then .ok wordNaN
  else match readNumeral? negative rest with
    | none => .error .malformed
    | some t => match t.value? with
      | none => .error .outOfRange
      | some x => .ok x

/-- A double times a power of two, rounded once; the sum of the exponents is a 64-bit number and wraps around. -/
def scaleBy (x : UInt64) (power : Int64) : UInt64 :=
  if magnitude x = 0 ∨ ¬ isFinite x then x
  else
    let top : Int64 := Int64.ofInt (exponent x + Nat.log2 (significand x))
    let sum := (power + top).toInt
    if sum < -1075 then x &&& signBit
    else if 1023 < sum then (x &&& signBit) ||| infinity
    else
      let power := power.toInt + exponent x
      (ofRatio? (isNegative x) (significand x * 2 ^ power.toNat) (2 ^ (-power).toNat)).getD ((x &&& signBit) ||| infinity)

end OnePass.Double

import OnePass.Text.Bytes

/-!
# Integer numerals

Reading a numeral as a 64-bit integer. A literal may carry a base prefix (`0x`, `0b`, `0o`, or a bare `0` for octal) and
underscores between its digits; a decimal may not. A numeral is refused where its text breaks: the first character that is no
digit, or the first digit that takes the value out of range, whichever comes first.
-/

namespace OnePass.Number

/-- Why a numeral is refused. -/
inductive NumeralError where
  | malformed
  | outOfRange
  deriving DecidableEq, Repr

/-- The words for a refused numeral. -/
def NumeralError.reason : NumeralError → String
  | malformed => "invalid syntax"
  | outOfRange => "value out of range"

/-- A decimal digit. -/
def isDigit (c : Char) : Bool := '0' ≤ c && c ≤ '9'

/-- The value of a digit, letters counting on from ten in either case. -/
def digit? (c : Char) : Option Nat :=
  if isDigit c then some (c.toNat - '0'.toNat)
  else if 'a' ≤ c ∧ c ≤ 'z' then some (c.toNat - 'a'.toNat + 10)
  else if 'A' ≤ c ∧ c ≤ 'Z' then some (c.toNat - 'A'.toNat + 10)
  else none

/-- A digit of hexadecimal numerals. -/
def isHexDigit (c : Char) : Bool := (digit? c).any (· < 16)

/-- The value of a run of decimal digits. -/
def ofDigits (cs : List Char) : Nat := cs.foldl (fun n c => n * 10 + (c.toNat - '0'.toNat)) 0

/-- What stands before a character in a numeral, as far as underscores care. -/
inductive Before where
  | start
  | digit
  | underscore
  | other
  deriving DecidableEq, Repr

/-- From here on every underscore stands between two digits, given what stands before. -/
def separated (hex : Bool) : Before → List Char → Bool
  | before, [] => before != .underscore
  | before, c :: rest =>
    if isDigit c || (hex && isHexDigit c) then separated hex .digit rest
    else if c = '_' then before == .digit && separated hex .underscore rest
    else before != .underscore && separated hex .other rest

/-- Every underscore of an unsigned numeral stands between two digits, a base prefix counting as one. -/
def underscoresSeparate : List Char → Bool
  | '0' :: c :: rest =>
    if c.toLower = 'x' then separated true .digit rest
    else if c.toLower = 'b' ∨ c.toLower = 'o' then separated false .digit rest
    else separated false .start ('0' :: c :: rest)
  | cs => separated false .start cs

/-- Splits off a sign: whether it is a minus, and what follows it. -/
def splitSign : List Char → Bool × List Char
  | '-' :: rest => (true, rest)
  | '+' :: rest => (false, rest)
  | cs => (false, cs)

/-- Reads digits of a base onto `n`, as an unsigned 64-bit number; underscores pass if `gaps` says so. -/
def readDigits (base : Nat) (gaps : Bool) : Nat → List Char → Except NumeralError Nat
  | n, [] => .ok n
  | n, c :: rest =>
    if gaps && c == '_' then readDigits base gaps n rest
    else match digit? c with
      | none => .error .malformed
      | some d =>
        if base ≤ d then .error .malformed
        else if 2 ^ 64 ≤ n * base + d then .error .outOfRange
        else readDigits base gaps (n * base + d) rest

/-- The base a literal's prefix names, and its digits. -/
def splitBase : List Char → Nat × List Char
  | '0' :: c :: d :: rest =>
    if c.toLower = 'x' then (16, d :: rest)
    else if c.toLower = 'b' then (2, d :: rest)
    else if c.toLower = 'o' then (8, d :: rest)
    else (8, c :: d :: rest)
  | '0' :: rest => (8, rest)
  | cs => (10, cs)

/-- An unsigned literal. -/
def readUnsigned (cs : List Char) : Except NumeralError Nat := do
  if cs.isEmpty then throw .malformed
  let n ← readDigits (splitBase cs).1 true 0 (splitBase cs).2
  if underscoresSeparate cs then return n else throw .malformed

/-- An unsigned decimal. -/
def readUnsignedDecimal (cs : List Char) : Except NumeralError Nat :=
  if cs.isEmpty then .error .malformed else readDigits 10 false 0 cs

/-- Gives a magnitude its sign, if the result is a signed 64-bit number. -/
def signed (negative : Bool) (n : Nat) : Except NumeralError Int64 :=
  if negative then if n ≤ 2 ^ 63 then .ok (Int64.ofInt (-n)) else .error .outOfRange
  else if n < 2 ^ 63 then .ok (Int64.ofNat n) else .error .outOfRange

/-- A signed literal, base prefix and underscores allowed. -/
def readLiteral (cs : List Char) : Except NumeralError Int64 := do
  signed (splitSign cs).1 (← readUnsigned (splitSign cs).2)

/-- A signed decimal. -/
def readDecimal (cs : List Char) : Except NumeralError Int64 := do
  signed (splitSign cs).1 (← readUnsignedDecimal (splitSign cs).2)

end OnePass.Number

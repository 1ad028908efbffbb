import OnePass.Number.Double
import OnePass.Text.Bytes

/-!
# Shortest decimals

The text of a double is the decimal with the fewest digits that reads back as it, and of those the nearest; a tie goes to the even
digit. Decimal exponents from -4 to 5 are written out, others with an exponent mark.
-/

namespace OnePass.Double

/-- A decimal `digits · 10 ^ scale`. -/
structure Decimal where
  digits : Nat
  scale : Int
  deriving DecidableEq, Repr

/-- A ratio divided by a power of ten. -/
def unscale (num den : Nat) (scale : Int) : Nat × Nat := (num * 10 ^ (-scale).toNat, den * 10 ^ scale.toNat)

/-- The decimal exponent of a positive ratio's first digit. -/
def decimalExponent (num den : Nat) : Int :=
  let guess := ((Nat.log2 num : Int) - Nat.log2 den) * 30103 / 100000
  let (n, d) := unscale num den (guess + 1)
  if d ≤ n then guess + 1
  else
    let (n, d) := unscale num den guess
    if d ≤ n then guess else guess - 1

/-- The reals that read as a positive finite double, in quarters of its unit in the last place: the ends, and whether the ends
themselves belong. -/
structure Basin where
  low : Nat
  high : Nat
  closed : Bool

/-- The reals that read as the double: half a unit to either side, a quarter below a power of two. -/
def basin (x : UInt64) : Basin :=
  let m := significand x
  let tight := m = 2 ^ 52 ∧ exponent x ≠ -1074
  ⟨if tight then 4 * m - 1 else 4 * m - 2, 4 * m + 2, m % 2 = 0⟩

/-- `digits · 10 ^ scale` reads as the double. -/
def readsAs (x : UInt64) (digits : Nat) (scale : Int) : Bool :=
  let b := basin x
  let unit := exponent x - 2
  let value := digits * 10 ^ scale.toNat * 2 ^ (-unit).toNat
  let per := 10 ^ (-scale).toNat * 2 ^ unit.toNat
  if b.closed then b.low * per ≤ value && value ≤ b.high * per else b.low * per < value && value < b.high * per

/-- A ratio equal to a positive finite double. -/
def ratio (x : UInt64) : Nat × Nat := (significand x * 2 ^ (exponent x).toNat, 2 ^ (-exponent x).toNat)

/-- The better of the two decimals around the double on the grid of a scale, if one of them reads as it. -/
def onGrid? (x : UInt64) (scale : Int) : Option Decimal :=
  let (n, d) := unscale (ratio x).1 (ratio x).2 scale
  let q := n / d
  let r := n % d
  let up := d < 2 * r || (d == 2 * r && q % 2 == 1)
  let near := if up then q + 1 else q
  let far := if up then q else q + 1
  if readsAs x near scale then some ⟨near, scale⟩ else if readsAs x far scale then some ⟨far, scale⟩ else none

/-- The first hit on grids that get finer digit by digit. -/
def firstHit (x : UInt64) (top : Int) : Nat → Nat → Decimal
  | _, 0 => ⟨significand x, 0⟩
  | count, more + 1 => (onGrid? x (top - count)).getD (firstHit x top (count + 1) more)

/-- The shortest decimal of a positive finite double; seventeen digits always suffice. -/
def shortest (x : UInt64) : Decimal := firstHit x (decimalExponent (ratio x).1 (ratio x).2) 0 17

/-- The digits of a decimal without trailing zeros, and the decimal exponent of the first. -/
def Decimal.normal (t : Decimal) : Bytes × Int :=
  let all := Bytes.ofNat t.digits
  ((all.reverse.dropWhile (· == 0x30)).reverse, t.scale + all.length - 1)

/-- The text of digits with an exponent mark, whose exponent has at least two digits. -/
def withMark (digits : Bytes) (exponent : Int) : Bytes :=
  let mark := if exponent < 0 then Bytes.ofString "e-" else Bytes.ofString "e+"
  let size := Bytes.ofNat exponent.natAbs
  let fraction := digits.drop 1
  digits.take 1 ++ (if fraction.isEmpty then [] else 0x2e :: fraction) ++ mark ++
    List.replicate (2 - size.length) 0x30 ++ size

/-- The text of digits written out. -/
def writtenOut (digits : Bytes) (exponent : Int) : Bytes :=
  if exponent < 0 then Bytes.ofString "0." ++ List.replicate (-exponent - 1).toNat 0x30 ++ digits
  else
    let whole := (exponent + 1).toNat
    let fraction := digits.drop whole
    digits.take whole ++ List.replicate (whole - digits.length) 0x30 ++ (if fraction.isEmpty then [] else 0x2e :: fraction)

/-- Decimal exponents that are written out. -/
def plainExponent (exponent : Int) : Bool := -4 ≤ exponent && exponent < 6

/-- The text of a double. -/
def text (x : UInt64) : Bytes :=
  if isNaN x then Bytes.ofString "NaN"
  else if magnitude x = infinity then Bytes.ofString (if isNegative x then "-Inf" else "+Inf")
  else
    let sign := if isNegative x then [0x2d] else []
    if magnitude x = 0 then sign ++ [0x30]
    else
      let (digits, exponent) := (shortest (magnitude x)).normal
      sign ++ if plainExponent exponent then writtenOut digits exponent else withMark digits exponent

end OnePass.Double

/-!
# Doubles as bits

A machine slot holds a double as its 64 bits. Arithmetic is that of the hardware on the bits: an operation without a result gives
the negative quiet NaN, and a NaN operand is passed on, the left one first. A finite double is `significand · 2 ^ exponent`, and
`nearest` is the correctly rounded double of a ratio.
-/

namespace OnePass.Double

-- Powers are those of the core library, also where a library of algebra brings its own.
attribute [instance(high), default_instance high + 1] instPowNat

/-- The bits of the sign. -/
def signBit : UInt64 := 0x8000000000000000

/-- The bits of positive infinity. -/
def infinity : UInt64 := 0x7ff0000000000000

/-- What an operation without a result gives. -/
def invalid : UInt64 := 0xfff8000000000000

/-- The NaN that the word `nan` reads as. -/
def wordNaN : UInt64 := 0x7ff8000000000001

/-- The bits without the sign. -/
def magnitude (x : UInt64) : UInt64 := x &&& 0x7fffffffffffffff

/-- Not a number: the exponent is full and the fraction is not empty. -/
def isNaN (x : UInt64) : Bool := infinity < magnitude x

/-- Neither infinite nor a NaN. -/
def isFinite (x : UInt64) : Bool := magnitude x < infinity

/-- The sign bit is set. -/
def isNegative (x : UInt64) : Bool := signBit ≤ x

/-- A NaN with its quiet bit set. -/
def quiet (x : UInt64) : UInt64 := x ||| 0x0008000000000000

/-- An operation on two doubles, on their bits. -/
def lift (op : Float → Float → Float) (x y : UInt64) : UInt64 :=
  if isNaN x then quiet x
  else if isNaN y then quiet y
  else
    let r := op (Float.ofBits x) (Float.ofBits y)
    if r.isNaN then invalid else r.toBits

/-- The sum. -/
def add (x y : UInt64) : UInt64 := lift (· + ·) x y

/-- The difference. -/
def sub (x y : UInt64) : UInt64 := lift (· - ·) x y

/-- The product. -/
def mul (x y : UInt64) : UInt64 := lift (· * ·) x y

/-- The quotient. -/
def div (x y : UInt64) : UInt64 := lift (· / ·) x y

/-- The double with the other sign, also of a NaN. -/
def neg (x : UInt64) : UInt64 := x ^^^ signBit

/-- `x` is less than `y`; never so when one is a NaN. -/
def lt (x y : UInt64) : Bool := Float.ofBits x < Float.ofBits y

/-- The integer of a finite double's significand, the hidden bit included. -/
def significand (x : UInt64) : Nat :=
  let fraction := x.toNat % 2 ^ 52
  if (magnitude x).toNat < 2 ^ 52 then fraction else fraction + 2 ^ 52

/-- The power of two that a finite double's significand is scaled by. -/
def exponent (x : UInt64) : Int := (max ((magnitude x).toNat / 2 ^ 52) 1 : Nat) - 1075

/-- The double nearest to an integer. -/
def ofInt64 (n : Int64) : UInt64 := n.toFloat.toBits

/-- The integer part of a double; the least integer when it is out of range or not a number. -/
def toInt64 (x : UInt64) : Int64 :=
  let whole : Nat := significand x <<< (exponent x).toNat >>> (-exponent x).toNat
  let value : Int := if isNegative x then -whole else whole
  if isFinite x ∧ -2 ^ 63 ≤ value ∧ value < 2 ^ 63 then Int64.ofInt value else Int64.minValue

/-- `num / den` in units of `2 ^ scale`, rounded to the nearest integer, a half to the even one. -/
def roundAt (num den : Nat) (scale : Int) : Nat :=
  let n := num <<< (-scale).toNat
  let d := den <<< scale.toNat
  let q := n / d
  let r := n % d
  if 2 * r < d then q else if d < 2 * r then q + 1 else q + q % 2

/-- The scale at which `num / den` fills a significand, or the least scale of all. -/
def scaleFor (num den : Nat) : Int :=
  let guess := max ((Nat.log2 num : Int) - Nat.log2 den - 53) (-1074)
  if num <<< (-guess).toNat / (den <<< guess.toNat) < 2 ^ 53 then guess else guess + 1

/-- The bits of the double nearest to `num / den`, as a number that is at least `infinity` when the ratio is too large. -/
def nearest (num den : Nat) : Nat :=
  if num = 0 then 0
  else
    let scale := scaleFor num den
    (scale + 1074).toNat * 2 ^ 52 + roundAt num den scale

/-- The double nearest to `± num / den`, unless that is too large. -/
def ofRatio? (negative : Bool) (num den : Nat) : Option UInt64 :=
  let bits := nearest num den
  if bits < infinity.toNat then some (if negative then neg (.ofNat bits) else .ofNat bits) else none

end OnePass.Double

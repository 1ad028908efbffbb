import OnePass.Token.Basic

/-!
# Value types

The static types of values. `bool` is what a comparison gives; a program has no name for it.
-/

namespace OnePass

/-- The static type of a value. A symbol made by hand may have a type that is none of the language's. -/
inductive ValueType where
  | void
  | int
  | double
  | bool
  | foreign (number : Int)
  deriving DecidableEq, Repr, Inhabited

namespace ValueType

/-- The type with a number. -/
def ofNumber : Int → ValueType
  | 0 => void
  | 1 => int
  | 2 => double
  | 3 => bool
  | n => foreign n

/-- The name of a type. -/
def name : ValueType → Bytes
  | void => Bytes.ofString "void"
  | int => Bytes.ofString "int"
  | double => Bytes.ofString "double"
  | bool => Bytes.ofString "bool"
  | foreign _ => Bytes.ofString "unknown"

/-- Values of the type take part in arithmetic. -/
def isNumeric (t : ValueType) : Bool := t == int || t == double

/-- How many stack slots a value of the type takes. -/
def slots (t : ValueType) : Nat := if t = void then 0 else 1

/-- The type a type name stands for. -/
def ofKind? : TokenKind → Option ValueType
  | .int => some int
  | .double => some double
  | .void => some void
  | _ => none

end ValueType

end OnePass

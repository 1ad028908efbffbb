import OnePass.Token.Basic

/-!
# Operators

The operators of expressions and their precedence. Operators of one precedence class associate to the left.
-/

namespace OnePass

/-- An operator between two operands; the right operand of a cast is a type. -/
inductive Operator where
  | gt
  | lt
  | ge
  | le
  | eq
  | ne
  | add
  | sub
  | mul
  | div
  | cast
  deriving DecidableEq, Repr, Inhabited

namespace Operator

/-- The spelling of an operator. -/
def text : Operator → Bytes
  | gt => Bytes.ofString ">"
  | lt => Bytes.ofString "<"
  | ge => Bytes.ofString ">="
  | le => Bytes.ofString "<="
  | eq => Bytes.ofString "=="
  | ne => Bytes.ofString "!="
  | add => Bytes.ofString "+"
  | sub => Bytes.ofString "-"
  | mul => Bytes.ofString "*"
  | div => Bytes.ofString "/"
  | cast => Bytes.ofString "as"

/-- The operator a token stands for, if it goes on with an expression. -/
def ofKind? : TokenKind → Option Operator
  | .greater => some gt
  | .less => some lt
  | .greaterEq => some ge
  | .lessEq => some le
  | .equals => some eq
  | .notEq => some ne
  | .plus => some add
  | .minus => some sub
  | .star => some mul
  | .slash => some div
  | .as => some cast
  | _ => none

/-- The precedence class, the loosest first: comparisons, sums, products, casts. -/
def precedence : Operator → Nat
  | gt | lt | ge | le | eq | ne => 0
  | add | sub => 1
  | mul | div => 2
  | cast => 3

/-- The operator compares its operands. -/
def isComparison (op : Operator) : Bool := op.precedence == 0

/-- A pending operator must be applied before the next one joins it: equal classes are, so operators associate to the left. -/
def yieldsTo (pending next : Operator) : Bool := next.precedence ≤ pending.precedence

end Operator

end OnePass

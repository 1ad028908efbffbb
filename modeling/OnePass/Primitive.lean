import OnePass.Types

/-!
# Primitives

The console routines that a program may call without declaring them: the analysis checks calls against their signatures, and the
machine carries them out.
-/

namespace OnePass

/-- What a function or a primitive takes and gives. -/
structure Signature where
  params : List ValueType
  returns : ValueType
  deriving DecidableEq, Repr

/-- A console routine. -/
inductive Primitive where
  | getint
  | getchar
  | getdouble
  | putint
  | putchar
  | putstr
  | putdouble
  | putln
  deriving DecidableEq, Repr, Inhabited

namespace Primitive

/-- All primitives. -/
def all : List Primitive := [getint, getchar, getdouble, putint, putchar, putstr, putdouble, putln]

/-- The name of a primitive. -/
def name : Primitive → Bytes
  | getint => Bytes.ofString "getint"
  | getchar => Bytes.ofString "getchar"
  | getdouble => Bytes.ofString "getdouble"
  | putint => Bytes.ofString "putint"
  | putchar => Bytes.ofString "putchar"
  | putstr => Bytes.ofString "putstr"
  | putdouble => Bytes.ofString "putdouble"
  | putln => Bytes.ofString "putln"

/-- The primitive with a name. -/
def ofName? (name : Bytes) : Option Primitive := all.find? (·.name == name)

/-- The signature of a primitive. A literal text is passed as the number of its global. -/
def signature : Primitive → Signature
  | getint | getchar => ⟨[], .int⟩
  | getdouble => ⟨[], .double⟩
  | putint | putchar | putstr => ⟨[.int], .void⟩
  | putdouble => ⟨[.double], .void⟩
  | putln => ⟨[], .void⟩

end Primitive

end OnePass

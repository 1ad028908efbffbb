import OnePass.Types

/-!
# Symbols

A symbol is a declared name: what it names, its type, and where its storage is. Numbers from outside may name no kind and no
storage class; such a symbol keeps slot zero.
-/

namespace OnePass

/-- What a symbol names. -/
inductive SymbolKind where
  | variable
  | parameter
  | function
  | foreign (number : Int)
  deriving DecidableEq, Repr, Inhabited

namespace SymbolKind

/-- The kind with a number. -/
def ofNumber : Int → SymbolKind
  | 0 => .variable
  | 1 => parameter
  | 2 => function
  | n => foreign n

/-- The name of a kind. -/
def name : SymbolKind → Bytes
  | .variable => Bytes.ofString "var"
  | parameter => Bytes.ofString "param"
  | function => Bytes.ofString "fn"
  | foreign _ => Bytes.ofString "?"

end SymbolKind

/-- Where the storage of a symbol is, and so which counter its slot comes from. -/
inductive Storage where
  | global
  | local
  | parameter
  | foreign (number : Int)
  deriving DecidableEq, Repr, Inhabited

namespace Storage

/-- The storage class with a number. -/
def ofNumber : Int → Storage
  | 0 => global
  | 1 => .local
  | 2 => parameter
  | n => foreign n

/-- The name of a storage class. -/
def name : Storage → Bytes
  | global => Bytes.ofString "global"
  | .local => Bytes.ofString "local"
  | parameter => Bytes.ofString "param"
  | foreign _ => Bytes.ofString "?"

end Storage

/-- A declared name. -/
structure Symbol where
  name : Bytes
  kind : SymbolKind
  /-- The type of the value, or what a function returns. -/
  type : ValueType
  const : Bool
  assigned : Bool := false
  storage : Storage
  slot : Int := 0
  /-- The parameter types of a function. -/
  params : List ValueType := []
  /-- The place of a function in the function table. -/
  place : Nat := 0
  /-- The place of the symbol that this one hides. -/
  hidden : Option Nat := none
  deriving DecidableEq, Repr, Inhabited

end OnePass

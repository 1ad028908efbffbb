import OnePass.Symbol.Basic
import Std.Data.TreeMap

/-!
# The symbol table

All live symbols stand in one array in the order of their declaration. An index gives for each visible name the place of its
innermost symbol, and a symbol remembers the place of the one that it hides. Opening a scope notes the height of the array;
closing it cuts the array back to that height and makes the hidden symbols visible again.
-/

namespace OnePass

/-- The symbols of a program under analysis. -/
structure SymbolTable where
  symbols : Array Symbol := #[]
  /-- The place of the innermost symbol of each visible name. -/
  index : Std.TreeMap Bytes Nat := ∅
  /-- The heights at which the open scopes start, the innermost first. -/
  scopes : List Nat := []
  nextGlobal : Nat := 0
  nextLocal : Nat := 0
  nextParam : Nat := 0

/-- Why an operation on the table is refused. -/
inductive SymbolError where
  | duplicate (name : Bytes)
  | undeclared (name : Bytes)
  | noOpenScope
  deriving DecidableEq, Repr

namespace SymbolError

/-- The class of the error, in words; closing a scope that is not open has none. -/
def reason? : SymbolError → Option Bytes
  | duplicate _ => some (Bytes.ofString "duplicate declaration")
  | undeclared _ => some (Bytes.ofString "not declared")
  | noOpenScope => none

/-- The wording of the error. -/
def message : SymbolError → Bytes
  | duplicate name => Bytes.ofString "duplicate declaration: " ++ name
  | undeclared name => Bytes.ofString "not declared: " ++ name
  | noOpenScope => Bytes.ofString "ExitScope called at global scope"

end SymbolError

namespace SymbolTable

/-- The place where the current scope starts. -/
def boundary (t : SymbolTable) : Nat := t.scopes.headD 0

/-- The number of open scopes. -/
def depth (t : SymbolTable) : Nat := t.scopes.length

/-- Opens a scope. -/
def enterScope (t : SymbolTable) : SymbolTable := { t with scopes := t.symbols.size :: t.scopes }

/-- Takes a symbol out of the index, making the one it hides visible again. -/
def unbind (s : Symbol) (index : Std.TreeMap Bytes Nat) : Std.TreeMap Bytes Nat :=
  match s.hidden with
  | some place => index.insert s.name place
  | none => index.erase s.name

/-- Closes the current scope with all its symbols. -/
def exitScope (t : SymbolTable) : Except SymbolError SymbolTable :=
  match t.scopes with
  | [] => .error .noOpenScope
  | height :: scopes =>
    .ok { t with
      symbols := t.symbols.take height
      index := (t.symbols.toList.drop height).foldr unbind t.index
      scopes }

/-- Starts counting the locals and parameters of a function. -/
def beginFunction (t : SymbolTable) : SymbolTable := { t with nextLocal := 0, nextParam := 0 }

/-- Ends the parameters of a function. -/
def endFunction (t : SymbolTable) : SymbolTable := { t with nextParam := 0 }

/-- Hands out a global slot that no name stands for. -/
def allocGlobal (t : SymbolTable) : Nat × SymbolTable := (t.nextGlobal, { t with nextGlobal := t.nextGlobal + 1 })

/-- Hands out the next slot of a storage class. -/
def allocSlot (t : SymbolTable) : Storage → Nat × SymbolTable
  | .global => t.allocGlobal
  | .local => (t.nextLocal, { t with nextLocal := t.nextLocal + 1 })
  | .parameter => (t.nextParam, { t with nextParam := t.nextParam + 1 })
  | .foreign _ => (0, t)

/-- The current scope has a symbol of this name. -/
def declaresHere (t : SymbolTable) (name : Bytes) : Bool := t.index[name]?.any (t.boundary ≤ ·)

/-- Declares a name in the current scope and gives it the next slot of its storage class. Gives the place of the symbol. -/
def declare (t : SymbolTable) (name : Bytes) (kind : SymbolKind) (type : ValueType) (const : Bool) (storage : Storage) :
    Except SymbolError (Nat × SymbolTable) :=
  if t.declaresHere name then .error (.duplicate name)
  else
    let (slot, u) := t.allocSlot storage
    let symbol : Symbol := { name, kind, type, const, storage, slot, hidden := t.index[name]? }
    .ok (t.symbols.size, { u with symbols := u.symbols.push symbol, index := u.index.insert name t.symbols.size })

/-- The place of the innermost symbol of a name. -/
def resolve (t : SymbolTable) (name : Bytes) : Except SymbolError Nat :=
  match t.index[name]? with
  | some place => .ok place
  | none => .error (.undeclared name)

/-- The symbol at a place. -/
def symbol? (t : SymbolTable) (place : Nat) : Option Symbol := t.symbols[place]?

/-- Changes the symbol at a place. -/
def update (t : SymbolTable) (place : Nat) (f : Symbol → Symbol) : SymbolTable :=
  { t with symbols := t.symbols.modify place f }

/-- Moves the parameters of the current scope up by `n` slots. -/
def shiftParams (t : SymbolTable) (n : Int) : SymbolTable :=
  { t with
    symbols := t.symbols.mapIdx fun place s =>
      if t.boundary ≤ place ∧ s.storage = .parameter then { s with slot := s.slot + n } else s }

/-- A line of the table's text. -/
def line (s : Symbol) : Bytes :=
  Bytes.ofString "  " ++ Utf8.padRight 20 s.name ++ Bytes.ofString "  " ++ Utf8.padRight 5 s.kind.name ++
    Bytes.ofString " " ++ Utf8.padRight 5 (Bytes.ofString (if s.const then "const" else "let")) ++ Bytes.ofString " " ++
    Utf8.padRight 6 s.type.name ++ Bytes.ofString " " ++ Utf8.padRight 6 s.storage.name ++ Bytes.ofString " slot " ++
    Bytes.ofInt s.slot ++ [0x0a]

/-- The visible symbols in the order of their names, and the heights of the open scopes. -/
def text (t : SymbolTable) : Bytes :=
  if t.index.isEmpty then Bytes.ofString "Symbols: (empty)\n"
  else
    Bytes.ofString "Symbols:\n" ++ (t.index.toList.flatMap fun (_, place) => ((t.symbol? place).map line).getD []) ++
      Bytes.ofString "Scopes: [" ++ Bytes.join [0x20] (t.scopes.reverse.map Bytes.ofNat) ++ Bytes.ofString "]\n"

end SymbolTable

end OnePass

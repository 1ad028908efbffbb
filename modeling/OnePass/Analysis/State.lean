import OnePass.Code.Program
import OnePass.Symbol.Table
import OnePass.Token.Source

/-!
# The state of an analysis

An analysis checks and compiles a program in one pass over its tokens. Its state is what is known so far: the tokens ahead, the
symbols, the pool, the code of the entry routine and of the functions, and the loops that are open. An analysis ends in a program,
in a diagnostic, or, if one of its own rules were broken, in a breach.
-/

namespace OnePass

/-- A rule that the analysis itself relies on and that would have to be broken for it to end here. -/
inductive Breach where
  /-- A new global is not the next one of the pool. -/
  | poolOutOfStep
  /-- The index of the symbol table points to no symbol. -/
  | staleIndex
  /-- A scope is closed that was never opened. -/
  | noOpenScope
  /-- A branch is patched that is no longer there. -/
  | lostBranch
  /-- An expression ends without an operand. -/
  | noOperand
  /-- The code does not fall into functions. -/
  | unsplit (error : SplitError)
  /-- The nesting is deeper than the number of tokens allows. -/
  | tooDeep
  deriving DecidableEq, Repr

/-- How an analysis fails. -/
inductive Failure where
  | diagnostic (d : Diagnostic)
  | breach (b : Breach)
  deriving DecidableEq, Repr

/-- A loop whose body is being compiled. -/
structure Loop where
  /-- The handle of its first condition instruction. -/
  first : Nat
  /-- The handles of the branches out of it that wait for its end. -/
  breaks : List Nat := []
  deriving DecidableEq, Repr

/-- The two streams that code goes to: the entry routine with the initial values of the globals, and the functions. -/
inductive Section where
  | entry
  | body
  deriving DecidableEq, Repr

/-- The state of an analysis. -/
structure AnalysisState (σ : Type) where
  source : σ
  table : SymbolTable := {}
  pool : Array Global := #[]
  entry : Stream := {}
  body : Stream := {}
  /-- The global of each literal text. -/
  literals : Std.TreeMap Bytes Nat := ∅
  /-- The global of each primitive's name. -/
  natives : Std.TreeMap Bytes Nat := ∅
  functionCount : Nat := 0
  /-- The open loops, the innermost first. -/
  loops : List Loop := []

/-- A part of an analysis over a token source. -/
abbrev Analysis (σ : Type) := StateT (AnalysisState σ) (Except Failure)

namespace Analysis

variable {σ : Type} {α : Type}

/-- Ends the analysis with a fault at a position. -/
def fail (pos : Pos) (fault : Fault) : Analysis σ α := throw (.diagnostic ⟨pos, fault⟩)

/-- Ends the analysis with a broken rule. -/
def breach (b : Breach) : Analysis σ α := throw (.breach b)

/-- Goes on with a result, or ends the analysis with its diagnostic. -/
def orFail : Except Diagnostic α → Analysis σ α
  | .ok a => return a
  | .error d => throw (.diagnostic d)

/-! ## Tokens -/

section Tokens

variable [TokenSource σ]

/-- The next token, which stays the next one. -/
def peek : Analysis σ Token := do
  orFail (← modifyGet fun s => let (r, source) := TokenSource.peek s.source; (r, { s with source }))

/-- Takes the next token. -/
def next : Analysis σ Token := do
  orFail (← modifyGet fun s => let (r, source) := TokenSource.next s.source; (r, { s with source }))

/-- Takes the next token, which has to be of a kind. -/
def expect (kind : TokenKind) : Analysis σ Token := do
  let token ← next
  if token.kind = kind then return token else fail token.pos (.expected kind token.kind token.lexeme)

/-- Takes the next token only if it is of a kind, and says whether it is. -/
def accept (kind : TokenKind) : Analysis σ Bool := do
  let token ← peek
  if token.kind = kind then
    let _ ← next
    return true
  else return false

/-- Takes the name of a type. -/
def typeName : Analysis σ (Token × ValueType) := do
  let token ← next
  match ValueType.ofKind? token.kind with
  | some type => return (token, type)
  | none => fail token.pos (.expectedType token.kind token.lexeme)

end Tokens

/-! ## Code -/

/-- Appends an instruction to a stream. -/
def emit (out : Section) (i : Instruction) : Analysis σ Unit :=
  match out with
  | .entry => modify fun s => { s with entry := s.entry.emit i }
  | .body => modify fun s => { s with body := s.body.emit i }

/-- Appends instructions to a stream. -/
def emitAll (out : Section) (is : List Instruction) : Analysis σ Unit :=
  match out with
  | .entry => modify fun s => { s with entry := s.entry.emitAll is }
  | .body => modify fun s => { s with body := s.body.emitAll is }

/-- The handle of the next instruction of the functions. -/
def here : Analysis σ Nat := return (← get).body.size

/-- Appends a branch whose target is not known yet, and gives its handle. -/
def emitOpenBranch : Analysis σ Nat := do
  let handle ← here
  emit .body { op := .br }
  return handle

/-- Appends a branch back to a handle. -/
def emitBranchTo (target : Nat) : Analysis σ Unit := do
  let handle ← here
  emit .body { op := .br, operand := Int64.ofInt ((target : Int) - (handle + 1)) }

/-- Points the branch at a handle to the next instruction. -/
def patch (handle : Nat) : Analysis σ Unit := do
  match (← get).body.patch? handle with
  | some body => modify fun s => { s with body }
  | none => breach .lostBranch

/-! ## Globals and symbols -/

/-- Adds to the pool the global of a slot that was handed out just now. -/
def addGlobal (slot : Nat) (g : Global) : Analysis σ Unit := do
  if slot = (← get).pool.size then modify fun s => { s with pool := s.pool.push g } else breach .poolOutOfStep

/-- Hands out a global slot that no name stands for. -/
def allocGlobal : Analysis σ Nat :=
  modifyGet fun s => let (slot, table) := s.table.allocGlobal; (slot, { s with table })

/-- The global that holds a literal text, added at its first use. -/
def literalSlot (text : Bytes) : Analysis σ Nat := do
  match (← get).literals[text]? with
  | some slot => return slot
  | none =>
    let slot ← allocGlobal
    addGlobal slot { const := true, value := some text }
    modify fun s => { s with literals := s.literals.insert text slot }
    return slot

/-- The global that holds the name of a primitive, added at its first use. -/
def nativeSlot (name : Bytes) : Analysis σ Nat := do
  match (← get).natives[name]? with
  | some slot => return slot
  | none =>
    let slot ← allocGlobal
    addGlobal slot { const := true, value := some name }
    modify fun s => { s with natives := s.natives.insert name slot }
    return slot

/-- Declares the name that a token is, and gives the place of its symbol. -/
def declare (name : Token) (kind : SymbolKind) (type : ValueType) (const : Bool) (storage : Storage) : Analysis σ Nat := do
  match (← get).table.declare name.lexeme kind type const storage with
  | .ok (place, table) =>
    modify fun s => { s with table }
    return place
  | .error _ => fail name.pos (.duplicate name.lexeme)

/-- The symbol at a place. -/
def symbolAt (place : Nat) : Analysis σ Symbol := do
  match (← get).table.symbol? place with
  | some symbol => return symbol
  | none => breach .staleIndex

/-- Changes the symbol at a place. -/
def updateSymbol (place : Nat) (f : Symbol → Symbol) : Analysis σ Unit :=
  modify fun s => { s with table := s.table.update place f }

/-- Notes that the variable at a place has a value from here on. -/
def markAssigned (place : Nat) : Analysis σ Unit := updateSymbol place fun s => { s with assigned := true }

/-- Opens a scope. -/
def enterScope : Analysis σ Unit := modify fun s => { s with table := s.table.enterScope }

/-- Closes the current scope. -/
def exitScope : Analysis σ Unit := do
  match (← get).table.exitScope with
  | .ok table => modify fun s => { s with table }
  | .error _ => breach .noOpenScope

/-- Appends the instruction that pushes the address of a symbol's storage. -/
def emitAddress (out : Section) (symbol : Symbol) : Analysis σ Unit :=
  match symbol.storage with
  | .global => emit out { op := .globA, operand := Int64.ofInt symbol.slot }
  | .local => emit out { op := .locA, operand := Int64.ofInt symbol.slot }
  | .parameter => emit out { op := .argA, operand := Int64.ofInt symbol.slot }
  | .foreign _ => return ()

end Analysis

end OnePass

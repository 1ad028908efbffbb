import OnePass.Analysis.Statement

/-!
# Definitions

A program is a sequence of functions and global variables. The entry routine sets the globals to their initial values in order and
then calls `main`; it is function 0, and the functions of the program follow it in the order of their definitions.
-/

namespace OnePass

namespace Analysis

variable {σ : Type} [TokenSource σ]

/-- A parameter of the function whose symbol stands at a place. -/
def parameter (function : Nat) : Analysis σ Unit := do
  let const ← accept .const
  let name ← expect .identifier
  let _ ← expect .colon
  let (typeToken, type) ← typeName
  if type = .void then fail typeToken.pos (.voidParameter name.lexeme)
  let place ← declare name .parameter type const .parameter
  markAssigned place
  updateSymbol function fun s => { s with params := s.params ++ [type] }

/-- The parameters of a function from one on. -/
def parameters (function : Nat) : Nat → Analysis σ Unit
  | 0 => breach .tooDeep
  | depth + 1 => do
    parameter function
    if ← accept .comma then parameters function depth

/-- The parameters of a function with their parentheses. -/
def parameterList (function : Nat) (depth : Nat) : Analysis σ Unit := do
  let _ ← expect .lparen
  if ← accept .rparen then return ()
  parameters function depth
  let _ ← expect .rparen

/-- Declares a function, whose code starts with a marker. Gives the place of its symbol and the handle of the marker. -/
def openFunction (name : Token) : Analysis σ (Nat × Nat) := do
  let place ← declare name .function .void true .global
  let number ← modifyGet fun s => (s.functionCount, { s with functionCount := s.functionCount + 1 })
  updateSymbol place fun s => { s with assigned := true, place := number }
  let slot := (← symbolAt place).slot.toNat
  addGlobal slot { const := true, value := some name.lexeme }
  let marker ← here
  emit .body (.start { slot := .ofNat slot })
  modify fun s => { s with table := s.table.beginFunction.enterScope }
  return (place, marker)

/-- Notes what a function returns. Its parameters move up by the slots for that. -/
def noteReturns (place : Nat) (returns : ValueType) : Analysis σ Unit := do
  updateSymbol place fun s => { s with type := returns }
  if returns ≠ .void then modify fun s => { s with table := s.table.shiftParams returns.slots }

/-- Ends the body of a function, which has to return if there is a value to return. -/
def endBody (name : Token) (returns : ValueType) (flow : Flow) : Analysis σ Unit := do
  if !flow.returns then
    if returns ≠ .void then fail name.pos (.openEnd name.lexeme)
    emit .body { op := .ret }

/-- Fills in the header of a function, now that its frame is known, and closes its scope. -/
def closeFunction (place marker : Nat) (returns : ValueType) : Analysis σ Unit := do
  let symbol ← symbolAt place
  modify fun s =>
    { s with body := s.body.setHeader marker {
        slot := .ofNat symbol.slot.toNat
        returns := .ofNat returns.slots
        params := .ofNat symbol.params.length
        locals := .ofNat s.table.nextLocal } }
  exitScope
  modify fun s => { s with table := s.table.endFunction }

/-- A function. Its parameters and its body share a scope. -/
def function (depth : Nat) : Analysis σ Unit := do
  let _ ← expect .fn
  let name ← expect .identifier
  let (place, marker) ← openFunction name
  parameterList place depth
  let _ ← expect .arrow
  let (_, returns) ← typeName
  noteReturns place returns
  let flow ← block returns false depth
  endBody name returns flow
  closeFunction place marker returns

/-- The definitions of a program up to its end. Gives the end token. -/
def definitions : Nat → Analysis σ Token
  | 0 => breach .tooDeep
  | depth + 1 => do
    let token ← peek
    match token.kind with
    | .fn =>
      function depth
      definitions depth
    | .let | .const =>
      declaration depth
      definitions depth
    | .eof => return token
    | kind => fail token.pos (.expectedDefinition kind token.lexeme)

/-- The name of the entry routine. -/
def entryName : Bytes := Bytes.ofString "_start"

/-- The name of the function that a program starts with. -/
def mainName : Bytes := Bytes.ofString "main"

/-- Starts the entry routine. -/
def openEntry : Analysis σ Unit := do
  let slot ← allocGlobal
  addGlobal slot { const := true, value := some entryName }
  emit .entry (.start { slot := .ofNat slot })
  modify fun s => { s with functionCount := 1 }

/-- The symbol of the main function; a program without one is at fault at its end. -/
def mainFunction (stop : Pos) : Analysis σ Symbol := do
  match (← get).table.resolve mainName with
  | .error _ => fail stop .noMain
  | .ok place =>
    let symbol ← symbolAt place
    if symbol.kind ≠ .function then fail stop .noMain
    if symbol.params ≠ [] then fail stop .mainParameters
    return symbol

/-- Ends the entry routine with the call of the main function. -/
def closeEntry (stop : Pos) : Analysis σ Unit := do
  let main ← mainFunction stop
  emit .entry (.withNat .stackAlloc main.type.slots)
  emit .entry (.withNat .call main.place)
  if main.type ≠ .void then emit .entry (.withNat .popN main.type.slots)

/-- The program whose code is complete. -/
def assemble : Analysis σ Program := do
  let s ← get
  match splitFunctions (s.entry.code.toList ++ s.body.code.toList) with
  | .ok functions => return { globals := s.pool, functions }
  | .error e => breach (.unsplit e)

/-- A whole program. -/
def program (depth : Nat) : Analysis σ Program := do
  openEntry
  let stop ← definitions depth
  closeEntry stop.pos
  assemble

end Analysis

/-- A depth that no analysis of so many tokens exceeds: every four nested steps take a token. -/
def depthBound (tokens : Nat) : Nat := 4 * tokens + 8

/-- Checks and compiles the program that a source of tokens holds. -/
def analyze {σ : Type} [TokenSource σ] (source : σ) : Except Failure Program :=
  (Analysis.program (depthBound (TokenSource.remaining source))).run' { source }

end OnePass

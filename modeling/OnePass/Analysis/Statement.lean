import OnePass.Analysis.Expression

/-!
# Statements

Statements are compiled as they are read, forward branches being patched once their targets are known. Code after a statement that
always leaves its block is checked like any other, and dropped when the block is closed.
-/

namespace OnePass

/-- What a statement does on every path through it. An `if` whose arms leave in different ways does neither. -/
structure Flow where
  returns : Bool := false
  /-- Leaves by `break` or `continue`. -/
  breaks : Bool := false
  deriving DecidableEq, Repr, Inhabited

namespace Flow

/-- The statement never goes on to the next one. -/
def leaves (f : Flow) : Bool := f.returns || f.breaks

/-- What both arms of an `if` do. -/
def both (f g : Flow) : Flow := ⟨f.returns && g.returns, f.breaks && g.breaks⟩

end Flow

namespace Analysis

variable {σ : Type} [TokenSource σ]

/-- The section and the storage class of a declaration: outside of functions that of a global, whose initial value is part of the
entry routine. -/
def declarationPlace : Analysis σ (Section × Storage) := do
  if (← get).table.depth = 0 then return (.entry, .global) else return (.body, .local)

/-- Declares the variable or constant that a token names; a global one also joins the pool. Gives the section that its initial
value is part of, and the place of its symbol. -/
def declareVariable (const : Bool) (name : Token) (type : ValueType) : Analysis σ (Section × Nat) := do
  let (out, storage) ← declarationPlace
  let place ← declare name .variable type const storage
  if storage = .global then addGlobal (← symbolAt place).slot.toNat { const, name := name.lexeme }
  return (out, place)

/-- Takes the `=` before an initial value, and says whether there is one; a constant needs it. -/
def takesValue (const : Bool) : Analysis σ Bool := do
  if const then
    let _ ← expect .assign
    return true
  else accept .assign

/-- The initial value of the variable at a place. -/
def initialValue (out : Section) (name : Token) (place : Nat) (type : ValueType) (depth : Nat) : Analysis σ Unit := do
  emitAddress out (← symbolAt place)
  let first ← peek
  let value ← expression out depth
  if value ≠ type then fail first.pos (.initialValue type name.lexeme value)
  emit out { op := .store }
  markAssigned place

/-- A `let` or `const` declaration. -/
def declaration (depth : Nat) : Analysis σ Unit := do
  let const := (← next).kind == .const
  let name ← expect .identifier
  let _ ← expect .colon
  let (typeToken, type) ← typeName
  if type = .void then fail typeToken.pos (.voidVariable name.lexeme)
  let (out, place) ← declareVariable const name type
  if ← takesValue const then initialValue out name place type depth
  let _ ← expect .semicolon

/-- A condition and the two branches after it: past the second one if it holds, and by the second one, whose handle is given,
if it does not. -/
def condition (depth : Nat) : Analysis σ Nat := do
  let first ← peek
  let type ← expression .body depth
  if type = .void then fail first.pos .valuelessCondition
  emit .body { op := .brTrue, operand := 1 }
  emitOpenBranch

/-- The innermost loop; outside of loops a fault at a position. -/
def innermostLoop (pos : Pos) (fault : Fault) : Analysis σ Loop := do
  match (← get).loops with
  | loop :: _ => return loop
  | [] => fail pos fault

/-- Notes a branch out of the innermost loop. -/
def noteBreak (handle : Nat) : Analysis σ Unit :=
  modify fun s =>
    match s.loops with
    | loop :: loops => { s with loops := { loop with breaks := handle :: loop.breaks } :: loops }
    | [] => s

/-- A `break` statement. -/
def breakStatement : Analysis σ Flow := do
  let token ← expect .break
  let _ ← innermostLoop token.pos .strayBreak
  noteBreak (← emitOpenBranch)
  let _ ← expect .semicolon
  return { breaks := true }

/-- A `continue` statement. -/
def continueStatement : Analysis σ Flow := do
  let token ← expect .continue
  let loop ← innermostLoop token.pos .strayContinue
  emitBranchTo loop.first
  let _ ← expect .semicolon
  return { breaks := true }

/-- A `return` statement in a function that returns a type. A value is stored through the first argument slot, which the caller
has reserved for it. -/
def returnStatement (returns : ValueType) (depth : Nat) : Analysis σ Flow := do
  let token ← expect .return
  let first ← peek
  if returns = .void then
    if first.kind ≠ .semicolon then fail first.pos .valueInVoidReturn
  else
    if first.kind = .semicolon then fail token.pos (.valuelessReturn returns)
    emit .body { op := .argA }
    let type ← expression .body depth
    if type ≠ returns then fail first.pos (.returned type returns)
    emit .body { op := .store }
  emit .body { op := .ret }
  let _ ← expect .semicolon
  return { returns := true }

/-- An expression for its effect; a value it leaves is popped. -/
def expressionStatement (depth : Nat) : Analysis σ Unit := do
  let type ← expression .body depth
  if type ≠ .void then emit .body { op := .pop }
  let _ ← expect .semicolon

/-- Drops the code from a handle on, and with it the noted branches out of the innermost loop that stood there. -/
def dropFrom (handle : Nat) : Analysis σ Unit :=
  modify fun s =>
    { s with
      body := s.body.truncate handle
      loops := match s.loops with
        | loop :: loops => { loop with breaks := loop.breaks.filter (· < handle) } :: loops
        | [] => [] }

/-- Opens a loop that starts at a handle. -/
def openLoop (first : Nat) : Analysis σ Unit := modify fun s => { s with loops := { first } :: s.loops }

/-- Closes the innermost loop, and gives the branches out of it. -/
def closeLoop : Analysis σ (List Nat) :=
  modifyGet fun s =>
    match s.loops with
    | loop :: loops => (loop.breaks, { s with loops })
    | [] => ([], s)

/-- Ends a loop that starts at a handle and whose condition has its branch out at another. There is a branch back, unless the body
always leaves by `break` or `continue`. -/
def endLoop (first exit : Nat) (body : Flow) : Analysis σ Unit := do
  let breaks ← closeLoop
  if !body.breaks then emitBranchTo first
  patch exit
  breaks.forM patch

/-- Opens the scope of a block, if that has one of its own. -/
def openBlock (inner : Bool) : Analysis σ Unit := if inner then enterScope else return ()

/-- Drops the code of a block from a handle on, if there is one, and closes the scope of the block. -/
def closeBlock (inner : Bool) (dead : Option Nat) : Analysis σ Unit := do
  dead.forM dropFrom
  if inner then exitScope

/-- What the arms of an `if` come to. -/
structure Arms where
  /-- What all arms so far do. -/
  flow : Flow := ⟨true, true⟩
  /-- The branches from the ends of the arms to the end of the `if`. -/
  ends : List Nat := []
  hasElse : Bool := false

mutual

/-- A statement in a function that returns a type. -/
def statement (returns : ValueType) : Nat → Analysis σ Flow
  | 0 => breach .tooDeep
  | depth + 1 => do
    match (← peek).kind with
    | .let | .const =>
      declaration depth
      return {}
    | .if =>
      let _ ← expect .if
      let arms ← ifArms returns depth {}
      arms.ends.forM patch
      return if arms.hasElse then arms.flow else {}
    | .while => whileStatement returns depth
    | .break => breakStatement
    | .continue => continueStatement
    | .return => returnStatement returns depth
    | .lbrace => block returns true depth
    | .semicolon =>
      let _ ← next
      return {}
    | _ =>
      expressionStatement depth
      return {}

/-- A block, in a scope of its own or in that of the function's parameters. -/
def block (returns : ValueType) (inner : Bool) : Nat → Analysis σ Flow
  | 0 => breach .tooDeep
  | depth + 1 => do
    let _ ← expect .lbrace
    openBlock inner
    let (flow, dead) ← statements returns depth {} none
    let _ ← next
    closeBlock inner dead
    return flow

/-- The statements of a block up to its closing brace. Gives what the first of them that leaves does, and the handle after its
code. -/
def statements (returns : ValueType) : Nat → Flow → Option Nat → Analysis σ (Flow × Option Nat)
  | 0, _, _ => breach .tooDeep
  | depth + 1, flow, dead => do
    let token ← peek
    match token.kind with
    | .rbrace => return (flow, dead)
    | .eof => fail token.pos .unclosedBlock
    | _ =>
      let f ← statement returns depth
      if dead.isNone && f.leaves then statements returns depth f (some (← here))
      else statements returns depth flow dead

/-- The arms of an `if` from a condition on. Each ends in a branch to the end of the `if`. -/
def ifArms (returns : ValueType) : Nat → Arms → Analysis σ Arms
  | 0, _ => breach .tooDeep
  | depth + 1, arms => do
    let skip ← condition depth
    let f ← block returns true depth
    let arms := { arms with flow := arms.flow.both f, ends := arms.ends ++ [← emitOpenBranch] }
    patch skip
    if ← accept .else then
      if ← accept .if then ifArms returns depth arms
      else
        let f ← block returns true depth
        return { arms with flow := arms.flow.both f, hasElse := true }
    else return arms

/-- A `while` statement. -/
def whileStatement (returns : ValueType) : Nat → Analysis σ Flow
  | 0 => breach .tooDeep
  | depth + 1 => do
    let _ ← expect .while
    let first ← here
    let exit ← condition depth
    openLoop first
    let f ← block returns true depth
    endLoop first exit f
    return {}

end

end Analysis

end OnePass

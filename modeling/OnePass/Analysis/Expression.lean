import OnePass.Analysis.Pending
import OnePass.Analysis.State
import OnePass.Primitive

/-!
# Expressions

Expressions are compiled as they are read. Operands emit their code at once; operators wait on the pending stacks until the next
operator, or the end of the expression, makes them due. Every function here takes a bound on the depth that is left, which
`analyze` derives from the number of tokens.
-/

namespace OnePass

namespace Analysis

variable {σ : Type} [TokenSource σ]

/-- The place of the variable that a token names. -/
def variablePlace (name : Token) : Analysis σ Nat := do
  match (← get).table.resolve name.lexeme with
  | .error _ => fail name.pos (.undeclared name.lexeme)
  | .ok place =>
    let symbol ← symbolAt place
    if symbol.kind = .function then fail name.pos (.functionAsValue name.lexeme) else return place

/-- The value of a variable. -/
def load (out : Section) (name : Token) : Analysis σ ValueType := do
  let symbol ← symbolAt (← variablePlace name)
  if symbol.assigned then
    emitAddress out symbol
    emit out { op := .load }
    return symbol.type
  else fail name.pos (.unassigned name.lexeme)

/-- An assignment, its `=` taken; `value` compiles what follows. It has no value of its own. -/
def assignment (out : Section) (name : Token) (value : Analysis σ ValueType) : Analysis σ ValueType := do
  let place ← variablePlace name
  let symbol ← symbolAt place
  if symbol.const then fail name.pos (.constantAssigned name.lexeme)
  emitAddress out symbol
  let first ← peek
  let type ← value
  if type ≠ symbol.type then fail first.pos (.assigned type symbol.type name.lexeme)
  emit out { op := .store }
  markAssigned place
  return .void

/-- What a call needs of the function or primitive that it calls. -/
structure Callee where
  signature : Signature
  op : Opcode
  operand : Nat

/-- The function of a name, or else the primitive; a name in scope hides a primitive. -/
def callee (name : Token) : Analysis σ Callee := do
  match (← get).table.resolve name.lexeme with
  | .ok place =>
    let symbol ← symbolAt place
    if symbol.kind = .function then return ⟨⟨symbol.params, symbol.type⟩, .call, symbol.place⟩
    else fail name.pos (.notFunction name.lexeme)
  | .error _ =>
    match Primitive.ofName? name.lexeme with
    | some primitive => return ⟨primitive.signature, .callName, ← nativeSlot name.lexeme⟩
    | none => fail name.pos (.noFunction name.lexeme)

/-- Checks the type of an argument against the parameter it is for; one too many is counted later. -/
def checkArgument (pos : Pos) (name : Token) (params : List ValueType) (count : Nat) (type : ValueType) :
    Analysis σ Unit :=
  match params[count]? with
  | some wanted => if type = wanted then return () else fail pos (.argument (count + 1) name.lexeme wanted type)
  | none => return ()

/-- Calls the function or primitive of a name with so many arguments, which are on the stack. -/
def endCall (out : Section) (name : Token) (c : Callee) (count : Nat) : Analysis σ ValueType := do
  if count ≠ c.signature.params.length then
    fail name.pos (.arity name.lexeme c.signature.params.length count)
  emit out (.withNat c.op c.operand)
  return c.signature.returns

/-- A call; `arguments` compiles the arguments for these parameters with the closing parenthesis, and counts them. -/
def call (out : Section) (name : Token) (arguments : List ValueType → Analysis σ Nat) : Analysis σ ValueType := do
  let c ← callee name
  emit out (.withNat .stackAlloc c.signature.returns.slots)
  let _ ← expect .lparen
  let count ← if ← accept .rparen then pure 0 else arguments c.signature.params
  endCall out name c count

/-- Negates the operand on the stack. -/
def negate (out : Section) (minus : Token) : ValueType → Analysis σ ValueType
  | .int => do
    emit out { op := .negI }
    return .int
  | .double => do
    emit out { op := .negF }
    return .double
  | type => fail minus.pos (.negated type)

/-- Applies the operators that are due before the next one. -/
def makeWay (out : Section) (pending : Pending) (next : Operator) : Analysis σ Pending := do
  let (pending, code) ← orFail (pending.makeWayFor next)
  emitAll out code
  return pending

/-- Applies the operators that still wait, and gives the type of the expression. -/
def conclude (out : Section) (pending : Pending) : Analysis σ ValueType := do
  let (pending, code) ← orFail pending.finish
  emitAll out code
  match pending.types.getLast? with
  | some type => return type
  | none => breach .noOperand

/-- An operand of an expression from its first token on; `value` compiles an expression in it, `inner` the operand after a minus,
and `arguments` the arguments of a call. -/
def operandFrom (out : Section) (value inner : Analysis σ ValueType) (arguments : Token → List ValueType → Analysis σ Nat)
    (token : Token) : Analysis σ ValueType :=
  match token.kind with
  | .uintLit => do
    emit out { op := .push, operand := token.int }
    return .int
  | .doubleLit => do
    emit out { op := .push, operand := token.bits.toInt64 }
    return .double
  | .stringLit | .charLit => do
    emit out (.withNat .push (← literalSlot token.lexeme))
    return .int
  | .lparen => do
    let type ← value
    let _ ← expect .rparen
    return type
  | .minus => do
    let type ← inner
    negate out token type
  | .identifier => do
    match (← peek).kind with
    | .assign =>
      let _ ← next
      assignment out token value
    | .lparen => call out token (arguments token)
    | _ => load out token
  | kind => fail token.pos (.expectedExpression kind token.lexeme)

/-- An operand of an expression. -/
def operandWith (out : Section) (value inner : Analysis σ ValueType)
    (arguments : Token → List ValueType → Analysis σ Nat) : Analysis σ ValueType := do
  operandFrom out value inner arguments (← next)

/-- An argument of a call, and those after it or the closing parenthesis; `value` compiles an argument and `more` the arguments
after a comma. Gives their number. -/
def argumentWith (name : Token) (value : Analysis σ ValueType) (more : Analysis σ Nat) (count : Nat)
    (params : List ValueType) : Analysis σ Nat := do
  let first ← peek
  let type ← value
  checkArgument first.pos name params count type
  if ← accept .comma then more
  else
    let _ ← expect .rparen
    return count + 1

mutual

/-- An expression. Gives its type. -/
def expression (out : Section) : Nat → Analysis σ ValueType
  | 0 => breach .tooDeep
  | depth + 1 => do
    let type ← operand out depth
    operators out depth (.single type)

/-- The operators of an expression, each with its right operand. -/
def operators (out : Section) : Nat → Pending → Analysis σ ValueType
  | 0, _ => breach .tooDeep
  | depth + 1, pending => do
    let token ← peek
    match Operator.ofKind? token.kind with
    | none => conclude out pending
    | some op =>
      let pending ← makeWay out pending op
      let _ ← next
      let type ← if op = .cast then Prod.snd <$> typeName else operand out depth
      operators out depth (pending.shift op token.pos type)

/-- An operand of an expression. -/
def operand (out : Section) : Nat → Analysis σ ValueType
  | 0 => breach .tooDeep
  | depth + 1 =>
    operandWith out (expression out depth) (operand out depth) fun name params => arguments out name depth 0 params

/-- The arguments of a call from one on, with the closing parenthesis. Gives their number. -/
def arguments (out : Section) (name : Token) : Nat → Nat → List ValueType → Analysis σ Nat
  | 0, _, _ => breach .tooDeep
  | depth + 1, count, params =>
    argumentWith name (expression out depth) (arguments out name depth (count + 1) params) count params

end

end Analysis

end OnePass

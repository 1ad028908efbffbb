import OnePass.Types
import OnePass.Operator

/-!
# Diagnostics

What can be wrong with a source text, as a cause with the names and types it speaks of. The wording of every cause is in
`Fault.message`, and its class in `Fault.kind`; a diagnostic is a cause at a position.
-/

namespace OnePass

/-- The classes of faults. A number from outside may name none of them. -/
inductive FaultKind where
  | lexical
  | unexpectedToken
  | malformedExpression
  | duplicateDeclaration
  | notDeclared
  | assignToConstant
  | notInitialized
  | typeMismatch
  | breakOutsideLoop
  | continueOutsideLoop
  | unknownFunction
  | missingReturn
  | noMain
  | foreign (number : Int)
  deriving DecidableEq, Repr, Inhabited

namespace FaultKind

/-- The classes in the order of their numbers. -/
def all : List FaultKind :=
  [lexical, unexpectedToken, malformedExpression, duplicateDeclaration, notDeclared, assignToConstant, notInitialized,
    typeMismatch, breakOutsideLoop, continueOutsideLoop, unknownFunction, missingReturn, noMain]

/-- The class with a number. -/
def ofNumber (n : Int) : FaultKind := if n < 0 then foreign n else (all[n.toNat]?).getD (foreign n)

/-- The name of a class. -/
def name : FaultKind → Bytes
  | lexical => Bytes.ofString "lexical error"
  | unexpectedToken => Bytes.ofString "unexpected token"
  | malformedExpression => Bytes.ofString "malformed expression"
  | duplicateDeclaration => Bytes.ofString "duplicate declaration"
  | notDeclared => Bytes.ofString "not declared"
  | assignToConstant => Bytes.ofString "assignment to constant"
  | notInitialized => Bytes.ofString "not initialized"
  | typeMismatch => Bytes.ofString "type mismatch"
  | breakOutsideLoop => Bytes.ofString "break outside loop"
  | continueOutsideLoop => Bytes.ofString "continue outside loop"
  | unknownFunction => Bytes.ofString "unknown function"
  | missingReturn => Bytes.ofString "missing return"
  | noMain => Bytes.ofString "no main function"
  | foreign n => Bytes.ofString "ErrorKind(" ++ Bytes.ofInt n ++ Bytes.ofString ")"

end FaultKind

/-- What is wrong with a source text. -/
inductive Fault where
  | malformedExponent (text : Bytes)
  | invalidDouble (lexeme : Bytes)
  | integerOutOfRange (lexeme : Bytes)
  | unknownEscape (c : Char)
  | emptyCharacter
  | unterminatedCharacter
  | unterminatedString
  | unexpectedCharacter (c : Char)
  | expected (wanted got : TokenKind) (lexeme : Bytes)
  | expectedType (got : TokenKind) (lexeme : Bytes)
  | expectedDefinition (got : TokenKind) (lexeme : Bytes)
  | unclosedBlock
  | expectedExpression (got : TokenKind) (lexeme : Bytes)
  | missingOperand (op : Operator)
  | duplicate (name : Bytes)
  | undeclared (name : Bytes)
  | constantAssigned (name : Bytes)
  | unassigned (name : Bytes)
  | negated (type : ValueType)
  | functionAsValue (name : Bytes)
  | assigned (value wanted : ValueType) (name : Bytes)
  | argument (number : Nat) (function : Bytes) (wanted got : ValueType)
  | arity (function : Bytes) (wanted got : Nat)
  | voidParameter (name : Bytes)
  | voidVariable (name : Bytes)
  | initialValue (wanted : ValueType) (name : Bytes) (value : ValueType)
  | combined (op : Operator) (left right : ValueType)
  | casted (source target : ValueType)
  | valuelessCondition
  | valueInVoidReturn
  | valuelessReturn (wanted : ValueType)
  | returned (value wanted : ValueType)
  | strayBreak
  | strayContinue
  | notFunction (name : Bytes)
  | noFunction (name : Bytes)
  | openEnd (function : Bytes)
  | noMain
  | mainParameters
  deriving DecidableEq, Repr

namespace Fault

/-- The class of a fault. -/
def kind : Fault → FaultKind
  | malformedExponent _ | invalidDouble _ | integerOutOfRange _ | unknownEscape _ | emptyCharacter
  | unterminatedCharacter | unterminatedString | unexpectedCharacter _ => .lexical
  | expected .. | expectedType .. | expectedDefinition .. | unclosedBlock => .unexpectedToken
  | expectedExpression .. | missingOperand _ => .malformedExpression
  | duplicate _ => .duplicateDeclaration
  | undeclared _ => .notDeclared
  | constantAssigned _ => .assignToConstant
  | unassigned _ => .notInitialized
  | negated _ | functionAsValue _ | assigned .. | argument .. | arity .. | voidParameter _ | voidVariable _
  | initialValue .. | combined .. | casted .. | valuelessCondition | valueInVoidReturn | valuelessReturn _
  | returned .. => .typeMismatch
  | strayBreak => .breakOutsideLoop
  | strayContinue => .continueOutsideLoop
  | notFunction _ | noFunction _ => .unknownFunction
  | openEnd _ => .missingReturn
  | noMain | mainParameters => .noMain

/-- A token as a diagnostic shows it: its kind, and its lexeme in quotes. -/
def shown (got : TokenKind) (lexeme : Bytes) : Bytes :=
  got.name ++ Bytes.ofString " (" ++ Text.quote lexeme ++ Bytes.ofString ")"

/-- The wording of a fault. -/
def message : Fault → Bytes
  | malformedExponent text => Bytes.ofString "malformed exponent in " ++ Text.quote text
  | invalidDouble lexeme => Bytes.ofString "invalid double literal " ++ Text.quote lexeme
  | integerOutOfRange lexeme => Bytes.ofString "integer literal " ++ lexeme ++ Bytes.ofString " out of range"
  | unknownEscape c => Bytes.ofString "unknown escape sequence \\" ++ String.utf8EncodeChar c
  | emptyCharacter => Bytes.ofString "empty character literal"
  | unterminatedCharacter => Bytes.ofString "unterminated character literal"
  | unterminatedString => Bytes.ofString "unterminated string literal"
  | unexpectedCharacter c => Bytes.ofString "unexpected character " ++ Text.quoteChar c
  | expected wanted got lexeme =>
    Bytes.ofString "expected " ++ wanted.name ++ Bytes.ofString ", got " ++ shown got lexeme
  | expectedType got lexeme => Bytes.ofString "expected a type, got " ++ shown got lexeme
  | expectedDefinition got lexeme =>
    Bytes.ofString "expected fn, let or const at top level, got " ++ shown got lexeme
  | unclosedBlock => Bytes.ofString "expected RBRACE, got EOF"
  | expectedExpression got lexeme => Bytes.ofString "expected an expression, got " ++ shown got lexeme
  | missingOperand op => Bytes.ofString "operator " ++ op.text ++ Bytes.ofString " is missing an operand"
  | duplicate name => name ++ Bytes.ofString " is already declared in this scope"
  | undeclared name => name ++ Bytes.ofString " is not declared"
  | constantAssigned name => Bytes.ofString "cannot assign to constant " ++ name
  | unassigned name => name ++ Bytes.ofString " is read before it is assigned"
  | negated type => Bytes.ofString "cannot negate a value of type " ++ type.name
  | functionAsValue name => Bytes.ofString "function " ++ name ++ Bytes.ofString " used as a value"
  | assigned value wanted name =>
    Bytes.ofString "cannot assign a value of type " ++ value.name ++ Bytes.ofString " to " ++ wanted.name ++
      Bytes.ofString " " ++ name
  | argument number function wanted got =>
    Bytes.ofString "argument " ++ Bytes.ofNat number ++ Bytes.ofString " of " ++ function ++
      Bytes.ofString " must be " ++ wanted.name ++ Bytes.ofString ", got " ++ got.name
  | arity function wanted got =>
    function ++ Bytes.ofString " takes " ++ Bytes.ofNat wanted ++ Bytes.ofString " arguments, got " ++ Bytes.ofNat got
  | voidParameter name => Bytes.ofString "parameter " ++ name ++ Bytes.ofString " cannot have type void"
  | voidVariable name => Bytes.ofString "variable " ++ name ++ Bytes.ofString " cannot have type void"
  | initialValue wanted name value =>
    Bytes.ofString "cannot initialize " ++ wanted.name ++ Bytes.ofString " " ++ name ++
      Bytes.ofString " with a value of type " ++ value.name
  | combined op left right =>
    Bytes.ofString "operator " ++ op.text ++ Bytes.ofString " cannot combine " ++ left.name ++
      Bytes.ofString " and " ++ right.name
  | casted source target => Bytes.ofString "cannot cast " ++ source.name ++ Bytes.ofString " to " ++ target.name
  | valuelessCondition => Bytes.ofString "condition has no value"
  | valueInVoidReturn => Bytes.ofString "void function cannot return a value"
  | valuelessReturn wanted => Bytes.ofString "missing return value of type " ++ wanted.name
  | returned value wanted =>
    Bytes.ofString "cannot return " ++ value.name ++ Bytes.ofString " from a function returning " ++ wanted.name
  | strayBreak => Bytes.ofString "break statement outside of loop"
  | strayContinue => Bytes.ofString "continue statement outside of loop"
  | notFunction name => name ++ Bytes.ofString " is not a function"
  | noFunction name => Bytes.ofString "no function named " ++ name
  | openEnd function =>
    Bytes.ofString "function " ++ function ++ Bytes.ofString " does not return a value on every path"
  | noMain => Bytes.ofString "program has no function named main"
  | mainParameters => Bytes.ofString "main must not take parameters"

end Fault

/-- A fault at a position. -/
structure Diagnostic where
  pos : Pos
  fault : Fault
  deriving DecidableEq, Repr

/-- A diagnostic as it is reported: in words, and with the source line it points into, when that is known. -/
structure Report where
  kind : FaultKind
  pos : Pos
  message : Bytes
  snippet : Bytes := []
  deriving DecidableEq, Repr

/-- The words of a diagnostic. -/
def Diagnostic.report (d : Diagnostic) (snippet : Bytes) : Report := ⟨d.fault.kind, d.pos, d.fault.message, snippet⟩

/-- The text of a report, the source line below it. -/
def Report.text (r : Report) : Bytes :=
  Bytes.ofString "line " ++ r.pos.text ++ Bytes.ofString ": " ++ r.kind.name ++ Bytes.ofString ": " ++ r.message ++
    if r.snippet.isEmpty then [] else Bytes.ofString "\n  |> " ++ r.snippet

end OnePass

import OnePass.Machine.Step
import OnePass.Proofs.Shapes.Program

/-!
# Evaluating trees

What a program means, read off its syntax tree: operands are evaluated from left to right, arguments are passed by value, and each
call has cells of its own for its parameters and for all declarations in its body, which start out as zeros. Operations on
doubles, and reading and printing, are those of the machine.

Evaluation is given some fuel, as it may be endless: so deep may calls be nested, and so often may a loop be repeated. What an
evaluation gives when its fuel is used up (`Halt.timeout`) is what has happened so far. A tree that breaks the rules of the
language has no meaning (`Halt.stuck`).
-/

namespace OnePass

/-- What an expression may give. -/
inductive Datum where
  | void
  | int (n : Int64)
  | double (bits : UInt64)
  | bool (b : Bool)
  deriving DecidableEq, Repr

/-- What a name stands for: a variable, or the function with a place among the definitions. -/
inductive Referent where
  | global (x : Bytes)
  | argument (i : Nat)
  | local (i : Nat)
  | function (k : Nat)
  deriving DecidableEq, Repr

/-- The names in scope, the innermost first. -/
abbrev Environment := List (Bytes × Referent)

/-- What a program works on: its global variables, the cells of the call at work and the console. -/
structure Memory where
  globals : Bytes → Datum
  arguments : List Datum
  locals : List Datum
  console : Console

/-- Why an evaluation goes no further. -/
inductive Halt where
  | fault (f : MachineFault)
  /-- The fuel is used up. -/
  | timeout
  /-- The tree breaks a rule of the language. -/
  | stuck
  deriving DecidableEq, Repr

/-- A part of an evaluation. -/
abbrev Evaluation := ExceptT Halt (StateM Memory)

/-- What the evaluation of a tree relies on. -/
structure World where
  /-- The number that stands for a literal text. -/
  literal : Bytes → Int64
  /-- The text to print for a number. -/
  text? : UInt64 → Option Bytes
  /-- Calls the function with a place among the definitions. -/
  call : Nat → List Datum → Evaluation Datum
  /-- How often a loop may be repeated. -/
  fuel : Nat

/-! ## Data -/

/-- What a variable of the type starts out as. -/
def ValueType.zero : ValueType → Datum
  | int => .int 0
  | double => .double 0
  | _ => .void

/-- A condition that gives this holds, or does not. -/
def Datum.holds? : Datum → Option Bool
  | void => none
  | int n => some (n != 0)
  | double bits => some (bits != 0)
  | bool b => some b

namespace Operator

/-- What an operator makes of integers, which wrap around. -/
def onInts (a b : Int64) : Operator → Except Halt Datum
  | add => .ok (.int (a + b))
  | sub => .ok (.int (a - b))
  | mul => .ok (.int (a * b))
  | div => if b = 0 then .error (.fault .divideByZero) else .ok (.int (a / b))
  | gt => .ok (.bool (a > b))
  | lt => .ok (.bool (a < b))
  | ge => .ok (.bool (a ≥ b))
  | le => .ok (.bool (a ≤ b))
  | eq => .ok (.bool (a = b))
  | ne => .ok (.bool (a ≠ b))
  | cast => .error .stuck

/-- How doubles compare: less, greater, or else equal. -/
def order (less greater : Bool) : Ordering := if less then .lt else if greater then .gt else .eq

/-- What an operator makes of doubles. -/
def onDoubles (a b : UInt64) : Operator → Except Halt Datum
  | add => .ok (.double (Double.add a b))
  | sub => .ok (.double (Double.sub a b))
  | mul => .ok (.double (Double.mul a b))
  | div => .ok (.double (Double.div a b))
  | gt => .ok (.bool (order (Double.lt a b) (Double.lt b a) = .gt))
  | lt => .ok (.bool (order (Double.lt a b) (Double.lt b a) = .lt))
  | ge => .ok (.bool (order (Double.lt a b) (Double.lt b a) ≠ .lt))
  | le => .ok (.bool (order (Double.lt a b) (Double.lt b a) ≠ .gt))
  | eq => .ok (.bool (order (Double.lt a b) (Double.lt b a) = .eq))
  | ne => .ok (.bool (order (Double.lt a b) (Double.lt b a) ≠ .eq))
  | cast => .error .stuck

/-- What an operator makes of its operands. -/
def apply (op : Operator) : Datum → Datum → Except Halt Datum
  | .int a, .int b => op.onInts a b
  | .double a, .double b => op.onDoubles a b
  | _, _ => .error .stuck

end Operator

namespace Datum

/-- The negative of a number. -/
def negate : Datum → Except Halt Datum
  | int n => .ok (.int (-n))
  | double bits => .ok (.double (Double.neg bits))
  | _ => .error .stuck

/-- A number as one of another type. -/
def convert : Datum → TypeName → Except Halt Datum
  | int n, .int => .ok (.int n)
  | int n, .double => .ok (.double (Double.ofInt64 n))
  | double bits, .int => .ok (.int (Double.toInt64 bits))
  | double bits, .double => .ok (.double bits)
  | _, _ => .error .stuck

end Datum

/-- What was read from the console for a primitive, with the console then. -/
def Primitive.given {α : Type} (primitive : Primitive) (c : Console) (datum : α → Datum) :
    Except InputError α × Bytes → Except Halt Datum × Console
  | (.ok a, rest) => (.ok (datum a), { c with input := rest })
  | (.error e, rest) => (.error (.fault (.input primitive e)), { c with input := rest })

/-- What a primitive does with its arguments and the console. -/
def Primitive.perform (text? : UInt64 → Option Bytes) (c : Console) : Primitive → List Datum → Except Halt Datum × Console
  | getint, [] => getint.given c .int (Input.readInt c.input)
  | getchar, [] => getchar.given c (fun b => .int b.toInt64) (Exec.readByte c.input)
  | getdouble, [] => getdouble.given c .double (Input.readDouble c.input)
  | putint, [.int n] => (.ok .void, c.write (Bytes.ofInt n.toInt))
  | putchar, [.int n] => (.ok .void, c.write [n.toUInt64.toUInt8])
  | putstr, [.int n] =>
    match text? n.toUInt64 with
    | some text => (.ok .void, c.write text)
    | none => (.error (.fault (.noText n.toUInt64)), c)
  | putdouble, [.double bits] => (.ok .void, c.write (Double.text bits))
  | putln, [] => (.ok .void, c.write [0x0a])
  | _, _ => (.error .stuck, c)

/-! ## Memory -/

namespace Referent

/-- The datum in a variable. -/
def read? (m : Memory) : Referent → Option Datum
  | global x => some (m.globals x)
  | argument i => m.arguments[i]?
  | .local i => m.locals[i]?
  | function _ => none

/-- The memory with another datum in a variable. -/
def write (a : Datum) (m : Memory) : Referent → Memory
  | global x => { m with globals := fun y => if y = x then a else m.globals y }
  | argument i => { m with arguments := m.arguments.set i a }
  | .local i => { m with locals := m.locals.set i a }
  | function _ => m

end Referent

namespace Evaluation

/-- Goes on with what a computation gives. -/
def lift {α : Type} (r : Except Halt α) : Evaluation α :=
  match r with
  | .ok a => return a
  | .error h => throw h

/-- What a name stands for. -/
def find (N : Environment) (x : Bytes) : Evaluation Referent :=
  match N.lookup x with
  | some r => return r
  | none => throw .stuck

/-- The datum in a variable. -/
def load (r : Referent) : Evaluation Datum := do
  match r.read? (← get) with
  | some a => return a
  | none => throw .stuck

/-- Puts a datum into a variable. -/
def store (r : Referent) (a : Datum) : Evaluation Unit := modify fun m => r.write a m

/-- Calls a primitive. -/
def perform (W : World) (primitive : Primitive) (args : List Datum) : Evaluation Datum := do
  let m ← get
  set { m with console := (primitive.perform W.text? m.console args).2 }
  lift (primitive.perform W.text? m.console args).1

/-- Calls what a name stands for, a function or else a primitive. -/
def invoke (W : World) (N : Environment) (f : Bytes) (args : List Datum) : Evaluation Datum :=
  match N.lookup f with
  | some (.function k) => W.call k args
  | some _ => throw .stuck
  | none =>
    match Primitive.ofName? f with
    | some primitive => perform W primitive args
    | none => throw .stuck

end Evaluation

open Evaluation

/-! ## Expressions -/

mutual

/-- What an expression gives. -/
def Expr.eval (W : World) (N : Environment) : Expr → Evaluation Datum
  | .int n => return .int n
  | .double bits => return .double bits
  | .text _ content => return .int (W.literal content)
  | .name x => do load (← find N x)
  | .assign x value => do
    let a ← value.eval W N
    store (← find N x) a
    return .void
  | .call f args => do invoke W N f (← args.eval W N)
  | .paren e => e.eval W N
  | .neg e => do lift (← e.eval W N).negate
  | .binary op left right => do
    let a ← left.eval W N
    let b ← right.eval W N
    lift (op.apply a b)
  | .cast e target => do lift ((← e.eval W N).convert target)

/-- What the arguments of a call give. -/
def Args.eval (W : World) (N : Environment) : Args → Evaluation (List Datum)
  | .nil => return []
  | .cons first rest => do
    let a ← first.eval W N
    let as ← rest.eval W N
    return a :: as

end

/-! ## Statements -/

/-- How a statement ends. -/
inductive Completion where
  | normal
  | break
  | continue
  | return (a : Datum)
  deriving DecidableEq, Repr

/-- A condition holds, or does not. -/
def Expr.test (W : World) (N : Environment) (e : Expr) : Evaluation Bool := do
  match (← e.eval W N).holds? with
  | some b => return b
  | none => throw .stuck

/-- Gives a declared variable its initial value, if there is one. -/
def Declaration.exec (W : World) (N : Environment) (r : Referent) (d : Declaration) : Evaluation Unit :=
  match d.value? with
  | none => return ()
  | some e => do store r (← e.eval W ((d.name, r) :: N))

/-- A loop that may be repeated so often. -/
def Evaluation.iterate (test : Evaluation Bool) (body : Evaluation Completion) : Nat → Evaluation Completion
  | 0 => throw .timeout
  | fuel + 1 => do
    if ← test then
      match ← body with
      | .normal | .continue => iterate test body fuel
      | .break => return .normal
      | .return a => return .return a
    else return .normal

/-- The name that a statement adds to those of its block, if the next cell is `n`. -/
def Stmt.environment (n : Nat) : Stmt → Environment
  | .declare d => [(d.name, .local n)]
  | _ => []

mutual

/-- Carries out a statement, the first declaration in which has the cell `n`. -/
def Stmt.exec (W : World) (N : Environment) (n : Nat) : Stmt → Evaluation Completion
  | .declare d => do
    d.exec W N (.local n)
    return .normal
  | .branch branches => branches.exec W N n
  | .loop condition body => iterate (condition.test W N) (body.exec W N n) W.fuel
  | .break => return .break
  | .continue => return .continue
  | .return none => return .return .void
  | .return (some value) => do return .return (← value.eval W N)
  | .block body => body.exec W N n
  | .empty => return .normal
  | .effect e => do
    let _ ← e.eval W N
    return .normal

/-- Carries out the statements of a block one after another. -/
def Block.exec (W : World) (N : Environment) (n : Nat) : Block → Evaluation Completion
  | .nil => return .normal
  | .cons first rest => do
    match ← first.exec W N n with
    | .normal => rest.exec W (first.environment n ++ N) (n + first.locals.length)
    | c => return c

/-- Carries out the branch whose condition holds first. -/
def Branches.exec (W : World) (N : Environment) (n : Nat) : Branches → Evaluation Completion
  | .only condition body => do if ← condition.test W N then body.exec W N n else return .normal
  | .orElse condition body otherwise => do
    if ← condition.test W N then body.exec W N n else otherwise.exec W N (n + body.locals.length)
  | .orIf condition body rest => do
    if ← condition.test W N then body.exec W N n else rest.exec W N (n + body.locals.length)

end

/-! ## Programs -/

/-- The names of parameters, whose first has this cell, the last parameter first. -/
def Param.environment (i : Nat) : List Param → Environment
  | [] => []
  | p :: ps => Param.environment (i + 1) ps ++ [(p.name, .argument i)]

/-- What the name of the definition with this place stands for. -/
def Definition.referent (k : Nat) : Definition → Referent
  | function .. => .function k
  | global d => .global d.name

/-- The names of definitions, of which the first has the place `k`, the last definition first. -/
def Source.environment (k : Nat) : Source → Environment
  | [] => []
  | d :: ds => Source.environment (k + 1) ds ++ [(d.name, d.referent k)]

/-- What a call gives. -/
def Completion.result : Completion → Except Halt Datum
  | normal => .ok .void
  | .return a => .ok a
  | .break | .continue => .error .stuck

namespace Source

variable (A : Source) (literal : Bytes → Int64) (text? : UInt64 → Option Bytes)

/-- Calls the function with a place among the definitions. Its body sees the definitions up to its own. -/
def call : Nat → Nat → List Datum → Evaluation Datum
  | 0, _, _ => throw .timeout
  | fuel + 1, k, args =>
    match A[k]? with
    | some (.function _ params _ body) => do
      let caller ← get
      set { caller with arguments := args, locals := body.locals.map fun d : Declaration => d.type.type.zero }
      let c ← body.exec ⟨literal, text?, call fuel, fuel⟩ (Param.environment 0 params ++ environment 0 (A.take (k + 1))) 0
      modify fun m => { m with arguments := caller.arguments, locals := caller.locals }
      lift c.result
    | _ => throw .stuck

/-- Gives the global variables their initial values, in the order of the text, and then calls the main function. -/
def exec (W : World) (N : Environment) : Nat → Source → Evaluation Unit
  | _, [] => do
    match N.lookup Analysis.mainName with
    | some (.function k) =>
      let _ ← W.call k []
    | _ => throw .stuck
  | k, .function name _ _ _ :: ds => exec W ((name, .function k) :: N) (k + 1) ds
  | k, .global d :: ds => do
    d.exec W N (.global d.name)
    exec W ((d.name, .global d.name) :: N) (k + 1) ds

/-- The memory at the start, with every global variable zero. -/
def initial (input : Bytes) : Memory where
  globals x := ((A.typeOf? x).map ValueType.zero).getD .void
  arguments := []
  locals := []
  console := { input }

/-- Evaluates a program on an input. -/
def evaluate (fuel : Nat) (input : Bytes) : Except Halt Unit × Memory :=
  (exec ⟨literal, text?, A.call literal text? fuel, fuel⟩ [] 0 A).run (A.initial input)

end Source

end OnePass

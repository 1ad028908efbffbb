import OnePass.Analysis.Definition
import OnePass.Proofs.Grammar

/-!
# Translating trees

The code of a program, read off its syntax tree. Scopes are lists of names here, branches are measured on lists of items, and
nothing is patched: the distance of a branch is the length of what it skips. Translating a tree fails where the program breaks a
rule.
-/

namespace OnePass

/-! ## Names -/

/-- Where a variable lives. -/
inductive Home where
  | global (slot : Nat)
  | local (slot : Nat)
  | argument (slot : Nat)
  deriving DecidableEq, Repr

/-- The instruction that pushes the address of a home. -/
def Home.address : Home → Instruction
  | global slot => { op := .globA, operand := Int64.ofInt slot }
  | .local slot => { op := .locA, operand := Int64.ofInt slot }
  | argument slot => { op := .argA, operand := Int64.ofInt slot }

/-- What a name stands for. -/
inductive Binding where
  | variable (type : ValueType) (const assigned : Bool) (home : Home)
  | function (params : List ValueType) (returns : ValueType) (number slot : Nat)
  deriving DecidableEq, Repr

/-- The entry of a variable that has a value from here on. -/
def Binding.assign : Binding → Binding
  | .variable type const _ home => .variable type const true home
  | entry => entry

/-- The names of a scope, the latest first. -/
abbrev Scope := List (Bytes × Binding)

/-- The scope with a value for the variable of a name. -/
def Scope.assign (x : Bytes) : Scope → Scope
  | [] => []
  | (y, entry) :: scope => if x = y then (y, entry.assign) :: scope else (y, entry) :: Scope.assign x scope

/-- The open scopes, the innermost first. -/
abbrev Scopes := List Scope

namespace Scopes

/-- What a name stands for in the innermost scope that declares it. -/
def find? (scopes : Scopes) (x : Bytes) : Option Binding := scopes.flatten.lookup x

/-- The scopes with a value for the variable that a name stands for. -/
def assign (x : Bytes) : Scopes → Scopes
  | [] => []
  | scope :: scopes => if (scope.lookup x).isSome then scope.assign x :: scopes else scope :: assign x scopes

end Scopes

/-- What a global of the pool is there for. -/
inductive PoolEntry where
  | function (x : Bytes)
  | variable (const : Bool) (x : Bytes)
  | literal (content : Bytes)
  | primitive (x : Bytes)
  deriving DecidableEq, Repr

/-- The global of a pool entry. -/
def PoolEntry.global : PoolEntry → Global
  | .function x => { const := true, value := some x }
  | .variable const x => { const, name := x }
  | .literal content => { const := true, value := some content }
  | .primitive x => { const := true, value := some x }

/-- What is known at a point of a program. -/
structure Context where
  scopes : Scopes
  pool : List PoolEntry
  /-- The number of locals of the function so far. -/
  locals : Nat := 0
  /-- The number of functions so far, with the entry routine. -/
  functions : Nat := 1

/-- A part of a translation. -/
abbrev Translation := StateT Context Option

namespace Translation

/-- Goes on only if a condition holds. -/
def require (p : Prop) [Decidable p] : Translation Unit := if p then return () else failure

/-- What a name stands for. -/
def find? (x : Bytes) : Translation (Option Binding) := return (← get).scopes.find? x

/-- The slot of a pool entry, which is added at its first use. -/
def slotOf (entry : PoolEntry) : Translation Nat := fun c =>
  match c.pool.idxOf? entry with
  | some slot => some (slot, c)
  | none => some (c.pool.length, { c with pool := c.pool ++ [entry] })

/-- Notes that the variable of a name has a value from here on. -/
def assign (x : Bytes) : Translation Unit := modify fun c => { c with scopes := c.scopes.assign x }

/-- Declares a name in the innermost scope, which must not have it yet. -/
def declare (x : Bytes) (entry : Binding) : Translation Unit := fun c =>
  match c.scopes with
  | scope :: scopes =>
    if (scope.lookup x).isSome then none else some ((), { c with scopes := ((x, entry) :: scope) :: scopes })
  | [] => none

/-- Does something in a scope of its own. -/
def inScope {α : Type} (m : Translation α) : Translation α := do
  modify fun c => { c with scopes := [] :: c.scopes }
  let a ← m
  modify fun c => { c with scopes := c.scopes.tail }
  return a

/-- The function of a name, or else the primitive. -/
def callee (f : Bytes) : Translation Analysis.Callee := do
  match ← find? f with
  | some (.function params returns number _) => return ⟨⟨params, returns⟩, .call, number⟩
  | some (.variable ..) => failure
  | none =>
    match Primitive.ofName? f with
    | some primitive => return ⟨primitive.signature, .callName, ← slotOf (.primitive f)⟩
    | none => failure

/-- The code of an operator on operands of these types. -/
def operation (op : Operator) (left right : ValueType) : Translation (List Instruction × ValueType) :=
  match op.code left right with
  | .ok r => return r
  | .error _ => failure

/-- The code that negates a value. -/
def negation : ValueType → Translation (ValueType × List Instruction)
  | .int => return (.int, [{ op := .negI }])
  | .double => return (.double, [{ op := .negF }])
  | _ => failure

end Translation

open Translation

/-! ## Expressions -/

mutual

/-- The type and the code of an expression. -/
def Expr.translate : Expr → Translation (ValueType × List Instruction)
  | .int value => return (.int, [{ op := .push, operand := value }])
  | .double bits => return (.double, [{ op := .push, operand := bits.toInt64 }])
  | .text _ content => do return (.int, [.withNat .push (← slotOf (.literal content))])
  | .name x => do
    match ← find? x with
    | some (.variable type _ true home) => return (type, [home.address, { op := .load }])
    | _ => failure
  | .assign x value => do
    match ← find? x with
    | some (.variable type false _ home) =>
      let (τ, code) ← value.translate
      require (τ = type)
      assign x
      return (.void, home.address :: code ++ [{ op := .store }])
    | _ => failure
  | .call f args => do
    let c ← callee f
    let (count, code) ← args.translate c.signature.params
    require (count = c.signature.params.length)
    return (c.signature.returns, .withNat .stackAlloc c.signature.returns.slots :: code ++ [.withNat c.op c.operand])
  | .paren e => e.translate
  | .neg e => do
    let (τ, code) ← e.translate
    let (type, more) ← negation τ
    return (type, code ++ more)
  | .binary op left right => do
    let (τ1, code1) ← left.translate
    let (τ2, code2) ← right.translate
    let (more, type) ← operation op τ1 τ2
    return (type, code1 ++ code2 ++ more)
  | .cast e target => do
    let (τ, code) ← e.translate
    let (more, type) ← operation .cast τ target.type
    return (type, code ++ more)

/-- The number and the code of the arguments for these parameters; one too many is counted only. -/
def Args.translate (params : List ValueType) : Args → Translation (Nat × List Instruction)
  | .nil => return (0, [])
  | .cons first rest => do
    let (τ, code) ← first.translate
    require (∀ wanted ∈ params.head?, τ = wanted)
    let (count, more) ← rest.translate params.tail
    return (count + 1, code ++ more)

end

/-! ## Statements -/

mutual

/-- What a statement does on every path through it. -/
def Stmt.flow : Stmt → Flow
  | .branch branches => branches.flow
  | .break | .continue => { breaks := true }
  | .return _ => { returns := true }
  | .block body => body.flow
  | .declare _ | .loop _ _ | .empty | .effect _ => {}

/-- What the first statement of a block that leaves it does. -/
def Block.flow : Block → Flow
  | .nil => {}
  | .cons first rest => if first.flow.leaves then first.flow else rest.flow

/-- What all branches of an `if` do, if there is an `else`. -/
def Branches.flow : Branches → Flow
  | .only _ _ => {}
  | .orElse _ body otherwise => body.flow.both otherwise.flow
  | .orIf _ body rest => body.flow.both rest.flow

end

/-- An instruction of a statement, or a branch whose target is known when the loop around it is closed. -/
inductive Item where
  | instr (i : Instruction)
  /-- The branch out of the loop. -/
  | exit
  /-- The branch back to the start of the loop. -/
  | again
  deriving DecidableEq, Repr

/-- Instructions that are complete. -/
def plain (code : List Instruction) : List Item := code.map .instr

/-- A branch by a distance. -/
def branchBy (distance : Int) : Instruction := { op := .br, operand := Int64.ofInt distance }

namespace Item

/-- The instruction at a place, in a loop that starts and ends at these. -/
def close (first stop place : Nat) : Item → Instruction
  | instr i => i
  | exit => branchBy (stop - (place + 1))
  | again => branchBy (first - (place + 1))

end Item

/-- The items of a loop: its condition, the branch out of it if that does not hold, its body, and the branch back. -/
def loopItems (test : List Instruction) (body : List Item) (breaks : Bool) : List Item :=
  plain test ++ .exit :: (body ++ if breaks then [] else [.again])

/-- The code of a loop. -/
def closedLoop (items : List Item) : List Instruction := items.mapIdx (Item.close 0 items.length)

/-- The code of a condition: if it holds, the branch after it is skipped. -/
def Translation.test (e : Expr) : Translation (List Instruction) := do
  let (τ, code) ← e.translate
  require (τ ≠ .void)
  return code ++ [{ op := .brTrue, operand := 1 }]

/-- The condition and the body of a branch of an `if`; if the condition does not hold, the body and what ends it are skipped. -/
def armHead (test : List Instruction) (body : List Item) : List Item :=
  plain test ++ .instr (branchBy (body.length + 1)) :: body

/-- One branch of an `if` before the others. -/
def armItems (test : List Instruction) (body others : List Item) : List Item :=
  armHead test body ++ .instr (branchBy others.length) :: others

/-- The code of a declaration whose variable has this home: that of its initial value, if there is one. -/
def Declaration.translate (d : Declaration) (home : Home) : Translation (List Instruction) := do
  require (d.type.type ≠ .void)
  declare d.name (.variable d.type.type d.isConst false home)
  match d.value? with
  | none => return []
  | some value =>
    let (τ, code) ← value.translate
    require (τ = d.type.type)
    assign d.name
    return home.address :: code ++ [{ op := .store }]

/-- The code of a declaration in a function, which takes the next local. -/
def Declaration.translateLocal (d : Declaration) : Translation (List Instruction) := do
  let slot ← modifyGet fun c => (c.locals, { c with locals := c.locals + 1 })
  d.translate (.local slot)

mutual

/-- The items of a statement in a function that returns a type. -/
def Stmt.translate (returns : ValueType) (inLoop : Bool) : Stmt → Translation (List Item)
  | .declare d => do return plain (← d.translateLocal)
  | .branch branches => branches.translate returns inLoop
  | .loop condition body => do
    let test ← test condition
    let items ← inScope (body.translate returns true)
    return plain (closedLoop (loopItems test items body.flow.breaks))
  | .break => do
    require (inLoop = true)
    return [.exit]
  | .continue => do
    require (inLoop = true)
    return [.again]
  | .return none => do
    require (returns = .void)
    return [.instr { op := .ret }]
  | .return (some value) => do
    require (returns ≠ .void)
    let (τ, code) ← value.translate
    require (τ = returns)
    return plain ({ op := .argA } :: code ++ [{ op := .store }, { op := .ret }])
  | .block body => inScope (body.translate returns inLoop)
  | .empty => return []
  | .effect e => do
    let (τ, code) ← e.translate
    return plain (code ++ if τ = .void then [] else [{ op := .pop }])

/-- The items of a block, up to the first statement that leaves it. -/
def Block.translate (returns : ValueType) (inLoop : Bool) : Block → Translation (List Item)
  | .nil => return []
  | .cons first rest => do
    let items ← first.translate returns inLoop
    let more ← rest.translate returns inLoop
    return if first.flow.leaves then items else items ++ more

/-- The items of the branches of an `if`. -/
def Branches.translate (returns : ValueType) (inLoop : Bool) : Branches → Translation (List Item)
  | .only condition body => do
    let test ← test condition
    let items ← inScope (body.translate returns inLoop)
    return armItems test items []
  | .orElse condition body otherwise => do
    let test ← test condition
    let items ← inScope (body.translate returns inLoop)
    let others ← inScope (otherwise.translate returns inLoop)
    return armItems test items others
  | .orIf condition body rest => do
    let test ← test condition
    let items ← inScope (body.translate returns inLoop)
    let others ← rest.translate returns inLoop
    return armItems test items others

end

/-! ## Definitions -/

/-- Declares the parameters of a function, which stand after the slots of its return value. -/
def Param.translate (slot : Nat) : List Param → Translation Unit
  | [] => return ()
  | p :: ps => do
    require (p.type.type ≠ .void)
    declare p.name (.variable p.type.type p.const true (.argument slot))
    Param.translate (slot + 1) ps

/-- Adds a pool entry, also if there is one like it. -/
def Translation.addEntry (entry : PoolEntry) : Translation Nat :=
  modifyGet fun c => (c.pool.length, { c with pool := c.pool ++ [entry] })

/-- The code of a function's body, which needs no more branches than its own. -/
def bodyCode (items : List Item) (flow : Flow) : List Instruction :=
  items.mapIdx (Item.close 0 0) ++ if flow.returns then [] else [{ op := .ret }]

/-- What a definition adds to a program: a function, or code of the entry routine. -/
inductive Output where
  | function (f : Function)
  | entry (code : List Instruction)

/-- The output of a definition. -/
def Definition.translate : Definition → Translation Output
  | .function name params returns body => do
    let number ← modifyGet fun c => (c.functions, { c with functions := c.functions + 1, locals := 0 })
    let slot ← addEntry (.function name)
    declare name (.function (params.map (·.type.type)) returns.type number slot)
    let items ← inScope do
      Param.translate returns.type.slots params
      body.translate returns.type false
    require (body.flow.returns = true ∨ returns.type = .void)
    let locals := (← get).locals
    return .function {
      header := {
        slot := .ofNat slot
        returns := .ofNat returns.type.slots
        params := .ofNat params.length
        locals := .ofNat locals }
      code := (bodyCode items body.flow).toArray }
  | .global d => do
    let slot ← addEntry (.variable d.isConst d.name)
    return .entry (← d.translate (.global slot))

namespace Source

/-- The outputs of the definitions of a program. -/
def outputs : Source → Translation (List Output)
  | [] => return []
  | d :: ds => do return (← d.translate) :: (← outputs ds)

/-- The functions among outputs. -/
def functionsOf (outputs : List Output) : List Function :=
  outputs.filterMap fun | .function f => some f | .entry _ => none

/-- The code of the entry routine among outputs. -/
def entryOf (outputs : List Output) : List Instruction :=
  outputs.flatMap fun | .function _ => [] | .entry code => code

/-- The call of the main function. -/
def mainCall : Translation (List Instruction) := do
  match ← Translation.find? Analysis.mainName with
  | some (.function [] returns number _) =>
    return [.withNat .stackAlloc returns.slots, .withNat .call number] ++
      if returns = .void then [] else [.withNat .popN returns.slots]
  | _ => failure

/-- The functions of a program, the entry routine first. -/
def table (outputs : List Output) (call : List Instruction) : List Function :=
  { header := {}, code := (entryOf outputs ++ call).toArray } :: functionsOf outputs

/-- What is known at the start of a program: the entry routine. -/
def start : Context := { scopes := [[]], pool := [.function Analysis.entryName] }

/-- The program of a tree. -/
def translate (p : Source) : Option Program := do
  let ((outputs, call), c) ← (do return (← p.outputs, ← mainCall) : Translation _).run start
  return { globals := (c.pool.map PoolEntry.global).toArray, functions := (table outputs call).toArray }

end Source

end OnePass

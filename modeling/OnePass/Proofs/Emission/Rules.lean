import OnePass.Proofs.Emission.Pool

/-!
# Rules of emission

What code a tree has, as rules: `e.Emits P N τ code` says that with the pool `P` and the names `N` the expression has this type
and this code. Unlike a translation, a rule has no context that changes: the pool is that of the finished program, the names are
those in scope, and whether they have a value yet is forgotten. What holds of the code of all programs is proved on the rules.
-/

namespace OnePass

/-! ## Expressions -/

mutual

/-- With this pool and these names the expression has this type and this code. -/
inductive Expr.Emits (P : List PoolEntry) (N : Scope) : Expr → ValueType → List Instruction → Prop where
  | int (value : Int64) : Expr.Emits P N (.int value) .int [{ op := .push, operand := value }]
  | double (bits : UInt64) : Expr.Emits P N (.double bits) .double [{ op := .push, operand := bits.toInt64 }]
  | text (quote : Quote) {content slot} (hslot : P.idxOf? (.literal content) = some slot) :
    Expr.Emits P N (.text quote content) .int [.withNat .push slot]
  | name {x type const assigned} {home : Home}
    (hx : N.lookup x = some (.variable type const assigned home)) :
    Expr.Emits P N (.name x) type [home.address, { op := .load }]
  | assign {x value type assigned} {home : Home} {code}
    (hx : N.lookup x = some (.variable type false assigned home)) (hvalue : Expr.Emits P N value type code) :
    Expr.Emits P N (.assign x value) .void (home.address :: code ++ [{ op := .store }])
  | function {f args params} {returns : ValueType} {number slot code}
    (hf : N.lookup f = some (.function params returns number slot)) (hargs : Args.Emits P N params args code) :
    Expr.Emits P N (.call f args) returns (.withNat .stackAlloc returns.slots :: code ++ [.withNat .call number])
  | primitive {f args} {routine : Primitive} {slot code} (hf : N.lookup f = none)
    (hroutine : Primitive.ofName? f = some routine) (hslot : P.idxOf? (.primitive f) = some slot)
    (hargs : Args.Emits P N routine.signature.params args code) :
    Expr.Emits P N (.call f args) routine.signature.returns
      (.withNat .stackAlloc routine.signature.returns.slots :: code ++ [.withNat .callName slot])
  | paren {e τ code} (he : Expr.Emits P N e τ code) : Expr.Emits P N (.paren e) τ code
  | negInt {e code} (he : Expr.Emits P N e .int code) :
    Expr.Emits P N (.neg e) .int (code ++ [{ op := .negI }])
  | negDouble {e code} (he : Expr.Emits P N e .double code) :
    Expr.Emits P N (.neg e) .double (code ++ [{ op := .negF }])
  | binary {op : Operator} {left right τ1 τ2 τ code1 code2 more}
    (hcast : op ≠ .cast) (hleft : Expr.Emits P N left τ1 code1) (hright : Expr.Emits P N right τ2 code2)
    (hop : op.code τ1 τ2 = .ok (more, τ)) : Expr.Emits P N (.binary op left right) τ (code1 ++ code2 ++ more)
  | cast {e} {target : TypeName} {τ1 τ code more} (he : Expr.Emits P N e τ1 code)
    (hop : Operator.cast.code τ1 target.type = .ok (more, τ)) : Expr.Emits P N (.cast e target) τ (code ++ more)

/-- With this pool and these names the arguments are of these types and have this code. -/
inductive Args.Emits (P : List PoolEntry) (N : Scope) : List ValueType → Args → List Instruction → Prop where
  | nil : Args.Emits P N [] .nil []
  | cons {first rest τ params code more}
    (hfirst : Expr.Emits P N first τ code) (hrest : Args.Emits P N params rest more) :
    Args.Emits P N (τ :: params) (.cons first rest) (code ++ more)

end

/-! ## Statements -/

/-- The name that a declaration gives to a variable with this home. -/
def Declaration.entry (d : Declaration) (home : Home) : Bytes × Binding :=
  (d.name, .variable d.type.type d.isConst true home)

/-- The code of a declaration whose variable has this home. -/
inductive Declaration.Emits (P : List PoolEntry) (N : Scope) (d : Declaration) (home : Home) : List Instruction → Prop where
  | bare (htype : d.type.type ≠ .void) (hvalue : d.value? = none) : Declaration.Emits P N d home []
  | value {e : Expr} {code} (htype : d.type.type ≠ .void) (hvalue : d.value? = some e)
    (he : e.Emits P (d.entry home :: N) d.type.type code) :
    Declaration.Emits P N d home (home.address :: code ++ [{ op := .store }])

mutual

/-- The declarations in a statement, in the order of the text. -/
def Stmt.locals : Stmt → List Declaration
  | .declare d => [d]
  | .branch branches => branches.locals
  | .loop _ body => body.locals
  | .block body => body.locals
  | .break | .continue | .return _ | .empty | .effect _ => []

/-- The declarations in a block. -/
def Block.locals : Block → List Declaration
  | .nil => []
  | .cons first rest => first.locals ++ rest.locals

/-- The declarations in the branches of an `if`. -/
def Branches.locals : Branches → List Declaration
  | .only _ body => body.locals
  | .orElse _ body otherwise => body.locals ++ otherwise.locals
  | .orIf _ body rest => body.locals ++ rest.locals

end

/-- The names that a statement adds to those of its block, if the next local is `n`. -/
def Stmt.scope (n : Nat) : Stmt → Scope
  | .declare d => [d.entry (.local n)]
  | _ => []

/-- The code of a condition, which skips the branch after it. -/
def testCode (code : List Instruction) : List Instruction := code ++ [{ op := .brTrue, operand := 1 }]

mutual

/-- In a function with this return type, inside of a loop or not, with these names and the next local being `n`, the statement has
these items. -/
inductive Stmt.Emits (P : List PoolEntry) (returns : ValueType) : Bool → Scope → Nat → Stmt → List Item → Prop where
  | declare {inLoop N n} {d : Declaration} {code} (hd : d.Emits P N (.local n) code) :
    Stmt.Emits P returns inLoop N n (.declare d) (plain code)
  | branch {inLoop N n branches items}
    (hbranches : Branches.Emits P returns inLoop N n branches items) : Stmt.Emits P returns inLoop N n (.branch branches) items
  | loop {inLoop N n} {condition : Expr} {body : Block} {τ test items} (hcondition : condition.Emits P N τ test)
      (htype : τ ≠ .void)
    (hbody : Block.Emits P returns true N n body items) :
    Stmt.Emits P returns inLoop N n (.loop condition body) (plain (closedLoop (loopItems (testCode test) items body.flow.breaks)))
  | break {N n} : Stmt.Emits P returns true N n .break [.exit]
  | continue {N n} : Stmt.Emits P returns true N n .continue [.again]
  | leave {inLoop N n} (hreturns : returns = .void) :
    Stmt.Emits P returns inLoop N n (.return none) [.instr { op := .ret }]
  | return {inLoop N n} {value : Expr} {code} (hreturns : returns ≠ .void)
    (hvalue : value.Emits P N returns code) :
    Stmt.Emits P returns inLoop N n (.return (some value)) (plain ({ op := .argA } :: code ++ [{ op := .store }, { op := .ret }]))
  | block {inLoop N n body items} (hbody : Block.Emits P returns inLoop N n body items) :
    Stmt.Emits P returns inLoop N n (.block body) items
  | empty {inLoop N n} : Stmt.Emits P returns inLoop N n .empty []
  | effect {inLoop N n} {e : Expr} {τ code} (he : e.Emits P N τ code) :
    Stmt.Emits P returns inLoop N n (.effect e) (plain (code ++ if τ = .void then [] else [{ op := .pop }]))

/-- The items of a block, up to the first statement that leaves it. -/
inductive Block.Emits (P : List PoolEntry) (returns : ValueType) : Bool → Scope → Nat → Block → List Item → Prop where
  | nil {inLoop N n} : Block.Emits P returns inLoop N n .nil []
  | cons {inLoop N n} {first : Stmt} {rest items more}
    (hfirst : Stmt.Emits P returns inLoop N n first items)
    (hrest : Block.Emits P returns inLoop (first.scope n ++ N) (n + first.locals.length) rest more) :
    Block.Emits P returns inLoop N n (.cons first rest) (if first.flow.leaves then items else items ++ more)

/-- The items of the branches of an `if`. -/
inductive Branches.Emits (P : List PoolEntry) (returns : ValueType) : Bool → Scope → Nat → Branches → List Item → Prop where
  | only {inLoop N n} {condition : Expr} {body τ test items} (hcondition : condition.Emits P N τ test) (htype : τ ≠ .void)
    (hbody : Block.Emits P returns inLoop N n body items) :
    Branches.Emits P returns inLoop N n (.only condition body) (armItems (testCode test) items [])
  | orElse {inLoop N n} {condition : Expr} {body otherwise : Block} {τ test items others}
      (hcondition : condition.Emits P N τ test) (htype : τ ≠ .void)
    (hbody : Block.Emits P returns inLoop N n body items)
    (hotherwise : Block.Emits P returns inLoop N (n + body.locals.length) otherwise others) :
    Branches.Emits P returns inLoop N n (.orElse condition body otherwise) (armItems (testCode test) items others)
  | orIf {inLoop N n} {condition : Expr} {body : Block} {rest τ test items others} (hcondition : condition.Emits P N τ test)
      (htype : τ ≠ .void)
    (hbody : Block.Emits P returns inLoop N n body items)
    (hrest : Branches.Emits P returns inLoop N (n + body.locals.length) rest others) :
    Branches.Emits P returns inLoop N n (.orIf condition body rest) (armItems (testCode test) items others)

end

/-! ## Definitions -/

/-- The names of parameters, whose first has this slot, the latest first. -/
def Param.scope (slot : Nat) : List Param → Scope
  | [] => []
  | p :: ps => Param.scope (slot + 1) ps ++ [(p.name, .variable p.type.type p.const true (.argument slot))]

/-- The header of a function. -/
def functionHeader (slot : Nat) (params : List Param) (returns : ValueType) (body : Block) : Header :=
  { slot := .ofNat slot
    returns := .ofNat returns.slots
    params := .ofNat params.length
    locals := .ofNat body.locals.length }

/-- With the names so far and this number for the next function, the definition has this output and gives this name. -/
inductive Definition.Emits (P : List PoolEntry) (N : Scope) (number : Nat) : Definition → Output → Bytes × Binding → Prop where
  | function {name} {params : List Param} {returns : TypeName} {body : Block} {slot items}
    (hslot : P[slot]? = some (.function name)) (hparams : ∀ p ∈ params, p.type.type ≠ .void)
    (hbody : body.Emits P returns.type false (Param.scope returns.type.slots params ++
      (name, .function (params.map (·.type.type)) returns.type number slot) :: N) 0 items)
    (hreturns : body.flow.returns = true ∨ returns.type = .void) :
    Definition.Emits P N number (.function name params returns body)
      (.function { header := functionHeader slot params returns.type body, code := (bodyCode items body.flow).toArray })
      (name, .function (params.map (·.type.type)) returns.type number slot)
  | global {d : Declaration} {slot code} (hslot : P[slot]? = some (.variable d.isConst d.name))
    (hd : d.Emits P N (.global slot) code) : Definition.Emits P N number (.global d) (.entry code) (d.entry (.global slot))

/-- How many functions a definition adds. -/
def Definition.functions : Definition → Nat
  | .function .. => 1
  | .global _ => 0

/-- The outputs of definitions, and the names after them. -/
inductive Source.Emits (P : List PoolEntry) : Scope → Nat → Source → List Output → Scope → Prop where
  | nil {N number} : Source.Emits P N number [] [] N
  | cons {N N' : Scope} {number} {d : Definition} {ds output outputs entry}
    (hd : d.Emits P N number output entry) (hnew : N.lookup entry.1 = none)
    (hds : Source.Emits P (entry :: N) (number + d.functions) ds outputs N') :
    Source.Emits P N number (d :: ds) (output :: outputs) N'

/-- The code that calls the main function. -/
def mainCode (returns : ValueType) (number : Nat) : List Instruction :=
  [.withNat .stackAlloc returns.slots, .withNat .call number] ++ if returns = .void then [] else [.withNat .popN returns.slots]

/-- The program of a tree, with its pool: the outputs of its definitions, and a call of the main function. -/
structure Source.Makes (A : Source) (P : List PoolEntry) (p : Program) : Prop where
  pool : P.Sublist A.entries
  globals : p.globals = (P.map PoolEntry.global).toArray
  functions : ∃ outputs N returns number slot, A.Emits P [] 1 outputs N ∧
    N.lookup Analysis.mainName = some (.function [] returns number slot) ∧
    p.functions = (Source.table outputs (mainCode returns number)).toArray

/-! ## The pool and the operators -/

theorem getElem?_of_idxOf? {P : List PoolEntry} {entry : PoolEntry} {slot : Nat} (h : P.idxOf? entry = some slot) :
    P[slot]? = some entry := by
  obtain ⟨hlt, hentry, -⟩ := List.idxOf?_eq_some_iff.1 h
  rw [List.getElem?_eq_getElem hlt, hentry]

namespace Operator

variable {op : Operator} {left right τ : ValueType} {code : List Instruction}

theorem arithmetic_ok {onInt onDouble : Opcode} (h : op.arithmetic onInt onDouble left right = .ok (code, τ)) :
    (left = .int ∧ right = .int ∧ code = [{ op := onInt }] ∧ τ = .int) ∨
      (left = .double ∧ right = .double ∧ code = [{ op := onDouble }] ∧ τ = .double) := by
  cases left <;> cases right <;> cases h <;> simp

theorem comparison_ok {tests : List Opcode} (h : op.comparison tests left right = .ok (code, τ)) :
    ((left = .int ∧ right = .int ∧ code = { op := .cmpI } :: tests.map fun op => { op }) ∨
      (left = .double ∧ right = .double ∧ code = { op := .cmpF } :: tests.map fun op => { op })) ∧ τ = .bool := by
  cases left <;> cases right <;> cases h <;> simp

/-- The operations of an arithmetic operator on integers and on doubles. -/
def opcodes? : Operator → Option (Opcode × Opcode)
  | add => some (.addI, .addF)
  | sub => some (.subI, .subF)
  | mul => some (.mulI, .mulF)
  | div => some (.divI, .divF)
  | _ => none

/-- The operations that make a truth value out of an order, for each comparison. -/
def tests : Operator → List Opcode
  | gt => [.setGt]
  | lt => [.setLt]
  | ge => [.setLt, .not]
  | le => [.setGt, .not]
  | eq => [.not]
  | _ => []

/-- What operators there are and what they are compiled to. -/
theorem code_ok (h : op.code left right = .ok (code, τ)) (hcast : op ≠ .cast) :
    (∃ onInt onDouble, op.opcodes? = some (onInt, onDouble) ∧ op.arithmetic onInt onDouble left right = .ok (code, τ)) ∨
      op.isComparison = true ∧ op.comparison op.tests left right = .ok (code, τ) := by
  cases op with
  | add | sub | mul | div => exact .inl ⟨_, _, rfl, h⟩
  | gt | lt | ge | le | eq | ne => exact .inr ⟨rfl, h⟩
  | cast => exact absurd rfl hcast

theorem cast_ok (h : cast.code left right = .ok (code, τ)) :
    τ = right ∧ ((left = right ∧ (left = .int ∨ left = .double) ∧ code = []) ∨
      (left = .int ∧ right = .double ∧ code = [{ op := .iToF }]) ∨
      (left = .double ∧ right = .int ∧ code = [{ op := .fToI }])) := by
  cases left <;> cases right <;> cases h <;> simp

end Operator

end OnePass

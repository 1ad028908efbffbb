import OnePass.Proofs.Translation

/-!
# The static rules

What makes a grammatical program a program: the judgement `Γ ⊢ e : τ ⊣ Γ'`, written `e.HasType Γ τ Γ'`, and its likes for
statements and definitions. An environment holds the names in scope with what they stand for. The environment after a part of a
program differs from that before it in the names declared there, and in the variables that have a value from there on, since a
variable may be read only after its initial value or an assignment in the text.
-/

namespace OnePass

/-! ## Names -/

/-- What the rules know of a name. -/
inductive Meaning where
  | variable (type : ValueType) (const assigned : Bool)
  | function (signature : Signature)
  deriving DecidableEq, Repr

/-- The meaning of a variable that has a value. -/
def Meaning.assign : Meaning → Meaning
  | .variable type const _ => .variable type const true
  | meaning => meaning

/-- The names of one scope, the latest first. -/
abbrev Names := List (Bytes × Meaning)

/-- The names with a value for one of them. -/
def Names.assign (x : Bytes) : Names → Names
  | [] => []
  | (y, meaning) :: names => if x = y then (y, meaning.assign) :: names else (y, meaning) :: Names.assign x names

/-- The scopes around a point of a program, the innermost first. -/
abbrev Env := List Names

namespace Env

/-- What a name stands for in the innermost scope that declares it. -/
def find? (Γ : Env) (x : Bytes) : Option Meaning := Γ.flatten.lookup x

/-- The environment with a value for the variable of a name. -/
def assign (x : Bytes) : Env → Env
  | [] => []
  | names :: Γ => if (names.lookup x).isSome then names.assign x :: Γ else names :: assign x Γ

/-- The signature under which a name can be called: that of the function it stands for, or, if it stands for nothing, that of the
primitive. -/
def signature? (Γ : Env) (f : Bytes) : Option Signature :=
  match Γ.find? f with
  | some (.function signature) => some signature
  | some (.variable ..) => none
  | none => (Primitive.ofName? f).map Primitive.signature

/-- A name is declared in the innermost scope, which does not have it yet. -/
inductive Declares (x : Bytes) (meaning : Meaning) : Env → Env → Prop where
  | new {names : Names} {Γ : Env} (h : names.lookup x = none) : Declares x meaning (names :: Γ) (((x, meaning) :: names) :: Γ)

end Env

/-! ## Expressions -/

/-- The operator gives a number. -/
def Operator.isArithmetic : Operator → Bool
  | .add | .sub | .mul | .div => true
  | _ => false

mutual

/-- The type of an expression. An assignment is of type `void`, and a comparison of type `bool`, which no name can have. -/
inductive Expr.HasType : Expr → Env → ValueType → Env → Prop where
  | int {Γ : Env} (value : Int64) : Expr.HasType (.int value) Γ .int Γ
  | double {Γ : Env} (bits : UInt64) : Expr.HasType (.double bits) Γ .double Γ
  | text {Γ : Env} (quote : Quote) (content : Bytes) : Expr.HasType (.text quote content) Γ .int Γ
  | name {Γ : Env} {x : Bytes} {τ : ValueType} {const : Bool} (hx : Γ.find? x = some (.variable τ const true)) :
    Expr.HasType (.name x) Γ τ Γ
  | assign {Γ Γ' : Env} {x : Bytes} {τ : ValueType} {assigned : Bool} {value : Expr}
    (hx : Γ.find? x = some (.variable τ false assigned)) (hvalue : value.HasType Γ τ Γ') :
    Expr.HasType (.assign x value) Γ .void (Γ'.assign x)
  | call {Γ Γ' : Env} {f : Bytes} {args : Args} {signature : Signature} (hf : Γ.signature? f = some signature)
    (hargs : args.HaveTypes Γ signature.params Γ') : Expr.HasType (.call f args) Γ signature.returns Γ'
  | paren {Γ Γ' : Env} {e : Expr} {τ : ValueType} (he : e.HasType Γ τ Γ') : Expr.HasType (.paren e) Γ τ Γ'
  | neg {Γ Γ' : Env} {e : Expr} {τ : ValueType} (he : e.HasType Γ τ Γ') (hτ : τ.isNumeric) : Expr.HasType (.neg e) Γ τ Γ'
  | arithmetic {Γ Γ' Γ'' : Env} {op : Operator} {left right : Expr} {τ : ValueType} (hop : op.isArithmetic)
    (hleft : left.HasType Γ τ Γ') (hright : right.HasType Γ' τ Γ'') (hτ : τ.isNumeric) :
    Expr.HasType (.binary op left right) Γ τ Γ''
  | comparison {Γ Γ' Γ'' : Env} {op : Operator} {left right : Expr} {τ : ValueType} (hop : op.level = 0)
    (hleft : left.HasType Γ τ Γ') (hright : right.HasType Γ' τ Γ'') (hτ : τ.isNumeric) :
    Expr.HasType (.binary op left right) Γ .bool Γ''
  | cast {Γ Γ' : Env} {e : Expr} {target : TypeName} {τ : ValueType} (he : e.HasType Γ τ Γ') (hτ : τ.isNumeric)
    (htarget : target.type.isNumeric) : Expr.HasType (.cast e target) Γ target.type Γ'

/-- The types of the arguments of a call. -/
inductive Args.HaveTypes : Args → Env → List ValueType → Env → Prop where
  | nil {Γ : Env} : Args.HaveTypes .nil Γ [] Γ
  | cons {Γ Γ' Γ'' : Env} {first : Expr} {rest : Args} {τ : ValueType} {τs : List ValueType} (hfirst : first.HasType Γ τ Γ')
    (hrest : rest.HaveTypes Γ' τs Γ'') : Args.HaveTypes (.cons first rest) Γ (τ :: τs) Γ''

end

/-- The expression can be the condition of an `if` or a `while`. -/
def Expr.IsCondition (e : Expr) (Γ Γ' : Env) : Prop := ∃ τ, e.HasType Γ τ Γ' ∧ τ ≠ .void

/-! ## Statements -/

/-- A declaration keeps the rules. The name is in scope in its own initial value, but has no value there. -/
inductive Declaration.Valid (d : Declaration) : Env → Env → Prop where
  | plain {Γ Γ' : Env} (hvalue : d.value? = none) (htype : d.type.type ≠ .void)
    (hname : Env.Declares d.name (.variable d.type.type d.isConst false) Γ Γ') : Declaration.Valid d Γ Γ'
  | initial {Γ Γ' Γ'' : Env} {value : Expr} (hvalue : d.value? = some value) (htype : d.type.type ≠ .void)
    (hname : Env.Declares d.name (.variable d.type.type d.isConst false) Γ Γ') (htypes : value.HasType Γ' d.type.type Γ'') :
    Declaration.Valid d Γ (Γ''.assign d.name)

mutual

/-- A statement keeps the rules, in a function that returns this type and inside of a loop or not. -/
inductive Stmt.Valid (returns : ValueType) : Stmt → Bool → Env → Env → Prop where
  | declare {Γ Γ' : Env} {d : Declaration} {inLoop : Bool} (h : d.Valid Γ Γ') : Stmt.Valid returns (.declare d) inLoop Γ Γ'
  | branch {Γ Γ' : Env} {branches : Branches} {inLoop : Bool} (h : branches.Valid returns inLoop Γ Γ') :
    Stmt.Valid returns (.branch branches) inLoop Γ Γ'
  | loop {Γ Γ' Γ'' : Env} {names : Names} {condition : Expr} {body : Block} {inLoop : Bool}
      (hcondition : condition.IsCondition Γ Γ')
    (hbody : body.Valid returns true ([] :: Γ') (names :: Γ'')) : Stmt.Valid returns (.loop condition body) inLoop Γ Γ''
  | break {Γ : Env} : Stmt.Valid returns .break true Γ Γ
  | continue {Γ : Env} : Stmt.Valid returns .continue true Γ Γ
  | leave {Γ : Env} {inLoop : Bool} (h : returns = .void) : Stmt.Valid returns (.return none) inLoop Γ Γ
  | result {Γ Γ' : Env} {value : Expr} {inLoop : Bool} (h : returns ≠ .void) (hvalue : value.HasType Γ returns Γ') :
    Stmt.Valid returns (.return (some value)) inLoop Γ Γ'
  | block {Γ Γ' : Env} {names : Names} {body : Block} {inLoop : Bool} (h : body.Valid returns inLoop ([] :: Γ) (names :: Γ')) :
    Stmt.Valid returns (.block body) inLoop Γ Γ'
  | empty {Γ : Env} {inLoop : Bool} : Stmt.Valid returns .empty inLoop Γ Γ
  | effect {Γ Γ' : Env} {e : Expr} {τ : ValueType} {inLoop : Bool} (h : e.HasType Γ τ Γ') :
      Stmt.Valid returns (.effect e) inLoop Γ Γ'

/-- All statements of a block keep the rules, also those that are never reached. -/
inductive Block.Valid (returns : ValueType) : Block → Bool → Env → Env → Prop where
  | nil {Γ : Env} {inLoop : Bool} : Block.Valid returns .nil inLoop Γ Γ
  | cons {Γ Γ' Γ'' : Env} {first : Stmt} {rest : Block} {inLoop : Bool} (hfirst : first.Valid returns inLoop Γ Γ')
    (hrest : rest.Valid returns inLoop Γ' Γ'') : Block.Valid returns (.cons first rest) inLoop Γ Γ''

/-- The branches of an `if` keep the rules, each in a scope of its own. -/
inductive Branches.Valid (returns : ValueType) : Branches → Bool → Env → Env → Prop where
  | only {Γ Γ' Γ'' : Env} {names : Names} {condition : Expr} {body : Block} {inLoop : Bool}
      (hcondition : condition.IsCondition Γ Γ')
    (hbody : body.Valid returns inLoop ([] :: Γ') (names :: Γ'')) : Branches.Valid returns (.only condition body) inLoop Γ Γ''
  | orElse {Γ Γ' Γ'' Γ''' : Env} {names names' : Names} {condition : Expr} {body otherwise : Block} {inLoop : Bool}
    (hcondition : condition.IsCondition Γ Γ') (hbody : body.Valid returns inLoop ([] :: Γ') (names :: Γ''))
    (hotherwise : otherwise.Valid returns inLoop ([] :: Γ'') (names' :: Γ''')) :
    Branches.Valid returns (.orElse condition body otherwise) inLoop Γ Γ'''
  | orIf {Γ Γ' Γ'' Γ''' : Env} {names : Names} {condition : Expr} {body : Block} {rest : Branches} {inLoop : Bool}
    (hcondition : condition.IsCondition Γ Γ') (hbody : body.Valid returns inLoop ([] :: Γ') (names :: Γ''))
    (hrest : rest.Valid returns inLoop Γ'' Γ''') : Branches.Valid returns (.orIf condition body rest) inLoop Γ Γ'''

end

/-! ## Definitions -/

mutual

/-- The statement returns on every path through it. -/
inductive Stmt.Returns : Stmt → Prop where
  | return (value : Option Expr) : Stmt.Returns (.return value)
  | block {body : Block} (h : body.Returns) : Stmt.Returns (.block body)
  | branch {branches : Branches} (h : branches.Returns) : Stmt.Returns (.branch branches)

/-- One of the statements of the block returns on every path. -/
inductive Block.Returns : Block → Prop where
  | first {first : Stmt} {rest : Block} (h : first.Returns) : Block.Returns (.cons first rest)
  | rest {first : Stmt} {rest : Block} (h : rest.Returns) : Block.Returns (.cons first rest)

/-- There is an `else`, and all branches return on every path. -/
inductive Branches.Returns : Branches → Prop where
  | orElse {condition : Expr} {body otherwise : Block} (hbody : body.Returns) (hotherwise : otherwise.Returns) :
    Branches.Returns (.orElse condition body otherwise)
  | orIf {condition : Expr} {body : Block} {rest : Branches} (hbody : body.Returns) (hrest : rest.Returns) :
    Branches.Returns (.orIf condition body rest)

end

/-- The names of the parameters of a function, which all have a value. -/
def Param.names (ps : List Param) : Names := (ps.map fun p => (p.name, .variable p.type.type p.const true)).reverse

/-- A definition keeps the rules, where only the names of the program are in scope. The parameters of a function share the scope
of its body, and its name is in scope there. -/
inductive Definition.Valid : Definition → Names → Names → Prop where
  | function {names names' inner : Names} {f : Bytes} {params : List Param} {returns : TypeName} {body : Block}
    (hf : names.lookup f = none) (hvoid : ∀ p ∈ params, p.type.type ≠ .void) (hparams : (params.map Param.name).Nodup)
    (hbody : body.Valid returns.type false
      [Param.names params, (f, .function ⟨params.map (·.type.type), returns.type⟩) :: names] [inner, names'])
    (hreturns : returns.type ≠ .void → body.Returns) : Definition.Valid (.function f params returns body) names names'
  | global {names names' : Names} {d : Declaration} (h : d.Valid [names] [names']) : Definition.Valid (.global d) names names'

namespace Source

/-- All definitions of a program keep the rules. -/
inductive Valid : Source → Names → Names → Prop where
  | nil {names : Names} : Valid [] names names
  | cons {names names' names'' : Names} {d : Definition} {ds : Source} (hd : d.Valid names names')
      (hds : Valid ds names' names'') :
    Valid (d :: ds) names names''

/-- The program keeps the static rules: its definitions do, and there is a function `main` without parameters. -/
def WellFormed (p : Source) : Prop :=
  ∃ names returns, p.Valid [] names ∧ names.lookup Analysis.mainName = some (.function ⟨[], returns⟩)

end Source

end OnePass

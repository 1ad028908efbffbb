import OnePass.Operator
import OnePass.Types

/-!
# The grammar

The language as syntax trees. A tree is read off left to right as a string of terminals (`yield`), which is what tokens are to the
grammar. Operators group by their precedence, those of one class to the left, and an assignment extends as far to the right as it
can: a tree that says so with every operator in it is `Grouped`.
-/

namespace OnePass

/-! ## Terminals -/

/-- The quotation marks of a literal text. -/
inductive Quote where
  | string
  | char
  deriving DecidableEq, Repr

/-- What a token is to the grammar: a mark such as a keyword, or a name or a literal with its contents. -/
inductive Terminal where
  | mark (kind : TokenKind)
  | name (x : Bytes)
  | int (value : Int64)
  | double (bits : UInt64)
  | text (quote : Quote) (content : Bytes)
  deriving DecidableEq, Repr

/-- The terminal that a token is. -/
def Token.terminal (t : Token) : Terminal :=
  match t.kind with
  | .identifier => .name t.lexeme
  | .uintLit => .int t.int
  | .doubleLit => .double t.bits
  | .stringLit => .text .string t.lexeme
  | .charLit => .text .char t.lexeme
  | kind => .mark kind

/-- The kind of the tokens that are a terminal. -/
def Terminal.kind : Terminal → TokenKind
  | mark kind => kind
  | name _ => .identifier
  | int _ => .uintLit
  | double _ => .doubleLit
  | text .string _ => .stringLit
  | text .char _ => .charLit

theorem Token.kind_terminal (t : Token) : t.terminal.kind = t.kind := by
  unfold Token.terminal
  split <;> simp_all [Terminal.kind]

theorem Token.lexeme_of_name {t : Token} {x : Bytes} (h : t.terminal = .name x) : t.lexeme = x := by
  unfold Token.terminal at h
  split at h <;> cases h
  rfl

theorem Token.lexeme_of_text {t : Token} {quote : Quote} {content : Bytes} (h : t.terminal = .text quote content) :
    t.lexeme = content := by
  unfold Token.terminal at h
  split at h <;> cases h <;> rfl

theorem Token.int_of_int {t : Token} {value : Int64} (h : t.terminal = .int value) : t.int = value := by
  unfold Token.terminal at h
  split at h <;> cases h
  rfl

theorem Token.bits_of_double {t : Token} {bits : UInt64} (h : t.terminal = .double bits) : t.bits = bits := by
  unfold Token.terminal at h
  split at h <;> cases h
  rfl

/-- A type that has a name. -/
inductive TypeName where
  | int
  | double
  | void
  deriving DecidableEq, Repr

namespace TypeName

/-- The kind of the tokens that name the type. -/
def kind : TypeName → TokenKind
  | int => .int
  | double => .double
  | void => .void

/-- The type named. -/
def type : TypeName → ValueType
  | int => .int
  | double => .double
  | void => .void

theorem ofKind?_kind (n : TypeName) : ValueType.ofKind? n.kind = some n.type := by cases n <;> rfl

theorem exists_of_ofKind? {kind : TokenKind} {type : ValueType} (h : ValueType.ofKind? kind = some type) :
    ∃ n : TypeName, n.kind = kind ∧ n.type = type := by
  unfold ValueType.ofKind? at h
  split at h
  · exact ⟨.int, rfl, Option.some.inj h⟩
  · exact ⟨.double, rfl, Option.some.inj h⟩
  · exact ⟨.void, rfl, Option.some.inj h⟩
  · cases h

end TypeName

namespace Operator

/-- The kind of the tokens that are the operator. -/
def kind : Operator → TokenKind
  | gt => .greater
  | lt => .less
  | ge => .greaterEq
  | le => .lessEq
  | eq => .equals
  | ne => .notEq
  | add => .plus
  | sub => .minus
  | mul => .star
  | div => .slash
  | cast => .as

theorem ofKind?_kind (op : Operator) : ofKind? op.kind = some op := by cases op <;> rfl

theorem kind_of_ofKind? {kind : TokenKind} {op : Operator} (h : ofKind? kind = some op) : op.kind = kind := by
  unfold ofKind? at h
  split at h <;> cases h <;> rfl

/-- The level of the grammar that the operator is on, the loosest first: comparisons, sums, products, casts. -/
def level : Operator → Nat
  | gt | lt | ge | le | eq | ne => 0
  | add | sub => 1
  | mul | div => 2
  | cast => 3

/-- The compiler's precedence classes are the levels of the grammar. -/
theorem precedence_eq_level (op : Operator) : op.precedence = op.level := by cases op <;> rfl

end Operator

/-! ## Expressions -/

mutual

/-- An expression. -/
inductive Expr where
  | int (value : Int64)
  | double (bits : UInt64)
  | text (quote : Quote) (content : Bytes)
  | name (x : Bytes)
  | assign (x : Bytes) (value : Expr)
  | call (f : Bytes) (args : Args)
  | paren (e : Expr)
  | neg (e : Expr)
  | binary (op : Operator) (left right : Expr)
  | cast (e : Expr) (target : TypeName)

/-- The arguments of a call. -/
inductive Args where
  | nil
  | cons (first : Expr) (rest : Args)

end

mutual

/-- The terminals of an expression. -/
def Expr.yield : Expr → List Terminal
  | .int value => [.int value]
  | .double bits => [.double bits]
  | .text quote content => [.text quote content]
  | .name x => [.name x]
  | .assign x value => .name x :: .mark .assign :: value.yield
  | .call f args => .name f :: .mark .lparen :: args.yield
  | .paren e => .mark .lparen :: (e.yield ++ [.mark .rparen])
  | .neg e => .mark .minus :: e.yield
  | .binary op left right => left.yield ++ .mark op.kind :: right.yield
  | .cast e target => e.yield ++ [.mark .as, .mark target.kind]

/-- The terminals of the arguments of a call, with the closing parenthesis. -/
def Args.yield : Args → List Terminal
  | .nil => [.mark .rparen]
  | .cons first rest => first.yield ++ rest.more

/-- The terminals of the arguments after another one, with the closing parenthesis. -/
def Args.more : Args → List Terminal
  | .nil => [.mark .rparen]
  | .cons first rest => .mark .comma :: (first.yield ++ rest.more)

end

theorem Expr.yield_ne_nil (e : Expr) : e.yield ≠ [] := by cases e <;> simp [Expr.yield]

namespace Expr

/-- The precedence class of an expression's last operator to be applied; an operand stands above all operators. -/
def level : Expr → Nat
  | binary op _ _ => op.level
  | cast _ _ => Operator.cast.level
  | _ => 4

theorem level_le (e : Expr) : e.level ≤ 4 := by
  cases e with
  | binary op _ _ => cases op <;> simp [level, Operator.level]
  | _ => simp [level, Operator.level]

/-- The expression ends in an assignment, which takes in every operator that follows. -/
def endsOpen : Expr → Bool
  | assign _ _ => true
  | neg e => e.endsOpen
  | binary _ _ right => right.endsOpen
  | _ => false

end Expr

mutual

/-- Every operator has the operands that precedence gives it. -/
def Expr.Grouped : Expr → Prop
  | .int _ | .double _ | .text _ _ | .name _ => True
  | .assign _ value => value.Grouped
  | .call _ args => args.Grouped
  | .paren e => e.Grouped
  | .neg e => e.level = 4 ∧ e.Grouped
  | .binary op left right =>
    op ≠ .cast ∧ op.level ≤ left.level ∧ op.level < right.level ∧ left.endsOpen = false ∧ left.Grouped ∧ right.Grouped
  | .cast e _ => Operator.cast.level ≤ e.level ∧ e.endsOpen = false ∧ e.Grouped

/-- Every argument is grouped. -/
def Args.Grouped : Args → Prop
  | .nil => True
  | .cons first rest => first.Grouped ∧ rest.Grouped

end

/-! ## Statements -/

/-- A declaration of a variable or of a constant, which needs a value. -/
inductive Declaration where
  | variable (x : Bytes) (type : TypeName) (value : Option Expr)
  | constant (x : Bytes) (type : TypeName) (value : Expr)

namespace Declaration

/-- The name declared. -/
def name : Declaration → Bytes
  | .variable x _ _ => x
  | constant x _ _ => x

/-- The type declared. -/
def type : Declaration → TypeName
  | .variable _ type _ => type
  | constant _ type _ => type

/-- The name is a constant's. -/
def isConst : Declaration → Bool
  | .variable .. => false
  | constant .. => true

/-- The initial value, if there is one. -/
def value? : Declaration → Option Expr
  | .variable _ _ value => value
  | constant _ _ value => some value

/-- The terminals of an initial value. -/
def valueYield : Option Expr → List Terminal
  | some value => .mark .assign :: value.yield
  | none => []

/-- The terminals of a declaration. -/
def yield (d : Declaration) : List Terminal :=
  .mark (if d.isConst then .const else .let) :: .name d.name :: .mark .colon :: .mark d.type.kind ::
    (valueYield d.value? ++ [.mark .semicolon])

/-- The initial value is grouped. -/
def Grouped (d : Declaration) : Prop := ∀ e, d.value? = some e → e.Grouped

end Declaration

mutual

/-- A statement. -/
inductive Stmt where
  | declare (d : Declaration)
  | branch (branches : Branches)
  | loop (condition : Expr) (body : Block)
  | break
  | continue
  | return (value : Option Expr)
  | block (body : Block)
  | empty
  | effect (e : Expr)

/-- The statements of a block. -/
inductive Block where
  | nil
  | cons (first : Stmt) (rest : Block)

/-- The branches of an `if` from a condition on. -/
inductive Branches where
  | only (condition : Expr) (body : Block)
  | orElse (condition : Expr) (body otherwise : Block)
  | orIf (condition : Expr) (body : Block) (rest : Branches)

end

mutual

/-- The terminals of a statement. -/
def Stmt.yield : Stmt → List Terminal
  | .declare d => d.yield
  | .branch branches => .mark .if :: branches.yield
  | .loop condition body => .mark .while :: (condition.yield ++ .mark .lbrace :: body.yield)
  | .break => [.mark .break, .mark .semicolon]
  | .continue => [.mark .continue, .mark .semicolon]
  | .return none => [.mark .return, .mark .semicolon]
  | .return (some value) => .mark .return :: (value.yield ++ [.mark .semicolon])
  | .block body => .mark .lbrace :: body.yield
  | .empty => [.mark .semicolon]
  | .effect e => e.yield ++ [.mark .semicolon]

/-- The terminals of the statements of a block, with the closing brace. -/
def Block.yield : Block → List Terminal
  | .nil => [.mark .rbrace]
  | .cons first rest => first.yield ++ rest.yield

/-- The terminals of the branches of an `if` after that word. -/
def Branches.yield : Branches → List Terminal
  | .only condition body => condition.yield ++ .mark .lbrace :: body.yield
  | .orElse condition body otherwise =>
    condition.yield ++ .mark .lbrace :: (body.yield ++ .mark .else :: .mark .lbrace :: otherwise.yield)
  | .orIf condition body rest =>
    condition.yield ++ .mark .lbrace :: (body.yield ++ .mark .else :: .mark .if :: rest.yield)

end

theorem Stmt.yield_ne_nil (st : Stmt) : st.yield ≠ [] := by
  cases st with
  | «return» value => cases value <;> simp [Stmt.yield]
  | _ => simp [Stmt.yield, Declaration.yield]

mutual

/-- Every expression of a statement is grouped. -/
def Stmt.Grouped : Stmt → Prop
  | .declare d => d.Grouped
  | .branch branches => branches.Grouped
  | .loop condition body => condition.Grouped ∧ body.Grouped
  | .break | .continue | .return none | .empty => True
  | .return (some value) => value.Grouped
  | .block body => body.Grouped
  | .effect e => e.Grouped

/-- Every expression of a block is grouped. -/
def Block.Grouped : Block → Prop
  | .nil => True
  | .cons first rest => first.Grouped ∧ rest.Grouped

/-- Every expression of the branches is grouped. -/
def Branches.Grouped : Branches → Prop
  | .only condition body => condition.Grouped ∧ body.Grouped
  | .orElse condition body otherwise => condition.Grouped ∧ body.Grouped ∧ otherwise.Grouped
  | .orIf condition body rest => condition.Grouped ∧ body.Grouped ∧ rest.Grouped

end

/-! ## Definitions -/

/-- A parameter of a function. -/
structure Param where
  const : Bool
  name : Bytes
  type : TypeName
  deriving DecidableEq, Repr

namespace Param

/-- The terminals of a parameter. -/
def yield (p : Param) : List Terminal :=
  (if p.const then [.mark .const] else []) ++ [.name p.name, .mark .colon, .mark p.type.kind]

/-- The terminals of the parameters after another one, with the closing parenthesis. -/
def more : List Param → List Terminal
  | [] => [.mark .rparen]
  | p :: ps => .mark .comma :: (p.yield ++ more ps)

/-- The terminals of the parameters of a function, with the closing parenthesis. -/
def yields : List Param → List Terminal
  | [] => [.mark .rparen]
  | p :: ps => p.yield ++ more ps

end Param

/-- A definition of a program. -/
inductive Definition where
  | function (name : Bytes) (params : List Param) (returns : TypeName) (body : Block)
  | global (d : Declaration)

namespace Definition

/-- The terminals of a definition. -/
def yield : Definition → List Terminal
  | function name params returns body =>
    .mark .fn :: .name name :: .mark .lparen ::
      (Param.yields params ++ .mark .arrow :: .mark returns.kind :: .mark .lbrace :: body.yield)
  | global d => d.yield

theorem yield_ne_nil (d : Definition) : d.yield ≠ [] := by
  cases d <;> simp [yield, Declaration.yield]

/-- Every expression of a definition is grouped. -/
def Grouped : Definition → Prop
  | function _ _ _ body => body.Grouped
  | global d => d.Grouped

end Definition

/-- A program as its definitions. -/
abbrev Source := List Definition

namespace Source

/-- The terminals of a program. -/
def yield (p : Source) : List Terminal := p.flatMap Definition.yield

/-- Every expression of a program is grouped. -/
def Grouped (p : Source) : Prop := ∀ d ∈ p, d.Grouped

end Source

end OnePass

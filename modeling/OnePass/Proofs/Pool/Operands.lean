import OnePass.Proofs.Agreement.Program
import OnePass.Proofs.Emission.Outputs
import OnePass.Proofs.Emission.Traces
import OnePass.Proofs.Parsing.Program

/-!
# What operands mean

Three kinds of instructions name a place of the pool: that which pushes a literal text, that which pushes the address of a global
variable, and that which calls a primitive. In the code of a program they stand, among pushed numbers, in the order in which the
tree mentions texts, global variables and primitives (`Source.mentions`), and the operand of each is the place of the entry that
was made for what is mentioned (`Mention.Denotes`). Code that has been dropped mentions nothing.
-/

namespace OnePass

variable {N : Scope} {x : Bytes} {P : List PoolEntry} {p : Program}

/-! ## Mentions -/

/-- What a tree mentions and its code has an operand for. -/
inductive Mention where
  | number (value : Int64)
  | text (content : Bytes)
  | variable (const : Bool) (x : Bytes)
  | primitive (f : Bytes)
  deriving DecidableEq, Repr

/-- The operation pushes a literal or takes a place of the pool. -/
def Opcode.refers : Opcode → Bool
  | push | globA | callName => true
  | _ => false

/-- The instructions of a function that push a literal or take a place of the pool. -/
def Function.references (f : Function) : List Instruction := f.code.toList.filter (·.op.refers)

/-- With this pool the instruction is for what is mentioned. -/
inductive Mention.Denotes (P : List PoolEntry) : Mention → Instruction → Prop where
  | number (value : Int64) : Denotes P (.number value) { op := .push, operand := value }
  | text {content : Bytes} {slot : Nat} (h : P.idxOf? (.literal content) = some slot) :
      Denotes P (.text content) (.withNat .push slot)
  | variable {const : Bool} {x : Bytes} {slot : Nat} (h : P.idxOf? (.variable const x) = some slot) :
    Denotes P (.variable const x) (.withNat .globA slot)
  | primitive {f : Bytes} {slot : Nat} (h : P.idxOf? (.primitive f) = some slot) :
      Denotes P (.primitive f) (.withNat .callName slot)

/-- The mention of a variable, if it is a global one. -/
def Sight.mention (N : Sight) (x : Bytes) : List Mention :=
  match N.lookup x with
  | some (.global const) => [.variable const x]
  | _ => []

mutual

/-- What an expression mentions, in the order of its code. -/
def Expr.mentions (N : Sight) : Expr → List Mention
  | .int value => [.number value]
  | .double bits => [.number bits.toInt64]
  | .text _ content => [.text content]
  | .name x => N.mention x
  | .assign x value => N.mention x ++ value.mentions N
  | .call f args => args.mentions N ++ if (N.lookup f).isSome then [] else [.primitive f]
  | .paren e | .neg e | .cast e _ => e.mentions N
  | .binary _ left right => left.mentions N ++ right.mentions N

/-- What arguments mention. -/
def Args.mentions (N : Sight) : Args → List Mention
  | .nil => []
  | .cons first rest => first.mentions N ++ rest.mentions N

end

/-- What a declaration with an initial value mentions: its own variable, and what the value does. -/
def Declaration.mentions (N : Sight) (d : Declaration) (kind : NameKind) : List Mention :=
  (d.value?.map fun value =>
    Sight.mention ((d.name, kind) :: N) d.name ++ value.mentions ((d.name, kind) :: N)).getD []

mutual

/-- What a statement mentions. -/
def Stmt.mentions (N : Sight) : Stmt → List Mention
  | .declare d => d.mentions N .cell
  | .branch branches => branches.mentions N
  | .loop condition body => condition.mentions N ++ body.mentions N
  | .return (some value) => value.mentions N
  | .block body => body.mentions N
  | .effect e => e.mentions N
  | .break | .continue | .return none | .empty => []

/-- What a block mentions, up to the first statement that leaves it. -/
def Block.mentions (N : Sight) : Block → List Mention
  | .nil => []
  | .cons first rest => first.mentions N ++ if first.flow.leaves then [] else rest.mentions (first.sight ++ N)

/-- What the branches of an `if` mention. -/
def Branches.mentions (N : Sight) : Branches → List Mention
  | .only condition body => condition.mentions N ++ body.mentions N
  | .orElse condition body otherwise => condition.mentions N ++ (body.mentions N ++ otherwise.mentions N)
  | .orIf condition body rest => condition.mentions N ++ (body.mentions N ++ rest.mentions N)

end

/-- What a definition adds to what the entry routine mentions. -/
def Definition.entryMentions (N : Sight) : Definition → List Mention
  | .function .. => []
  | .global d => d.mentions N (.global d.isConst)

/-- What the function of a definition mentions, if it is one's. -/
def Definition.bodyMentions (N : Sight) : Definition → List (List Mention)
  | .function name params _ body => [body.mentions (Param.sight params ++ (name, .function) :: N)]
  | .global _ => []

namespace Source

/-- What the initial values of global variables mention. -/
def entryMentions (N : Sight) : Source → List Mention
  | [] => []
  | d :: ds => d.entryMentions N ++ entryMentions (d.sight :: N) ds

/-- What the functions mention, each for itself. -/
def bodyMentions (N : Sight) : Source → List (List Mention)
  | [] => []
  | d :: ds => d.bodyMentions N ++ bodyMentions (d.sight :: N) ds

/-- What the functions of a program mention, the entry routine first. -/
def mentions (A : Source) : List (List Mention) := A.entryMentions [] :: A.bodyMentions []

end Source

/-! ## References of code -/

instance : Opcode.IsStraight Opcode.refers := ⟨rfl, rfl⟩

/-- The code is for what is mentioned. -/
def Refers (P : List PoolEntry) (mentions : List Mention) (code : List Instruction) : Prop :=
  Traces Opcode.refers (Mention.Denotes P) mentions code

/-- The items are for what is mentioned. -/
def RefersItems (P : List PoolEntry) (mentions : List Mention) (items : List Item) : Prop :=
  TracesItems Opcode.refers (Mention.Denotes P) mentions items

theorem Operator.silent_code {op : Operator} {left right τ : ValueType} {code : List Instruction}
    (h : op.code left right = .ok (code, τ)) :
    ∀ i ∈ code, i.op.refers = false := by
  cases op <;> cases left <;> cases right <;> cases h <;> decide

/-- The home of a global variable is the place of its entry. -/
def Scope.Rooted (P : List PoolEntry) (N : Scope) : Prop :=
  ∀ (x : Bytes) (type : ValueType) (const assigned : Bool) (slot : Nat),
    N.lookup x = some (.variable type const assigned (.global slot)) → P.idxOf? (.variable const x) = some slot

/-- A name that is no global variable's leaves the others where they are. -/
theorem Scope.Rooted.cons (hN : Scope.Rooted P N) {binding : Binding} (h : binding.kind = .cell ∨ binding.kind = .function) :
    Scope.Rooted P ((x, binding) :: N) := by
  intro y type const assigned slot hy
  rw [List.lookup_cons] at hy
  split at hy
  · cases hy
    rcases h with h | h <;> cases h
  · exact hN _ _ _ _ _ hy

theorem Scope.Rooted.params {P : List PoolEntry} {N : Scope} (hN : Scope.Rooted P N) (params : List Param) (slot : Nat) :
    Scope.Rooted P (Param.scope slot params ++ N) := by
  induction params generalizing slot N with
  | nil => exact hN
  | cons p ps ih =>
    rw [Param.scope, List.append_assoc]
    exact ih (hN.cons (.inl rfl)) _

theorem Scope.Rooted.stmt (hN : Scope.Rooted P N) (s : Stmt) (n : Nat) : Scope.Rooted P (s.scope n ++ N) := by
  cases s with
  | declare d => exact hN.cons (.inl rfl)
  | _ => exact hN

/-! ## Emission -/

section

variable {P : List PoolEntry}
variable {const : Bool} {slot : Nat}

theorem refers_address (hN : Scope.Rooted P N) {type : ValueType} {assigned : Bool} {home : Home}
    (hx : N.lookup x = some (.variable type const assigned home)) : Refers P (N.sight.mention x) [home.address] := by
  rw [Sight.mention, Scope.lookup_sight, hx]
  cases home with
  | «global» slot =>
    have haddress : (Home.global slot).address = .withNat .globA slot := by
      rw [Home.address, Instruction.withNat, Int64.ofInt_eq_ofNat]
    rw [haddress]
    exact .cons rfl (.variable (hN _ _ _ _ _ hx)) .nil
  | «local» slot => exact .silent (by simp [Home.address, Opcode.refers])
  | argument slot => exact .silent (by simp [Home.address, Opcode.refers])

mutual

theorem Expr.refers_of_emits {N : Scope} (hN : Scope.Rooted P N) (e : Expr) {τ : ValueType} {code : List Instruction}
    (h : e.Emits P N τ code) : Refers P (e.mentions N.sight) code := by
  cases e with
  | int value =>
    cases h with
    | int => exact .cons rfl (.number value) .nil
  | double bits =>
    cases h with
    | double => exact .cons rfl (.number bits.toInt64) .nil
  | text =>
    cases h with
    | text _ hslot => exact .cons rfl (.text hslot) .nil
  | name x =>
    cases h with
    | name hx => exact (refers_address hN hx).append_silent (by simp [Opcode.refers])
  | assign x value =>
    cases h with
    | assign hx hvalue =>
      rw [← List.singleton_append, List.append_assoc]
      exact (refers_address hN hx).append ((value.refers_of_emits hN hvalue).append_silent (by simp [Opcode.refers]))
  | call f args =>
    cases h with
    | function hf hargs =>
      rw [Expr.mentions, Scope.lookup_sight, hf]
      refine .cons_silent rfl ((args.refers_of_emits hN hargs).append (.silent ?_))
      simp [Instruction.withNat, Opcode.refers]
    | primitive hf _ hslot hargs =>
      rw [Expr.mentions, Scope.lookup_sight, hf]
      exact .cons_silent rfl ((args.refers_of_emits hN hargs).append (.cons rfl (.primitive hslot) .nil))
  | paren e =>
    cases h with
    | paren he => exact e.refers_of_emits hN he
  | neg e =>
    cases h with
    | negInt he | negDouble he => exact (e.refers_of_emits hN he).append_silent (by simp [Opcode.refers])
  | binary op left right =>
    cases h with
    | binary _ hleft hright hop =>
      exact ((left.refers_of_emits hN hleft).append (right.refers_of_emits hN hright)).append_silent (Operator.silent_code hop)
  | cast e target =>
    cases h with
    | cast he hop => exact (e.refers_of_emits hN he).append_silent (Operator.silent_code hop)

theorem Args.refers_of_emits {N : Scope} (hN : Scope.Rooted P N) (args : Args) {params : List ValueType} {code : List Instruction}
    (h : args.Emits P N params code) : Refers P (args.mentions N.sight) code := by
  cases args with
  | nil =>
    cases h with
    | nil => exact .nil
  | cons first rest =>
    cases h with
    | cons hfirst hrest => exact (first.refers_of_emits hN hfirst).append (rest.refers_of_emits hN hrest)

end

theorem Declaration.refers_of_emits {N : Scope} {d : Declaration} {home : Home} {code : List Instruction}
    (hN : Scope.Rooted P (d.entry home :: N)) (h : d.Emits P N home code) :
    Refers P (d.mentions N.sight (d.entry home).2.kind) code := by
  unfold Declaration.mentions
  cases h with
  | bare _ hvalue =>
    rw [hvalue]
    exact .nil
  | value _ hvalue he =>
    have hlookup : List.lookup d.name (d.entry home :: N) = some (.variable d.type.type d.isConst true home) :=
      List.lookup_cons_self
    rw [hvalue]
    exact (refers_address hN hlookup).append ((Expr.refers_of_emits hN _ he).append_silent (by simp [Opcode.refers]))

/-! ## Statements -/

variable {returns : ValueType}

mutual

theorem Stmt.refers_of_emits : ∀ (s : Stmt) {inLoop N n items}, Scope.Rooted P N →
    s.Emits P returns inLoop N n items → RefersItems P (s.mentions N.sight) items
  | .declare _, _, _, _, _, hN, .declare hd => .plain (Declaration.refers_of_emits (hN.cons (.inl rfl)) hd)
  | .branch branches, _, _, _, _, hN, .branch hbranches => branches.refers_of_emits hN hbranches
  | .loop condition body, _, _, _, _, hN, .loop hcondition _ hbody =>
    .loop (condition.refers_of_emits hN hcondition) (body.refers_of_emits hN hbody) _
  | .break, _, _, _, _, _, .break | .continue, _, _, _, _, _, .continue | .empty, _, _, _, _, _, .empty => .nil
  | .return none, _, _, _, _, _, .leave _ => .silent (by simp [Item.instructions, Opcode.refers])
  | .return (some value), _, _, _, _, hN, .return _ hvalue =>
    .plain (.cons_silent rfl ((value.refers_of_emits hN hvalue).append_silent (by simp [Opcode.refers])))
  | .block body, _, _, _, _, hN, .block hbody => body.refers_of_emits hN hbody
  | .effect e, _, _, _, _, hN, .effect he => by
    refine .plain ((e.refers_of_emits hN he).append_silent ?_)
    split <;> simp [Opcode.refers]

theorem Block.refers_of_emits : ∀ (b : Block) {inLoop N n items}, Scope.Rooted P N →
    b.Emits P returns inLoop N n items → RefersItems P (b.mentions N.sight) items
  | .nil, _, _, _, _, _, .nil => .nil
  | .cons first rest, _, N, n, _, hN, .cons hfirst hrest => by
    have hitems := first.refers_of_emits hN hfirst
    have hmore := rest.refers_of_emits (hN.stmt first n) hrest
    rw [Scope.sight_append, first.sight_scope] at hmore
    rw [Block.mentions]
    split
    · rwa [List.append_nil]
    · exact hitems.append hmore

theorem Branches.refers_of_emits : ∀ (b : Branches) {inLoop N n items}, Scope.Rooted P N →
    b.Emits P returns inLoop N n items → RefersItems P (b.mentions N.sight) items
  | .only condition body, _, _, _, _, hN, .only hcondition _ hbody =>
    .only (condition.refers_of_emits hN hcondition) (body.refers_of_emits hN hbody)
  | .orElse condition body otherwise, _, _, _, _, hN, .orElse hcondition _ hbody hotherwise =>
    .arm (condition.refers_of_emits hN hcondition) (body.refers_of_emits hN hbody) (otherwise.refers_of_emits hN hotherwise)
  | .orIf condition body rest, _, _, _, _, hN, .orIf hcondition _ hbody hrest =>
    .arm (condition.refers_of_emits hN hcondition) (body.refers_of_emits hN hbody) (rest.refers_of_emits hN hrest)

end

/-! ## Programs -/

theorem DistinctVariables.idxOf?_eq (hP : DistinctVariables P) (hslot : P[slot]? = some (.variable const x)) :
    P.idxOf? (.variable const x) = some slot := by
  cases hfound : P.idxOf? (.variable const x) with
  | none => exact absurd (List.mem_of_getElem? hslot) (List.idxOf?_eq_none_iff.1 hfound)
  | some found => rw [hP (getElem?_of_idxOf? hfound) hslot]

/-- The name of a global variable, whose home is the place of its entry. -/
theorem Scope.Rooted.global (hN : Scope.Rooted P N) {d : Declaration}
    (hslot : P.idxOf? (.variable d.isConst d.name) = some slot) :
    Scope.Rooted P (d.entry (.global slot) :: N) := by
  intro y type const assigned slot' hy
  rw [Declaration.entry, List.lookup_cons] at hy
  split at hy
  · rename_i heq
    cases hy
    rwa [eq_of_beq heq]
  · exact hN _ _ _ _ _ hy

/-- Every definition's code is for what it mentions. -/
theorem Source.refers_of_emits {N N' : Scope} {number : Nat} {A : Source} {outputs : List Output}
    (h : A.Emits P N number outputs N') (hP : DistinctVariables P) (hN : Scope.Rooted P N) :
    Refers P (A.entryMentions N.sight) (entryOf outputs) ∧
      List.Forall₂ (fun mentions f => List.Forall₂ (Mention.Denotes P) mentions f.references) (A.bodyMentions N.sight)
        (functionsOf outputs) := by
  induction h with
  | nil => exact ⟨.nil, .nil⟩
  | cons hd _ _ ih =>
    cases hd with
    | @function name params returns body slot items hslot hparams hbody hreturns =>
      obtain ⟨hentry, hbodies⟩ := ih (hN.cons (.inr rfl))
      refine ⟨hentry, .cons ?_ hbodies⟩
      have hitems := Block.refers_of_emits body (.params (hN.cons (.inr rfl)) params _) hbody
      rw [Scope.sight_append, Param.sight_scope] at hitems
      refine (hitems.close 0 0).append_silent ?_
      split <;> simp [Opcode.refers]
    | @«global» d slot code hslot hd =>
      have hrooted := hN.global (hP.idxOf?_eq hslot)
      obtain ⟨hentry, hbodies⟩ := ih hrooted
      exact ⟨(Declaration.refers_of_emits hrooted hd).append hentry, hbodies⟩

end

/-- The pool of a program, and the operands of its code. -/
theorem Source.refers_of_translate {A : Source} (hg : A.Grouped) (h : A.translate = some p) :
    p.globals.toList = A.pool.map PoolEntry.global ∧
      List.Forall₂ (fun mentions f => List.Forall₂ (Mention.Denotes A.pool) mentions f.references)
        A.mentions p.functions.toList := by
  obtain ⟨outputs, c, returns, number, slot, hrun, hemits, -, hpool, rfl⟩ := Source.exists_outputs hg h
  obtain ⟨hentry, hbodies⟩ := Source.refers_of_emits hemits (hemits.distinctVariables hpool) nofun
  rw [Source.pool_of_outputs hrun] at hentry hbodies ⊢
  refine ⟨rfl, .cons (hentry.append_silent ?_) hbodies⟩
  simp only [mainCode]
  split <;> simp [Instruction.withNat, Opcode.refers]

/-- The tree has the tokens of a list, up to its first end token. -/
def Source.IsTreeOfTokens (A : Source) (tokens : List Token) : Prop :=
  A.Grouped ∧ (tokens.takeWhile Replay.isInner).map Token.terminal = A.yield

/-- Tokens that are accepted have a tree, which is translated into the same program. -/
theorem exists_isTreeOfTokens {tokens : List Token} (h : analyze (Replay.ofTokens tokens) = .ok p) :
    (∃ A : Source, A.IsTreeOfTokens tokens) ∧ ∀ A : Source, A.IsTreeOfTokens tokens → A.translate = some p := by
  obtain ⟨A, hg, hyield, hstop⟩ := analyze_reads h
  refine ⟨⟨A, hg, hyield⟩, fun B hB => ?_⟩
  rw [← analyze_toOption hB.1 hB.2 hstop, h]
  rfl

/-- The pool of an accepted program holds the entry routine and then what the program needs, in the order of the text and nothing
else; and in the code of each function the operands that push literals and take places of the pool are those for what the function
mentions, one after another. -/
theorem analyze_fills_pool {tokens : List Token} {p : Program} (h : analyze (Replay.ofTokens tokens) = .ok p) :
    (∃ A : Source, A.IsTreeOfTokens tokens) ∧ ∀ A : Source, A.IsTreeOfTokens tokens →
      p.globals.toList = A.pool.map PoolEntry.global ∧
      List.Forall₂ (fun mentions f => List.Forall₂ (Mention.Denotes A.pool) mentions f.references)
        A.mentions p.functions.toList := by
  obtain ⟨hexists, htranslate⟩ := exists_isTreeOfTokens h
  exact ⟨hexists, fun A hA => Source.refers_of_translate hA.1 (htranslate A hA)⟩

/-- The tokens of a program with a text and a primitive that are first needed in code that is dropped, and with a function that
has the name of a primitive. -/
def shadowing : List Token := (lex (Bytes.ofString
  "let n: int = 1; fn f() -> int \x7b return n; putstr(\"x\"); \x7d fn putint(k: int) -> void \x7b putln(); \x7d fn main() -> void \x7b putchar('x'); putint(f()); \x7d")).1

/-- The entries of its pool. -/
def shadowingPool : List PoolEntry :=
  [.function (Bytes.ofString "_start"), .variable false (Bytes.ofString "n"), .function (Bytes.ofString "f"),
    .primitive (Bytes.ofString "putstr"), .literal (Bytes.ofString "x"), .function (Bytes.ofString "putint"),
    .primitive (Bytes.ofString "putln"), .function (Bytes.ofString "main"), .primitive (Bytes.ofString "putchar")]

theorem analyze_fills_pool_shadowing : ∃ p, analyze (Replay.ofTokens shadowing) = .ok p ∧
    ∃ A : Source, A.IsTreeOfTokens shadowing ∧
    A.pool.map PoolEntry.global = shadowingPool.map PoolEntry.global ∧ p.globals.toList = A.pool.map PoolEntry.global ∧
    List.Forall₂ (fun mentions f => List.Forall₂ (Mention.Denotes A.pool) mentions f.references)
      A.mentions p.functions.toList := by
  have hglobals : (analyze (Replay.ofTokens shadowing)).toOption.map (·.globals.toList) =
    some (shadowingPool.map PoolEntry.global) := by
    decide +kernel
  rcases hp : analyze (Replay.ofTokens shadowing) with e | p
  · rw [hp] at hglobals
    cases hglobals
  · rw [hp] at hglobals
    obtain ⟨⟨A, hA⟩, hpool⟩ := analyze_fills_pool hp
    exact ⟨p, rfl, A, hA, (hpool A hA).1.symm.trans (Option.some.inj hglobals), hpool A hA⟩

end OnePass

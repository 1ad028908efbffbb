import OnePass.Proofs.Emission.Rules

/-!
# Laws of emission

Much of what holds of the code of all trees holds since every rule of emission keeps it. Such a property is a law: `CodeLaw` for
the code of expressions, which is put together from few kinds of pieces, and `ItemLaw` for the items of statements, which may also
depend on the names, the locals and the flow. The inductions over the rules are made here once.
-/

namespace OnePass

variable {P : List PoolEntry} {N : Scope} {code : List Instruction}

/-! ## Expressions -/

/-- The property holds of the pieces of expressions, and of code that is put together from code which has it. -/
structure CodeLaw (P : List PoolEntry) (N : Scope) (T : List Instruction → Prop) : Prop where
  nil : T []
  append {code more : List Instruction} (hcode : T code) (hmore : T more) : T (code ++ more)
  push (value : Int64) : T [{ op := .push, operand := value }]
  address {x : Bytes} {type : ValueType} {const assigned : Bool} {home : Home}
    (hx : N.lookup x = some (.variable type const assigned home)) : T [home.address]
  load : T [{ op := .load }]
  store : T [{ op := .store }]
  stackAlloc (type : ValueType) : T [.withNat .stackAlloc type.slots]
  call {f : Bytes} {params : List ValueType} {returns : ValueType} {number slot : Nat}
    (hf : N.lookup f = some (.function params returns number slot)) : T [.withNat .call number]
  callName {f : Bytes} {slot : Nat} (hslot : P.idxOf? (.primitive f) = some slot) : T [.withNat .callName slot]
  negInt : T [{ op := .negI }]
  negDouble : T [{ op := .negF }]
  operation {op : Operator} {τ1 τ2 τ : ValueType} {code : List Instruction} (hop : op.code τ1 τ2 = .ok (code, τ)) : T code

namespace CodeLaw

variable {T : List Instruction → Prop}

/-- Code between two instructions. -/
theorem within (h : CodeLaw P N T) {i j : Instruction} (hi : T [i]) (hcode : T code) (hj : T [j]) : T (i :: code ++ [j]) :=
  h.append (h.append hi hcode) hj

mutual

theorem expr (h : CodeLaw P N T) : ∀ (e : Expr) {τ code}, e.Emits P N τ code → T code
  | .int _, _, _, .int _ | .double _, _, _, .double _ | .text _ _, _, _, .text _ _ => h.push _
  | .name _, _, _, .name hx => h.append (h.address hx) h.load
  | .assign _ value, _, _, .assign hx hvalue => h.within (h.address hx) (h.expr value hvalue) h.store
  | .call _ args, _, _, .function hf hargs => h.within (h.stackAlloc _) (h.args args hargs) (h.call hf)
  | .call _ args, _, _, .primitive _ _ hslot hargs => h.within (h.stackAlloc _) (h.args args hargs) (h.callName hslot)
  | .paren e, _, _, .paren he => h.expr e he
  | .neg e, _, _, .negInt he => h.append (h.expr e he) h.negInt
  | .neg e, _, _, .negDouble he => h.append (h.expr e he) h.negDouble
  | .binary _ left right, _, _, .binary _ hleft hright hop =>
    h.append (h.append (h.expr left hleft) (h.expr right hright)) (h.operation hop)
  | .cast e _, _, _, .cast he hop => h.append (h.expr e he) (h.operation hop)

theorem args (h : CodeLaw P N T) : ∀ (args : Args) {params code}, args.Emits P N params code → T code
  | .nil, _, _, .nil => h.nil
  | .cons first rest, _, _, .cons hfirst hrest => h.append (h.expr first hfirst) (h.args rest hrest)

end

/-- The value of a declaration may use the name that is declared. -/
theorem declaration {d : Declaration} {home : Home} (h : CodeLaw P (d.entry home :: N) T) (hd : d.Emits P N home code) :
    T code := by
  cases hd with
  | bare => exact h.nil
  | value htype hvalue he => exact h.within (h.address List.lookup_cons_self) (h.expr _ he) h.store

end CodeLaw

/-! ## Statements -/

/-- The property of items, with the names, the next local, the declarations and the flow of a statement, is kept by all rules. -/
structure ItemLaw (P : List PoolEntry) (returns : ValueType)
    (Q : Bool → Scope → Nat → List Declaration → Flow → List Item → Prop) : Prop where
  nil {inLoop N n} : Q inLoop N n [] {} []
  cons {inLoop N n ds f items more} {first : Stmt} (hemits : first.Emits P returns inLoop N n items)
    (hfirst : Q inLoop N n first.locals first.flow items)
    (hrest : Q inLoop (first.scope n ++ N) (n + first.locals.length) ds f more) :
    Q inLoop N n (first.locals ++ ds) (if first.flow.leaves then first.flow else f)
      (if first.flow.leaves then items else items ++ more)
  declare {inLoop N n code} {d : Declaration} (hd : d.Emits P N (.local n) code) : Q inLoop N n [d] {} (plain code)
  effect {inLoop N n τ code} {e : Expr} (he : e.Emits P N τ code) :
    Q inLoop N n [] {} (plain (code ++ if τ = .void then [] else [{ op := .pop }]))
  exit {N n} : Q true N n [] { breaks := true } [.exit]
  again {N n} : Q true N n [] { breaks := true } [.again]
  leave {inLoop N n} (hreturns : returns = .void) : Q inLoop N n [] { returns := true } [.instr { op := .ret }]
  result {inLoop N n code} {value : Expr} (hreturns : returns ≠ .void) (hvalue : value.Emits P N returns code) :
    Q inLoop N n [] { returns := true } (plain ({ op := .argA } :: code ++ [{ op := .store }, { op := .ret }]))
  loop {inLoop N n τ test ds f items} {condition : Expr} (hcondition : condition.Emits P N τ test) (htype : τ ≠ .void)
    (hbody : Q true N n ds f items) : Q inLoop N n ds {} (plain (closedLoop (loopItems (testCode test) items f.breaks)))
  arm {inLoop N n τ test ds ds' f g items others} {condition : Expr} (hcondition : condition.Emits P N τ test) (htype : τ ≠ .void)
    (hbody : Q inLoop N n ds f items) (hothers : Q inLoop N (n + ds.length) ds' g others) :
    Q inLoop N n (ds ++ ds') (f.both g) (armItems (testCode test) items others)

namespace ItemLaw

variable {returns : ValueType} {Q : Bool → Scope → Nat → List Declaration → Flow → List Item → Prop}

/-- An `if` without an `else` is one whose other branch is empty. -/
theorem only (h : ItemLaw P returns Q) {inLoop N n τ test ds f items} {condition : Expr} (hcondition : condition.Emits P N τ test)
    (htype : τ ≠ .void) (hbody : Q inLoop N n ds f items) : Q inLoop N n ds {} (armItems (testCode test) items []) := by
  have harm := h.arm hcondition htype hbody h.nil
  rwa [List.append_nil, Flow.both, Bool.and_false, Bool.and_false] at harm

mutual

theorem stmt (h : ItemLaw P returns Q) : ∀ (s : Stmt) {inLoop N n items},
    s.Emits P returns inLoop N n items → Q inLoop N n s.locals s.flow items
  | .declare _, _, _, _, _, .declare hd => h.declare hd
  | .branch branches, _, _, _, _, .branch hbranches => h.branches branches hbranches
  | .loop _ body, _, _, _, _, .loop hcondition htype hbody => h.loop hcondition htype (h.block body hbody)
  | .break, _, _, _, _, .break => h.exit
  | .continue, _, _, _, _, .continue => h.again
  | .return none, _, _, _, _, .leave hreturns => h.leave hreturns
  | .return (some _), _, _, _, _, .return hreturns hvalue => h.result hreturns hvalue
  | .block body, _, _, _, _, .block hbody => h.block body hbody
  | .empty, _, _, _, _, .empty => h.nil
  | .effect _, _, _, _, _, .effect he => h.effect he

theorem block (h : ItemLaw P returns Q) : ∀ (b : Block) {inLoop N n items},
    b.Emits P returns inLoop N n items → Q inLoop N n b.locals b.flow items
  | .nil, _, _, _, _, .nil => h.nil
  | .cons first rest, _, _, _, _, .cons hfirst hrest => h.cons hfirst (h.stmt first hfirst) (h.block rest hrest)

theorem branches (h : ItemLaw P returns Q) : ∀ (b : Branches) {inLoop N n items},
    b.Emits P returns inLoop N n items → Q inLoop N n b.locals b.flow items
  | .only _ body, _, _, _, _, .only hcondition htype hbody => h.only hcondition htype (h.block body hbody)
  | .orElse _ body otherwise, _, _, _, _, .orElse hcondition htype hbody hotherwise =>
    h.arm hcondition htype (h.block body hbody) (h.block otherwise hotherwise)
  | .orIf _ body rest, _, _, _, _, .orIf hcondition htype hbody hrest =>
    h.arm hcondition htype (h.block body hbody) (h.branches rest hrest)

end

end ItemLaw

end OnePass

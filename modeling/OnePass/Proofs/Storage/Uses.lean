import OnePass.Proofs.Emission.Traces
import OnePass.Proofs.Evaluation.Calls

/-!
# What code does with storage

A function keeps its result, its parameters and the variables that are declared in it in cells of its call. The code of a tree
takes the addresses of these cells and of global variables, loads and stores, reserves slots for results, calls and returns. It
does so in the order in which the tree uses storage (`Block.uses`), and the instruction for each use has the operand that the
layout of the function gives (`Use.Denotes`). What a name stands for is what it stands for when the tree is evaluated.
-/

namespace OnePass

/-! ## Layouts -/

/-- What a function has cells for: its parameters, its result and the declarations in its body. -/
structure Layout where
  params : List Param
  returns : ValueType
  locals : List Declaration

/-- A cell of a call. -/
inductive Cell where
  | result
  | argument (i : Nat)
  | local (j : Nat)
  deriving DecidableEq, Repr

namespace Layout

variable (L : Layout)

/-- The function has this cell. -/
def Has : Cell → Prop
  | .result => L.returns ≠ .void
  | .argument i => i < L.params.length
  | .local j => j < L.locals.length

/-- The instruction that pushes the address of a cell. -/
def address : Cell → Instruction
  | .result => .withNat .argA 0
  | .argument i => .withNat .argA (L.returns.slots + i)
  | .local j => .withNat .locA j

/-- A call of the function, as far as names go. -/
def setting : Setting where
  function := 0
  lower := []
  callers := []
  returns := L.returns
  params := L.params.map (·.type.type)
  locals := L.locals.map (·.type.type)

end Layout

/-- In a function with this layout a name that stands for this is the name of it. -/
def Referent.IsNamed (A : Source) (L : Layout) (x : Bytes) : Referent → Prop
  | global y => y = x
  | argument i => ∃ param, L.params[i]? = some param ∧ param.name = x
  | .local j => ∃ d, L.locals[j]? = some d ∧ d.name = x
  | function k => ∃ params returns body, A[k]? = some (.function x params returns body)

/-! ## Uses -/

/-- What a tree does with storage. -/
inductive Use where
  /-- Takes the address of the result. -/
  | result
  /-- Takes the address of the variable that a name stands for. -/
  | address (x : Bytes) (r : Referent)
  | load
  | store
  /-- Reserves slots for the result of a call. -/
  | reserve (slots : Nat)
  /-- Calls the function with a place among the definitions, with so many arguments above so many slots for the result. -/
  | call (f : Bytes) (k args slots : Nat)
  | primitive (f : Bytes)
  | leave
  deriving DecidableEq, Repr

/-- The operation uses storage other than the operands. -/
def Opcode.usesStorage : Opcode → Bool
  | argA | locA | globA | load | store | stackAlloc | call | callName | ret => true
  | _ => false

/-- The instruction is for the use, in a function with this layout. -/
inductive Use.Denotes (A : Source) (p : Program) (L : Layout) : Use → Instruction → Prop where
  | result (h : L.returns ≠ .void) : Denotes A p L .result (L.address .result)
  | argument {i : Nat} {param : Param} (h : L.params[i]? = some param) :
    Denotes A p L (.address param.name (.argument i)) (L.address (.argument i))
  | local {j : Nat} {d : Declaration} (h : L.locals[j]? = some d) :
      Denotes A p L (.address d.name (.local j)) (L.address (.local j))
  | global {x : Bytes} {const : Bool} {slot : Nat} (h : p.globals[slot]? = some (PoolEntry.variable const x).global) :
    Denotes A p L (.address x (.global x)) (.withNat .globA slot)
  | load : Denotes A p L .load { op := .load }
  | store : Denotes A p L .store { op := .store }
  | reserve (slots : Nat) : Denotes A p L (.reserve slots) (.withNat .stackAlloc slots)
  /-- The header of the function that is called tells what stands on the stack for it. -/
  | call {f : Bytes} {k args slots : Nat} {params : List Param} {returns : TypeName} {body : Block} {g : Function}
    (hk : A[k]? = some (.function f params returns body)) (hg : p.functions[Source.functions (A.take k) + 1]? = some g)
    (hparams : g.header.params = .ofNat args) (hreturns : g.header.returns = .ofNat slots) :
    Denotes A p L (.call f k args slots) (.withNat .call (Source.functions (A.take k) + 1))
  | primitive {f : Bytes} {slot : Nat} (h : p.globals[slot]? = some (PoolEntry.primitive f).global) :
    Denotes A p L (.primitive f) (.withNat .callName slot)
  | leave : Denotes A p L .leave { op := .ret }

/-- The slots of the result of the function with a place among the definitions. -/
def Source.resultSlots (A : Source) (k : Nat) : Nat :=
  match A[k]? with
  | some (.function _ _ returns _) => returns.type.slots
  | _ => 0

/-- How many arguments there are. -/
def Args.length : Args → Nat
  | .nil => 0
  | .cons _ rest => rest.length + 1

/-- The use of a variable's address. -/
def variableUses (E : Environment) (x : Bytes) : List Use := ((E.lookup x).map (Use.address x)).toList

/-- The uses of a call, whose arguments have these: the result has its slots beneath the arguments. -/
def callUses (A : Source) (E : Environment) (f : Bytes) (count : Nat) (args : List Use) : List Use :=
  match E.lookup f with
  | some (.function k) => .reserve (A.resultSlots k) :: args ++ [.call f k count (A.resultSlots k)]
  | _ => .reserve ((Primitive.ofName? f).elim 0 (·.signature.returns.slots)) :: args ++ [.primitive f]

mutual

/-- How an expression uses storage, in the order of its code. -/
def Expr.uses (A : Source) (E : Environment) : Expr → List Use
  | .int _ | .double _ | .text .. => []
  | .name x => variableUses E x ++ [.load]
  | .assign x value => variableUses E x ++ (value.uses A E ++ [.store])
  | .call f args => callUses A E f args.length (args.uses A E)
  | .paren e | .neg e | .cast e _ => e.uses A E
  | .binary _ left right => left.uses A E ++ right.uses A E

/-- How arguments use storage. -/
def Args.uses (A : Source) (E : Environment) : Args → List Use
  | .nil => []
  | .cons first rest => first.uses A E ++ rest.uses A E

end

/-- How the initial value of a variable is stored. -/
def Declaration.uses (A : Source) (E : Environment) (r : Referent) (d : Declaration) : List Use :=
  d.value?.elim [] fun value => .address d.name r :: (value.uses A ((d.name, r) :: E) ++ [.store])

/-- A function with a result stores it before it returns. -/
def returnUses (returns : ValueType) (value : List Use) : List Use :=
  if returns = .void then value ++ [.leave] else .result :: (value ++ [.store, .leave])

mutual

/-- How a statement uses storage, the first declaration in which has the cell `n`. -/
def Stmt.uses (A : Source) (returns : ValueType) (E : Environment) (n : Nat) : Stmt → List Use
  | .declare d => d.uses A E (.local n)
  | .branch branches => branches.uses A returns E n
  | .loop condition body => condition.uses A E ++ body.uses A returns E n
  | .return none => returnUses returns []
  | .return (some value) => returnUses returns (value.uses A E)
  | .block body => body.uses A returns E n
  | .effect e => e.uses A E
  | .break | .continue | .empty => []

/-- How a block uses storage, up to the first statement that leaves it. Declarations after that have cells, too. -/
def Block.uses (A : Source) (returns : ValueType) (E : Environment) (n : Nat) : Block → List Use
  | .nil => []
  | .cons first rest => first.uses A returns E n ++
      if first.flow.leaves then [] else rest.uses A returns (first.environment n ++ E) (n + first.locals.length)

/-- How the branches of an `if` use storage. -/
def Branches.uses (A : Source) (returns : ValueType) (E : Environment) (n : Nat) : Branches → List Use
  | .only condition body => condition.uses A E ++ body.uses A returns E n
  | .orElse condition body otherwise =>
    condition.uses A E ++ (body.uses A returns E n ++ otherwise.uses A returns E (n + body.locals.length))
  | .orIf condition body rest => condition.uses A E ++ (body.uses A returns E n ++ rest.uses A returns E (n + body.locals.length))

end

/-- How a function uses storage. Its body sees its parameters and the definitions up to its own, and it returns at its end, too. -/
def Block.bodyUses (A : Source) (k : Nat) (params : List Param) (returns : ValueType) (body : Block) : List Use :=
  body.uses A returns (Param.environment 0 params ++ Source.environment 0 (A.take (k + 1))) 0 ++
    if body.flow.returns then [] else [.leave]

/-- How the entry routine uses storage: it goes through the definitions and then calls the main function. -/
def Source.entryUses (A : Source) (E : Environment) : Nat → Source → List Use
  | _, [] => callUses A E Analysis.mainName 0 []
  | k, .function name _ _ _ :: ds => entryUses A ((name, .function k) :: E) (k + 1) ds
  | k, .global d :: ds => d.uses A E (.global d.name) ++ entryUses A ((d.name, .global d.name) :: E) (k + 1) ds

/-! ## Names -/

section

variable {A : Source} {P : List PoolEntry} {p : Program} {L : Layout} {N : Scope} {E : Environment}
variable {x : Bytes} {returns type : ValueType} {assigned const : Bool} {home : Home} {params : List Param} {r : Referent}
  {code : List Instruction}

/-- In a function with this layout the names stand for the same in the code and in the tree, and each is the name of what it
stands for. -/
structure Layout.Sees (A : Source) (P : List PoolEntry) (L : Layout) (N : Scope) (E : Environment) : Prop where
  means : N.Means A P L.setting E
  named {x : Bytes} {r : Referent} (h : (x, r) ∈ E) : r.IsNamed A L x

theorem Layout.Sees.append {N' : Scope} {E' : Environment} (h : L.Sees A P N E) (h' : L.Sees A P N' E') :
    L.Sees A P (N ++ N') (E ++ E') :=
  ⟨h.means.append h'.means, fun hmem => (List.mem_append.1 hmem).elim h.named h'.named⟩

theorem Layout.Sees.lookup (h : L.Sees A P N E) {x : Bytes} {b : Binding} (hx : N.lookup x = some b) :
    ∃ r, E.lookup x = some r ∧ b.Means A P L.setting r ∧ r.IsNamed A L x := by
  obtain ⟨r, hr, hb⟩ := h.means.lookup hx
  obtain ⟨l, l', rfl, -⟩ := List.lookup_eq_some_iff.1 hr
  exact ⟨r, hr, hb, h.named (by simp)⟩

/-- The address of a variable is that of what its name stands for. -/
theorem Layout.Sees.denotes_address (h : L.Sees A P N E) (hp : p.globals = (P.map PoolEntry.global).toArray)
    (hx : N.lookup x = some (.variable type const assigned home)) :
    ∃ r, E.lookup x = some r ∧ (Use.address x r).Denotes A p L home.address := by
  obtain ⟨r, hr, ⟨-, hhome⟩, hnamed⟩ := h.lookup hx
  refine ⟨r, hr, ?_⟩
  cases home with
  | «global» slot =>
    cases r with
    | «global» y =>
      obtain ⟨-, const, hslot⟩ := hhome
      obtain rfl : y = x := hnamed
      rw [Home.address, Int64.ofInt_eq_ofNat]
      have hglobal : p.globals[slot]? = some (PoolEntry.variable const y).global := by
        rw [hp, List.getElem?_toArray, List.getElem?_map, hslot]
        rfl
      exact .global hglobal
    | _ => exact hhome.elim
  | «local» n =>
    cases r with
    | «local» j =>
      obtain ⟨rfl, -⟩ := hhome
      obtain ⟨d, hd, rfl⟩ := hnamed
      rw [Home.address, Int64.ofInt_eq_ofNat]
      exact .local hd
    | _ => exact hhome.elim
  | argument n =>
    cases r with
    | argument i =>
      obtain ⟨rfl, -⟩ := hhome
      obtain ⟨param, hparam, rfl⟩ := hnamed
      rw [Home.address, Int64.ofInt_eq_ofNat]
      exact .argument hparam
    | _ => exact hhome.elim

theorem Param.named_environment {i : Nat} (hparams : L.params.drop i = params) (h : (x, r) ∈ Param.environment i params) :
    r.IsNamed A L x := by
  induction params generalizing i with
  | nil => cases h
  | cons param params ih =>
    have hdrop : L.params.drop (i + 1) = params := by
      rw [← List.drop_drop, hparams]
      rfl
    rcases List.mem_append.1 h with h | h
    · exact ih hdrop h
    · cases List.mem_singleton.1 h
      refine ⟨param, ?_, rfl⟩
      rw [← List.head?_drop, hparams]
      rfl

theorem Source.named_environment {done post : Source} (hA : A = done ++ post) (h : (x, r) ∈ Source.environment 0 done) :
    r.IsNamed A L x := by
  induction done using List.reverseRecOn generalizing post with
  | nil => cases h
  | append_singleton done d ih =>
    rw [Source.environment_append, Nat.zero_add] at h
    rw [List.append_assoc] at hA
    rcases List.mem_cons.1 h with h | h
    · cases h
      cases d with
      | function name params returns body =>
        refine ⟨params, returns, body, ?_⟩
        rw [hA, List.getElem?_append_right (Nat.le_refl _), Nat.sub_self]
        rfl
      | «global» d => rfl
    · exact ih hA h

/-- A declaration gives its name to the next cell. -/
theorem Stmt.sees_scope {st : Stmt} {inLoop : Bool} {n : Nat} {items : List Item} (hst : st.Emits P returns inLoop N n items)
    (hlocals : st.locals <+: L.locals.drop n) (h : L.Sees A P N E) : L.Sees A P (st.scope n ++ N) (st.environment n ++ E) := by
  cases hst with
  | @declare inLoop N n d code hd =>
    obtain ⟨rest, hrest⟩ := hlocals
    have hget : L.locals[n]? = some d := by
      rw [← List.head?_drop, ← hrest]
      rfl
    refine ⟨⟨rfl, ⟨TypeName.isStored_type hd.type_ne, rfl, ?_⟩, h.means⟩, fun {x r} hmem => ?_⟩
    · rw [Layout.setting, List.getElem?_map, hget]
      rfl
    · rcases List.mem_cons.1 hmem with hmem | hmem
      · cases hmem
        exact ⟨d, hget, rfl⟩
      · exact h.named hmem
  | _ => exact h

/-! ## Expressions -/

instance : Opcode.IsStraight Opcode.usesStorage := ⟨rfl, rfl⟩

/-- The code uses storage like this. -/
abbrev Performs (A : Source) (p : Program) (L : Layout) (uses : List Use) (code : List Instruction) : Prop :=
  Traces Opcode.usesStorage (Use.Denotes A p L) uses code

/-- The items use storage like this. -/
abbrev PerformsItems (A : Source) (p : Program) (L : Layout) (uses : List Use) (items : List Item) : Prop :=
  TracesItems Opcode.usesStorage (Use.Denotes A p L) uses items

theorem Operator.usesStorage_code {op : Operator} {left right τ : ValueType} (h : op.code left right = .ok (code, τ)) :
    ∀ i ∈ code, i.op.usesStorage = false := by
  cases op <;> cases left <;> cases right <;> cases h <;> decide

theorem Args.length_params_of_emits (args : Args) {params : List ValueType} {code : List Instruction}
    (h : args.Emits P N params code) :
    params.length = args.length := by
  cases args with
  | nil =>
    cases h with
    | nil => rfl
  | cons first rest =>
    cases h with
    | cons _ hrest => rw [List.length_cons, rest.length_params_of_emits hrest, Args.length]

/-- The header of a function tells how many parameters it has and whether it has a result. -/
theorem Source.Makes.exists_header (hp : A.Makes P p) {k : Nat} {name : Bytes} {returns : TypeName} {body : Block}
    (hk : A[k]? = some (.function name params returns body)) :
    ∃ g, p.functions[Source.functions (A.take k) + 1]? = some g ∧ g.header.params = .ofNat params.length ∧
      g.header.returns = .ofNat returns.type.slots ∧ g.header.locals = .ofNat body.locals.length := by
  obtain ⟨g, N, entry, before, hg, -, hd, -⟩ := hp.exists_function hk
  cases hd with
  | function => exact ⟨_, hg, rfl, rfl, rfl⟩

theorem Layout.Sees.performs_address (h : L.Sees A P N E) (hp : A.Makes P p)
    (hx : N.lookup x = some (.variable type const assigned home)) :
    Performs A p L (variableUses E x) [home.address] := by
  obtain ⟨r, hr, hdenotes⟩ := h.denotes_address hp.globals hx
  rw [variableUses, hr]
  refine .cons ?_ hdenotes .nil
  cases home <;> rfl

/-- A call of a function. -/
theorem Layout.Sees.performs_call (h : L.Sees A P N E) (hp : A.Makes P p) {f : Bytes} {params : List ValueType}
    {number slot : Nat}
    (hf : N.lookup f = some (.function params returns number slot)) {args : List Use} (hargs : Performs A p L args code) :
    Performs A p L (callUses A E f params.length args)
      (.withNat .stackAlloc returns.slots :: code ++ [.withNat .call number]) := by
  obtain ⟨r, hr, hmeans, hnamed⟩ := h.lookup hf
  cases r with
  | function k =>
    obtain ⟨-, rfl, name, ps, type, body, hk, rfl, rfl⟩ := hmeans
    obtain ⟨ps', type', body', hk'⟩ := hnamed
    cases hk.symm.trans hk'
    obtain ⟨g, hg, hparams, hreturns, -⟩ := hp.exists_header hk
    have hslots : A.resultSlots k = type.type.slots := by rw [Source.resultSlots, hk]
    rw [callUses, hr, List.length_map]
    simp only [hslots]
    exact .cons rfl (.reserve _) (hargs.append (.cons rfl (.call hk hg hparams hreturns) .nil))
  | _ => exact hmeans.elim

mutual

theorem Expr.performs (hp : A.Makes P p) (hN : L.Sees A P N E) (e : Expr) {τ : ValueType} {code : List Instruction}
    (h : e.Emits P N τ code) : Performs A p L (e.uses A E) code := by
  cases e with
  | int | double | text =>
    cases h
    exact .silent (by simp [Opcode.usesStorage, Instruction.withNat])
  | name x =>
    cases h with
    | name hx => exact (hN.performs_address hp hx).append (.cons rfl .load .nil)
  | assign x value =>
    cases h with
    | assign hx hvalue =>
      rw [← List.singleton_append, List.append_assoc]
      exact (hN.performs_address hp hx).append ((value.performs hp hN hvalue).append (.cons rfl .store .nil))
  | call f args =>
    cases h with
    | function hf hargs =>
      rw [Expr.uses, ← args.length_params_of_emits hargs]
      exact hN.performs_call hp hf (args.performs hp hN hargs)
    | @primitive _ _ routine slot code hf hroutine hslot hargs =>
      have hglobal : p.globals[slot]? = some (PoolEntry.primitive f).global := by
        rw [hp.globals, List.getElem?_toArray, List.getElem?_map, getElem?_of_idxOf? hslot]
        rfl
      rw [Expr.uses, callUses, hN.means.lookup_none hf, hroutine]
      exact .cons rfl (.reserve _) ((args.performs hp hN hargs).append (.cons rfl (.primitive hglobal) .nil))
  | paren e =>
    cases h with
    | paren he => exact e.performs hp hN he
  | neg e =>
    cases h with
    | negInt he | negDouble he => exact (e.performs hp hN he).append_silent (by simp [Opcode.usesStorage])
  | binary op left right =>
    cases h with
    | binary _ hleft hright hop =>
      exact ((left.performs hp hN hleft).append (right.performs hp hN hright)).append_silent (Operator.usesStorage_code hop)
  | cast e target =>
    cases h with
    | cast he hop => exact (e.performs hp hN he).append_silent (Operator.usesStorage_code hop)

theorem Args.performs (hp : A.Makes P p) (hN : L.Sees A P N E) (args : Args) {params : List ValueType} {code : List Instruction}
    (h : args.Emits P N params code) : Performs A p L (args.uses A E) code := by
  cases args with
  | nil =>
    cases h with
    | nil => exact .nil
  | cons first rest =>
    cases h with
    | cons hfirst hrest => exact (first.performs hp hN hfirst).append (rest.performs hp hN hrest)

end

/-! ## Statements -/

/-- The initial value of a variable is stored in the variable. -/
theorem Declaration.performs (hp : A.Makes P p) {d : Declaration} {home : Home} {r : Referent}
    (hN : L.Sees A P (d.entry home :: N) ((d.name, r) :: E)) {code : List Instruction} (h : d.Emits P N home code) :
    Performs A p L (d.uses A E r) code := by
  unfold Declaration.uses
  cases h with
  | bare _ hvalue =>
    rw [hvalue]
    exact .nil
  | @value e code _ hvalue he =>
    have hx : List.lookup d.name (d.entry home :: N) = some (.variable d.type.type d.isConst true home) := List.lookup_cons_self
    have haddress := hN.performs_address hp hx
    rw [variableUses, List.lookup_cons_self] at haddress
    rw [hvalue]
    exact haddress.append ((e.performs hp hN he).append (.cons rfl .store .nil))

variable {returns : ValueType}

mutual

theorem Stmt.performs (hp : A.Makes P p) (hL : L.returns = returns) : ∀ (st : Stmt) {inLoop N E n items}, L.Sees A P N E →
    st.locals <+: L.locals.drop n → st.Emits P returns inLoop N n items →
    PerformsItems A p L (st.uses A returns E n) items
  | .declare d, _, _, _, _, _, hN, hlocals, hst@(.declare hd) => (d.performs hp (Stmt.sees_scope hst hlocals hN) hd).plain
  | .branch branches, _, _, _, _, _, hN, hlocals, .branch hbranches => branches.performs hp hL hN hlocals hbranches
  | .loop condition body, _, _, _, _, _, hN, hlocals, .loop hcondition _ hbody =>
    .loop (condition.performs hp hN hcondition) (body.performs hp hL hN hlocals hbody) _
  | .break, _, _, _, _, _, _, _, .break | .continue, _, _, _, _, _, _, _, .continue | .empty, _, _, _, _, _, _, _, .empty => .nil
  | .return none, _, _, _, _, _, _, _, .leave hreturns => by
    rw [Stmt.uses, returnUses, if_pos hreturns]
    exact .cons rfl .leave .nil
  | .return (some value), _, _, _, _, _, hN, _, .return hreturns hvalue => by
    rw [Stmt.uses, returnUses, if_neg hreturns]
    refine .plain (.cons rfl (.result (hL ▸ hreturns)) ?_)
    exact (value.performs hp hN hvalue).append (.cons rfl .store (.cons rfl .leave .nil))
  | .block body, _, _, _, _, _, hN, hlocals, .block hbody => body.performs hp hL hN hlocals hbody
  | .effect e, _, _, _, _, _, hN, _, .effect he => by
    refine ((e.performs hp hN he).append_silent ?_).plain
    split <;> simp [Opcode.usesStorage]

theorem Block.performs (hp : A.Makes P p) (hL : L.returns = returns) : ∀ (b : Block) {inLoop N E n items}, L.Sees A P N E →
    b.locals <+: L.locals.drop n → b.Emits P returns inLoop N n items →
    PerformsItems A p L (b.uses A returns E n) items
  | .nil, _, _, _, _, _, _, _, .nil => .nil
  | .cons first rest, _, _, _, _, _, hN, hlocals, .cons hfirst hrest => by
    obtain ⟨hlocals1, hlocals2⟩ := prefix_drop_append hlocals
    have hitems := first.performs hp hL hN hlocals1 hfirst
    rw [Block.uses]
    split
    · rwa [List.append_nil]
    · exact hitems.append (rest.performs hp hL (Stmt.sees_scope hfirst hlocals1 hN) hlocals2 hrest)

theorem Branches.performs (hp : A.Makes P p) (hL : L.returns = returns) : ∀ (b : Branches) {inLoop N E n items}, L.Sees A P N E →
    b.locals <+: L.locals.drop n → b.Emits P returns inLoop N n items →
    PerformsItems A p L (b.uses A returns E n) items
  | .only condition body, _, _, _, _, _, hN, hlocals, .only hcondition _ hbody =>
    .only (condition.performs hp hN hcondition) (body.performs hp hL hN hlocals hbody)
  | .orElse condition body otherwise, _, _, _, _, _, hN, hlocals, .orElse hcondition _ hbody hotherwise =>
    .arm (condition.performs hp hN hcondition) (body.performs hp hL hN (prefix_drop_append hlocals).1 hbody)
      (otherwise.performs hp hL hN (prefix_drop_append hlocals).2 hotherwise)
  | .orIf condition body rest, _, _, _, _, _, hN, hlocals, .orIf hcondition _ hbody hrest =>
    .arm (condition.performs hp hN hcondition) (body.performs hp hL hN (prefix_drop_append hlocals).1 hbody)
      (rest.performs hp hL hN (prefix_drop_append hlocals).2 hrest)

end

end

end OnePass

import OnePass.Proofs.Emission.Derivation

/-!
# Sizes of code

A tree has no more than three instructions for each of its terminals, and no more locals, parameters and functions than terminals.
So the code of a short source is short (`Source.Makes.size_code_le`).
-/

namespace OnePass

/-! ## Instructions -/

section

variable {P : List PoolEntry}

/-- Terminals for so many instructions, at most three for each of them, with the texts among them in the pool. -/
structure Affords (P : List PoolEntry) (n : Nat) (ts : List Terminal) : Prop where
  length_le : n ≤ 3 * ts.length
  texts (quote : Quote) (content : Bytes) (h : .text quote content ∈ ts) : .literal content ∈ P

namespace Affords

variable {n m : Nat} {ts us : List Terminal}

theorem nil : Affords P 0 [] := ⟨Nat.le_refl 0, by simp⟩

theorem mono (h : Affords P n ts) (hm : m ≤ n) : Affords P m ts := ⟨Nat.le_trans hm h.length_le, h.texts⟩

theorem append (h : Affords P n ts) (h' : Affords P m us) : Affords P (n + m) (ts ++ us) where
  length_le := by
    rw [List.length_append, Nat.mul_add]
    exact Nat.add_le_add h.length_le h'.length_le
  texts quote content hmem := (List.mem_append.1 hmem).elim (h.texts quote content) (h'.texts quote content)

theorem mark (h : Affords P n ts) {k : TokenKind} : Affords P (3 + n) (.mark k :: ts) := by
  have hmark : Affords P 3 [.mark k] := ⟨Nat.le_refl 3, by simp⟩
  exact hmark.append h

theorem name (h : Affords P n ts) {x : Bytes} : Affords P (3 + n) (.name x :: ts) := by
  have hname : Affords P 3 [.name x] := ⟨Nat.le_refl 3, by simp⟩
  exact hname.append h

end Affords

theorem Operator.length_code_le {op : Operator} {τ1 τ2 τ : ValueType} {code : List Instruction}
    (h : op.code τ1 τ2 = .ok (code, τ)) :
    code.length ≤ 3 := by
  cases op <;> cases τ1 <;> cases τ2 <;> cases h <;> decide

mutual

theorem Expr.affords : ∀ (e : Expr) {N τ code}, e.Emits P N τ code →
    Affords P code.length e.yield
  | .int _, _, _, _, .int _ | .double _, _, _, _, .double _ => ⟨by simp [Expr.yield], by simp [Expr.yield]⟩
  | .text _ _, _, _, _, .text _ hslot =>
    ⟨by simp [Expr.yield], by simpa [Expr.yield] using List.mem_of_getElem? (getElem?_of_idxOf? hslot)⟩
  | .name _, _, _, _, .name _ => Affords.nil.name.mono (by simp)
  | .assign _ value, _, _, _, .assign _ hvalue => (value.affords hvalue).mark.name.mono (by grind)
  | .call _ args, _, _, _, .function _ hargs | .call _ args, _, _, _, .primitive _ _ _ hargs =>
      (args.affords hargs).1.mark.name.mono (by grind)
  | .paren e, _, _, _, .paren he => ((e.affords he).append Affords.nil.mark).mark.mono (by grind)
  | .neg e, _, _, _, .negInt he | .neg e, _, _, _, .negDouble he => (e.affords he).mark.mono (by grind)
  | .binary _ left right, _, _, _, .binary _ hleft hright hop =>
    ((left.affords hleft).append (right.affords hright).mark).mono (by grind [Operator.length_code_le hop])
  | .cast e _, _, _, _, .cast he hop => ((e.affords he).append Affords.nil.mark.mark).mono
      (by grind [Operator.length_code_le hop])

theorem Args.affords : ∀ (args : Args) {N params code}, args.Emits P N params code →
    Affords P code.length args.yield ∧ Affords P code.length args.more
  | .nil, _, _, _, .nil => ⟨Affords.nil.mark.mono (by simp), Affords.nil.mark.mono (by simp)⟩
  | .cons first rest, _, _, _, .cons hfirst hrest => by
    have hargs := (first.affords hfirst).append (rest.affords hrest).2
    exact ⟨hargs.mono (by grind), hargs.mark.mono (by grind)⟩

end

theorem Declaration.affords {d : Declaration} {N : Scope} {home : Home} {code : List Instruction} (h : d.Emits P N home code) :
    Affords P code.length d.yield := by
  have hvalue : Affords P (code.length - 3) (valueYield d.value?) := by
    cases h with
    | bare _ hvalue => exact hvalue ▸ Affords.nil.mono (by simp)
    | value _ hvalue he => exact hvalue ▸ (Expr.affords _ he).mark.mono (by grind)
  exact (hvalue.append Affords.nil.mark).mark.mark.name.mark.mono (by omega)

variable {returns : ValueType}

theorem length_plain_closedLoop_le (test : List Instruction) (items : List Item) (breaks : Bool) :
    (plain (closedLoop (loopItems (testCode test) items breaks))).length ≤ test.length + items.length + 3 := by
  cases breaks <;> simp [plain, closedLoop, loopItems, testCode] <;> omega

theorem length_armItems (test : List Instruction) (items others : List Item) :
    (armItems (testCode test) items others).length = test.length + items.length + others.length + 3 := by
  simp [armItems, armHead, testCode, plain]
  omega

mutual

theorem Stmt.affords : ∀ (s : Stmt) {inLoop N n items},
    s.Emits P returns inLoop N n items → Affords P items.length s.yield
  | .declare d, _, _, _, _, .declare hd => (Declaration.affords hd).mono (by grind [plain])
  | .branch branches, _, _, _, _, .branch hbranches => (branches.affords hbranches).mark.mono (by omega)
  | .loop condition body, _, _, _, _, .loop hcondition _ hbody =>
    ((condition.affords hcondition).append (body.affords hbody).mark).mark.mono (by grind [length_plain_closedLoop_le])
  | .break, _, _, _, _, .break | .continue, _, _, _, _, .continue => Affords.nil.mark.mark.mono (by simp)
  | .empty, _, _, _, _, .empty => Affords.nil.mark.mono (by simp)
  | .return none, _, _, _, _, .leave _ => Affords.nil.mark.mark.mono (by simp)
  | .return (some value), _, _, _, _, .return _ hvalue => 
    ((value.affords hvalue).append Affords.nil.mark).mark.mono (by simp [plain])
  | .block body, _, _, _, _, .block hbody => (body.affords hbody).mark.mono (by omega)
  | .effect e, _, _, _, _, .effect he => ((e.affords he).append Affords.nil.mark).mono (by grind [plain])

theorem Block.affords : ∀ (b : Block) {inLoop N n items},
    b.Emits P returns inLoop N n items → Affords P items.length b.yield
  | .nil, _, _, _, _, .nil => Affords.nil.mark.mono (by simp)
  | .cons first rest, _, _, _, _, .cons hfirst hrest => ((first.affords hfirst).append (rest.affords hrest)).mono (by grind)

theorem Branches.affords : ∀ (b : Branches) {inLoop N n items},
    b.Emits P returns inLoop N n items → Affords P items.length b.yield
  | .only condition body, _, _, _, _, .only hcondition _ hbody =>
    ((condition.affords hcondition).append (body.affords hbody).mark).mono (by grind [length_armItems])
  | .orElse condition body otherwise, _, _, _, _, .orElse hcondition _ hbody hotherwise =>
    ((condition.affords hcondition).append ((body.affords hbody).append (otherwise.affords hotherwise).mark.mark).mark).mono
      (by grind [length_armItems])
  | .orIf condition body rest, _, _, _, _, .orIf hcondition _ hbody hrest =>
    ((condition.affords hcondition).append ((body.affords hbody).append (rest.affords hrest).mark.mark).mark).mono
      (by grind [length_armItems])

end

end

/-! ## Locals -/

mutual

theorem Stmt.length_locals_le : ∀ s : Stmt, s.locals.length ≤ s.yield.length
  | .declare d => by simp [Stmt.locals, Stmt.yield, Declaration.yield]
  | .branch branches => by
    have := branches.length_locals_le
    simp only [Stmt.locals, Stmt.yield, List.length_cons]
    omega
  | .loop condition body => by
    have := body.length_locals_le
    simp only [Stmt.locals, Stmt.yield, List.length_append, List.length_cons]
    omega
  | .block body => by
    have := body.length_locals_le
    simp only [Stmt.locals, Stmt.yield, List.length_cons]
    omega
  | .break | .continue | .return _ | .empty | .effect _ => by simp [Stmt.locals]

theorem Block.length_locals_le : ∀ b : Block, b.locals.length ≤ b.yield.length
  | .nil => by simp [Block.locals]
  | .cons first rest => by
    have := first.length_locals_le
    have := rest.length_locals_le
    simp only [Block.locals, Block.yield, List.length_append]
    omega

theorem Branches.length_locals_le : ∀ b : Branches, b.locals.length ≤ b.yield.length
  | .only condition body => by
    have := body.length_locals_le
    simp only [Branches.locals, Branches.yield, List.length_append, List.length_cons]
    omega
  | .orElse condition body otherwise => by
    have := body.length_locals_le
    have := otherwise.length_locals_le
    simp only [Branches.locals, Branches.yield, List.length_append, List.length_cons]
    omega
  | .orIf condition body rest => by
    have := body.length_locals_le
    have := rest.length_locals_le
    simp only [Branches.locals, Branches.yield, List.length_append, List.length_cons]
    omega

end

/-! ## Definitions -/

theorem Param.length_le_more : ∀ ps : List Param, ps.length + 1 ≤ (Param.more ps).length
  | [] => Nat.le_refl 1
  | p :: ps => by
    have := length_le_more ps
    simp only [Param.more, List.length_append, List.length_cons]
    omega

theorem Param.length_le_length_yields (ps : List Param) : ps.length + 1 ≤ (Param.yields ps).length := by
  cases ps with
  | nil => exact Nat.le_refl 1
  | cons p ps =>
    have := Param.length_le_more ps
    simp only [Param.yields, Param.yield, List.length_append, List.length_cons]
    omega

theorem Definition.length_function_le (name : Bytes) (params : List Param) (returns : TypeName) (body : Block) :
    params.length + body.locals.length + 1 ≤ (Definition.function name params returns body).yield.length := by
  have := Param.length_le_length_yields params
  have := body.length_locals_le
  simp only [Definition.yield, List.length_append, List.length_cons]
  omega

/-- How many functions there are among definitions. -/
def Source.functions : Source → Nat
  | [] => 0
  | d :: ds => d.functions + Source.functions ds

theorem Source.functions_append (A B : Source) : Source.functions (A ++ B) = A.functions + B.functions := by
  induction A with
  | nil => simp [Source.functions]
  | cons d A ih => simp only [List.cons_append, Source.functions, ih, Nat.add_assoc]

/-- The number of the next function after one more definition. -/
theorem Source.next_snoc (A : Source) (d : Definition) : A.functions + 1 + d.functions = Source.functions (A ++ [d]) + 1 := by
  rw [Source.functions_append, Source.functions, Source.functions]
  omega

theorem Definition.functions_le (d : Definition) : d.functions ≤ d.yield.length := by
  cases d <;> simp [Definition.functions, Definition.yield]

@[simp] theorem Source.yield_append (A B : Source) : Source.yield (A ++ B) = A.yield ++ B.yield := List.flatMap_append ..

@[simp] theorem Source.yield_cons (d : Definition) (A : Source) :
    Source.yield (d :: A) = d.yield ++ A.yield := List.flatMap_cons ..

theorem Source.functions_le (A : Source) : A.functions ≤ A.yield.length := by
  induction A with
  | nil => exact Nat.le_refl 0
  | cons d A ih =>
    have := d.functions_le
    rw [Source.functions, Source.yield_cons, List.length_append]
    omega

section

variable {P : List PoolEntry}
variable {N N' : Scope} {number : Nat} {ds : Source} {outputs : List Output} {f : Function}

theorem Definition.Emits.size_code_le {d : Definition} {entry : Bytes × Binding} (h : d.Emits P N number (.function f) entry) :
    f.code.size ≤ 3 * d.yield.length := by
  cases h with
  | @function name params returns body slot items hslot hparams hbody hreturns =>
    have := (body.affords hbody).length_le
    have hcode : (bodyCode items body.flow).length ≤ items.length + 1 := by
      unfold bodyCode
      split <;> simp
    simp only [Definition.yield, List.size_toArray, List.length_append, List.length_cons]
    omega

theorem Source.Emits.length_entryOf_le (h : ds.Emits P N number outputs N') : (entryOf outputs).length ≤ 3 * ds.yield.length := by
  induction h with
  | nil => exact Nat.le_refl 0
  | @cons N N' number d ds output outputs entry hd hnew hds ih =>
    rw [Source.yield_cons, List.length_append]
    cases hd with
    | function =>
      change (entryOf outputs).length ≤ _
      omega
    | @«global» d slot code hslot hd =>
      have := (Declaration.affords hd).length_le
      change (code ++ entryOf outputs).length ≤ _
      rw [List.length_append, Definition.yield]
      omega

theorem Source.Emits.length_functionsOf (h : ds.Emits P N number outputs N') : (functionsOf outputs).length = ds.functions := by
  induction h with
  | nil => rfl
  | @cons N N' number d ds output outputs entry hd hnew hds ih =>
    cases hd with
    | function =>
      change (functionsOf outputs).length + 1 = 1 + Source.functions ds
      rw [ih, Nat.add_comm]
    | «global» =>
      change (functionsOf outputs).length = 0 + Source.functions ds
      rw [ih, Nat.zero_add]

/-- Each function among the outputs is that of a definition, with the names before it. -/
theorem Source.Emits.exists_definition (h : ds.Emits P N number outputs N') {j : Nat} (hf : (functionsOf outputs)[j]? = some f) :
    ∃ pre d post outputs1 N1 entry, ds = pre ++ d :: post ∧ Source.Emits P N number pre outputs1 N1 ∧ pre.functions = j ∧
      d.Emits P N1 (number + j) (.function f) entry ∧ N1.lookup entry.1 = none := by
  induction h generalizing j with
  | nil => cases hf
  | @cons N N' number d ds output outputs entry hd hnew hds ih =>
    cases houtput : output with
    | entry code =>
      subst houtput
      obtain ⟨pre, d', post, outputs1, N1, entry', rfl, hpre, hj, hd', hnew'⟩ := ih hf
      have hfunctions : d.functions = 0 := by cases hd; rfl
      rw [hfunctions] at hd'
      exact ⟨d :: pre, d', post, _, _, entry', rfl,
        .cons hd hnew hpre, by rw [Source.functions, hfunctions, hj, Nat.zero_add], hd', hnew'⟩
    | function g =>
      subst houtput
      have hfunctions : d.functions = 1 := by cases hd; rfl
      cases j with
      | zero =>
        cases hf
        exact ⟨[], d, ds, [], N, entry, rfl, .nil, rfl, hd, hnew⟩
      | succ j =>
        obtain ⟨pre, d', post, outputs1, N1, entry', rfl, hpre, hj, hd', hnew'⟩ := ih (j := j) hf
        rw [hfunctions, Nat.add_assoc, Nat.add_comm 1 j] at hd'
        exact ⟨d :: pre, d', post, _, _, entry', rfl,
          .cons hd hnew hpre, by rw [Source.functions, hfunctions, hj, Nat.add_comm], hd', hnew'⟩

variable {A : Source} {p : Program}

/-- The entry routine of a program has the code of all definitions, and calls the main function. -/
theorem Source.Makes.exists_entry (h : A.Makes P p) (hf : p.functions[0]? = some f) :
    ∃ outputs N returns number slot, A.Emits P [] 1 outputs N ∧
      N.lookup Analysis.mainName = some (.function [] returns number slot) ∧
      f = { header := {}, code := (entryOf outputs ++ mainCode returns number).toArray } := by
  obtain ⟨outputs, N, returns, number, slot, hA, hmain, hp⟩ := h.functions
  rw [hp] at hf
  exact ⟨outputs, N, returns, number, slot, hA, hmain, (Option.some.inj hf).symm⟩

/-- Each function of a program but the entry routine is that of a definition. -/
theorem Source.Makes.exists_definition (h : A.Makes P p) {k : Nat} {f : Function} (hf : p.functions[k + 1]? = some f) :
    ∃ pre d post outputs N entry, A = pre ++ d :: post ∧ Source.Emits P [] 1 pre outputs N ∧ Source.functions pre = k ∧
      d.Emits P N (k + 1) (.function f) entry ∧ N.lookup entry.1 = none := by
  obtain ⟨outputs, N, returns, number, slot, hA, -, hp⟩ := h.functions
  rw [hp, List.getElem?_toArray, Source.table, List.getElem?_cons_succ] at hf
  obtain ⟨pre, d, post, outputs1, N1, entry, rfl, hpre, hk, hd, hnew⟩ := hA.exists_definition hf
  rw [Nat.add_comm] at hd
  exact ⟨pre, d, post, outputs1, N1, entry, rfl, hpre, hk, hd, hnew⟩

theorem Source.Makes.size_code_le (h : A.Makes P p) {k : Nat} {f : Function} (hf : p.functions[k]? = some f) :
    f.code.size ≤ 3 * A.yield.length + 3 := by
  cases k with
  | zero =>
    obtain ⟨outputs, N, returns, number, slot, hA, -, rfl⟩ := h.exists_entry hf
    have := hA.length_entryOf_le
    have hmain : (mainCode returns number).length ≤ 3 := by
      unfold mainCode
      split <;> simp
    simp only [List.size_toArray, List.length_append]
    omega
  | succ k =>
    obtain ⟨pre, d, post, outputs, N, entry, rfl, -, -, hd, -⟩ := h.exists_definition hf
    have := hd.size_code_le
    simp only [Source.yield_append, Source.yield_cons, List.length_append]
    omega

theorem Source.Makes.size_functions (h : A.Makes P p) : p.functions.size = A.functions + 1 := by
  obtain ⟨outputs, N, returns, number, slot, hA, -, hp⟩ := h.functions
  rw [hp, List.size_toArray, Source.table, List.length_cons, hA.length_functionsOf]

theorem Source.Makes.length_pool_le (h : A.Makes P p) : P.length ≤ A.yield.length + 1 :=
  Nat.le_trans h.pool.length_le (Nat.succ_le_succ A.length_flatMap_entries_le)

end

end OnePass

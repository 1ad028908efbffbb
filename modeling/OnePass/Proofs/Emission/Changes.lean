import OnePass.Proofs.Emission.Rules
import OnePass.Proofs.Pool.Contents

/-!
# What a translation changes

Whenever a translation gives something, the context after it is known from the one before it and the tree: the names that the tree
declares are in scope, its locals are handed out, and the pool has what it needs (`Context.Changes`). That the pool grows and that
scopes are closed at their ends follows from this.
-/

namespace OnePass

/-- Between two points of a program these entries were needed, these names declared and these variables given locals. -/
structure Context.Changes (needs : List PoolEntry) (more : Scope) (ds : List Declaration) (c c' : Context) : Prop where
  scopes : c'.scopes.settled = c.scopes.settled.add more
  names : c'.names = more ++ c.names
  pool : c'.pool = needs.foldl PoolEntry.join c.pool
  locals : c'.locals = c.locals + ds.length
  functions : c'.functions = c.functions

namespace Context.Changes

variable {c c1 c' : Context} {needs needs' : List PoolEntry} {more more' : Scope} {ds ds' : List Declaration}

theorem refl (c : Context) : c.Changes [] [] [] c := ⟨by simp, rfl, rfl, rfl, rfl⟩

theorem trans (h : c.Changes needs more ds c1) (h' : c1.Changes needs' more' ds' c') :
    c.Changes (needs ++ needs') (more' ++ more) (ds ++ ds') c' where
  scopes := by rw [h'.scopes, h.scopes, Scopes.add_add]
  names := by rw [h'.names, h.names, List.append_assoc]
  pool := by rw [h'.pool, h.pool, List.foldl_append]
  locals := by rw [h'.locals, h.locals, List.length_append, Nat.add_assoc]
  functions := h'.functions.trans h.functions

theorem sight_eq (h : c.Changes needs more ds c') : c'.sight = more.sight ++ c.sight := by
  rw [Context.sight, h.names, Scope.sight_append]
  rfl

theorem pool_le (h : c.Changes needs more ds c') : c.pool <+: c'.pool := h.pool ▸ PoolEntry.prefix_foldl_join ..

theorem grows (h : c.Changes needs more ds c') : c.Grows c' :=
  ⟨⟨more, h.scopes⟩, h.pool_le, by rw [h.locals]; exact Nat.le_add_right .., h.functions⟩

theorem «extends» (h : c.Changes needs [] [] c') : c.Extends c' :=
  ⟨by simpa using h.scopes, h.pool_le, h.locals, h.functions⟩

end Context.Changes

namespace Translation

variable {α β : Type}

/-- From a point with these names in sight and this local next, the translation changes so much. -/
def Does (N : Sight) (n : Nat) (needs : List PoolEntry) (more : Scope) (ds : List Declaration) (m : Translation α) : Prop :=
  ∀ c a c', c.sight = N → c.locals = n → m.run c = some (a, c') → c.Changes needs more ds c'

namespace Does

variable {N : Sight} {n : Nat} {needs needs' : List PoolEntry} {more more' : Scope} {ds ds' : List Declaration}
variable {m : Translation α} {f : α → Translation β}

/-! ## Parts, one after another -/

theorem bind (hm : Does N n needs more ds m) (hf : ∀ a, Does (more.sight ++ N) (n + ds.length) needs' more' ds' (f a)) :
    Does N n (needs ++ needs') (more' ++ more) (ds ++ ds') (m >>= f) := by
  intro c b c' hN hn hr
  obtain ⟨a, c1, hrm, hrf⟩ := run_bind_some_iff.1 hr
  have hchanges := hm c a c1 hN hn hrm
  exact hchanges.trans (hf a c1 b c' (by rw [hchanges.sight_eq, hN]) (by rw [hchanges.locals, hn]) hrf)

/-- A part that declares nothing, and then another. -/
theorem and_then (hm : Does N n needs [] [] m) (hf : ∀ a, Does N n needs' more ds (f a)) :
    Does N n (needs ++ needs') more ds (m >>= f) := by
  simpa using hm.bind hf

/-- The end of a part, which changes nothing. -/
theorem last (hm : Does N n needs more ds m) (hf : ∀ a, Does (more.sight ++ N) (n + ds.length) [] [] [] (f a)) :
    Does N n needs more ds (m >>= f) := by
  simpa using hm.bind hf

theorem pure (a : α) : Does N n [] [] [] (pure a : Translation α) := by
  intro c b c' _ _ hr
  cases hr
  exact .refl c

theorem failure : Does N n needs more ds (failure : Translation α) := by
  intro c b c' _ _ hr
  cases hr

theorem require (p : Prop) [Decidable p] : Does N n [] [] [] (require p) := by
  unfold Translation.require
  split
  · exact pure ()
  · exact failure

theorem get : Does N n [] [] [] (get : Translation Context) := by
  intro c a c' _ _ hr
  cases hr
  exact .refl c

theorem find? (x : Bytes) : Does N n [] [] [] (find? x) := get.last fun _ => pure _

theorem operation (op : Operator) (left right : ValueType) : Does N n [] [] [] (operation op left right) := by
  unfold Translation.operation
  split
  · exact pure _
  · exact failure

theorem negation (τ : ValueType) : Does N n [] [] [] (negation τ) := by
  unfold Translation.negation
  split
  · exact pure _
  · exact pure _
  · exact failure

theorem assign (x : Bytes) : Does N n [] [] [] (assign x) := by
  intro c a c' _ _ hr
  cases hr
  have hscopes := Scopes.settled_assign x c.scopes
  exact ⟨by simpa using hscopes, congrArg List.flatten hscopes, rfl, rfl, rfl⟩

theorem slotOf {entry : PoolEntry} (h : entry.isShared = true) : Does N n [entry] [] [] (slotOf entry) := by
  intro c slot c' _ _ hr
  change Translation.slotOf entry c = _ at hr
  unfold Translation.slotOf at hr
  split at hr
  · rename_i hslot
    cases hr
    refine ⟨by simp, rfl, ?_, rfl, rfl⟩
    rw [List.foldl_cons, List.foldl_nil, PoolEntry.join, if_pos ⟨h, List.mem_of_getElem? (getElem?_of_idxOf? hslot)⟩]
  · rename_i hslot
    cases hr
    refine ⟨by simp, rfl, ?_, rfl, rfl⟩
    rw [List.foldl_cons, List.foldl_nil, PoolEntry.join, if_neg fun hmem => List.idxOf?_eq_none_iff.1 hslot hmem.2]

theorem addEntry {entry : PoolEntry} (h : entry.isShared = false) : Does N n [entry] [] [] (addEntry entry) := by
  intro c slot c' _ _ hr
  cases hr
  refine ⟨by simp, rfl, ?_, rfl, rfl⟩
  rw [List.foldl_cons, List.foldl_nil, PoolEntry.join, if_neg fun hmem => ?_]
  rw [h] at hmem
  cases hmem.1

theorem callee (f : Bytes) : Does N n (if (N.lookup f).isSome then [] else [.primitive f]) [] [] (callee f) := by
  intro c callee c' hN hn hr
  have hlookup := c.lookup_sight f
  rw [hN] at hlookup
  obtain ⟨binding, c1, hfind, hr⟩ := run_bind_some_iff.1 hr
  cases hfind
  split at hr
  · rename_i hf
    rw [hlookup, hf]
    cases hr
    exact .refl c
  · cases hr
  · rename_i hf
    rw [hlookup, hf]
    split at hr
    · exact (slotOf rfl).last (fun _ => pure _) c callee c' hN hn hr
    · cases hr

theorem declare (x : Bytes) (binding : Binding) : Does N n [] [(x, binding.assign)] [] (declare x binding) := by
  intro c a c' _ _ hr
  obtain ⟨scope, scopes, hscopes, -, rfl⟩ := run_declare hr
  refine ⟨?_, ?_, rfl, rfl, rfl⟩
  · rw [hscopes]
    rfl
  · rw [Context.names, Context.names, hscopes]
    rfl

/-- What is declared in a scope of its own is gone after it. -/
theorem inScope (hm : Does N n needs more ds m) : Does N n needs [] ds (inScope m) := by
  intro c a c' hN hn hr
  obtain ⟨c1, hrun, rfl⟩ := run_inScope hr
  have hchanges := hm { c with scopes := [] :: c.scopes } a c1 hN hn hrun
  have hscopes : Scopes.settled c1.scopes.tail = c.scopes.settled := by
    have htail := congrArg List.tail hchanges.scopes
    simpa [Scopes.settled] using htail
  exact ⟨by simpa using hscopes, congrArg List.flatten hscopes, hchanges.pool, hchanges.locals, hchanges.functions⟩

end Does

end Translation

open Translation

variable {N : Sight} {n : Nat}

/-! ## Expressions -/

mutual

theorem Expr.does_translate : ∀ e : Expr, Does N n (e.needs N) [] [] e.translate
  | .int _ | .double _ => by
    rw [Expr.translate]
    exact .pure _
  | .text _ content => by
    rw [Expr.translate]
    exact (Does.slotOf rfl).last fun _ => .pure _
  | .name x => by
    rw [Expr.translate]
    refine (Does.find? x).and_then fun binding => ?_
    split
    · exact .pure _
    · exact .failure
  | .assign x value => by
    rw [Expr.translate]
    refine (Does.find? x).and_then fun binding => ?_
    split
    · exact value.does_translate.last fun _ => (Does.require _).and_then fun _ => (Does.assign x).and_then fun _ => .pure _
    · exact .failure
  | .call f args => by
    rw [Expr.translate]
    exact (Does.callee f).and_then fun c => (args.does_translate _).last fun _ => (Does.require _).and_then fun _ => .pure _
  | .paren e => by
    rw [Expr.translate]
    exact e.does_translate
  | .neg e => by
    rw [Expr.translate]
    exact e.does_translate.last fun _ => (Does.negation _).and_then fun _ => .pure _
  | .binary op left right => by
    rw [Expr.translate]
    refine left.does_translate.and_then fun _ => right.does_translate.last fun _ => ?_
    exact (Does.operation op _ _).and_then fun _ => .pure _
  | .cast e target => by
    rw [Expr.translate]
    exact e.does_translate.last fun _ => (Does.operation .cast _ _).and_then fun _ => .pure _

theorem Args.does_translate : ∀ (args : Args) (params : List ValueType), Does N n (args.needs N) [] [] (args.translate params)
  | .nil, _ => by
    rw [Args.translate]
    exact .pure _
  | .cons first rest, params => by
    rw [Args.translate]
    refine first.does_translate.and_then fun _ => (Does.require _).and_then fun _ => ?_
    exact (rest.does_translate _).last fun _ => .pure _

end

/-- Translating an expression assigns variables and adds to the pool. -/
theorem Expr.extending_translate (e : Expr) : Extending e.translate := fun c _ _ h => (e.does_translate c _ _ rfl rfl h).extends

theorem Args.extending_translate (params : List ValueType) (args : Args) : Extending (args.translate params) :=
  fun c _ _ h => (args.does_translate params c _ _ rfl rfl h).extends

/-! ## Statements -/

theorem Declaration.does_translate (d : Declaration) (home : Home) :
    Does N n (d.needs N (d.entry home).2.kind) [d.entry home] [] (d.translate home) := by
  unfold Declaration.needs Declaration.translate
  refine (Does.require _).and_then fun _ => ?_
  cases d.value? with
  | none => exact (Does.declare d.name _).last fun _ => .pure _
  | some value =>
    change Does N n _ ([] ++ [d.entry home]) [] _
    refine (Does.declare d.name _).bind fun _ => value.does_translate.last fun _ => ?_
    exact (Does.require _).and_then fun _ => (Does.assign d.name).and_then fun _ => .pure _

theorem Declaration.does_translateLocal (d : Declaration) :
    Does N n (d.needs N .cell) [d.entry (.local n)] [d] d.translateLocal := by
  intro c code c' hN hn hr
  obtain ⟨slot, c1, hslot, hr⟩ := run_bind_some_iff.1 hr
  cases hslot
  subst hn
  have h := d.does_translate (.local c.locals) { c with locals := c.locals + 1 } code c' hN rfl hr
  exact ⟨h.scopes, h.names, h.pool, h.locals, h.functions⟩

theorem Translation.Does.test (e : Expr) : Does N n (e.needs N) [] [] (test e) :=
  e.does_translate.last fun _ => (Does.require _).and_then fun _ => .pure _

@[simp] theorem Stmt.sight_scope (s : Stmt) (n : Nat) : (s.scope n).sight = s.sight := by cases s <;> rfl

mutual

theorem Stmt.does_translate (returns : ValueType) : ∀ (s : Stmt) (inLoop : Bool) {N : Sight} {n : Nat},
    Does N n (s.needs N) (s.scope n) s.locals (s.translate returns inLoop)
  | .declare d, _, _, _ => by
    rw [Stmt.translate]
    exact d.does_translateLocal.last fun _ => .pure _
  | .branch branches, inLoop, _, _ => by
    rw [Stmt.translate]
    exact branches.does_translate returns inLoop
  | .loop condition body, _, _, _ => by
    obtain ⟨more, hbody⟩ := body.does_translate returns true
    rw [Stmt.translate]
    exact (Does.test condition).and_then fun _ => hbody.inScope.last fun _ => .pure _
  | .break, _, _, _ | .continue, _, _, _ | .return none, _, _, _ => by
    rw [Stmt.translate]
    exact (Does.require _).and_then fun _ => .pure _
  | .return (some value), _, _, _ => by
    rw [Stmt.translate]
    exact (Does.require _).and_then fun _ => value.does_translate.last fun _ => (Does.require _).and_then fun _ => .pure _
  | .block body, inLoop, _, _ => by
    obtain ⟨more, hbody⟩ := body.does_translate returns inLoop
    rw [Stmt.translate]
    exact hbody.inScope
  | .empty, _, _, _ => by
    rw [Stmt.translate]
    exact .pure _
  | .effect e, _, _, _ => by
    rw [Stmt.translate]
    exact e.does_translate.last fun _ => .pure _

theorem Block.does_translate (returns : ValueType) : ∀ (b : Block) (inLoop : Bool) {N : Sight} {n : Nat},
    ∃ more, Does N n (b.needs N) more b.locals (b.translate returns inLoop)
  | .nil, _, _, _ => by
    rw [Block.translate]
    exact ⟨[], .pure _⟩
  | .cons first rest, inLoop, N, n => by
    obtain ⟨more, hrest⟩ := rest.does_translate returns inLoop (N := first.sight ++ N) (n := n + first.locals.length)
    rw [← first.sight_scope n] at hrest
    rw [Block.translate, Block.needs, ← first.sight_scope n]
    exact ⟨_, (first.does_translate returns inLoop).bind fun _ => hrest.last fun _ => .pure _⟩

theorem Branches.does_translate (returns : ValueType) : ∀ (b : Branches) (inLoop : Bool) {N : Sight} {n : Nat},
    Does N n (b.needs N) [] b.locals (b.translate returns inLoop)
  | .only condition body, inLoop, _, _ => by
    obtain ⟨more, hbody⟩ := body.does_translate returns inLoop
    rw [Branches.translate]
    exact (Does.test condition).and_then fun _ => hbody.inScope.last fun _ => .pure _
  | .orElse condition body otherwise, inLoop, _, n => by
    obtain ⟨more, hbody⟩ := body.does_translate returns inLoop
    obtain ⟨more', hotherwise⟩ := otherwise.does_translate returns inLoop (n := n + body.locals.length)
    rw [Branches.translate]
    exact (Does.test condition).and_then fun _ => hbody.inScope.bind fun _ => hotherwise.inScope.last fun _ => .pure _
  | .orIf condition body rest, inLoop, _, _ => by
    obtain ⟨more, hbody⟩ := body.does_translate returns inLoop
    rw [Branches.translate]
    exact (Does.test condition).and_then fun _ => hbody.inScope.bind fun _ => (rest.does_translate returns inLoop).last
      fun _ => .pure _

end

theorem Block.does_inScope (returns : ValueType) (inLoop : Bool) (b : Block) :
    Does N n (b.needs N) [] b.locals (inScope (b.translate returns inLoop)) := by
  obtain ⟨more, hb⟩ := b.does_translate returns inLoop
  exact hb.inScope

theorem Translation.Growing.test (e : Expr) : Growing (Translation.test e) := fun c _ _ h => (Does.test e c _ _ rfl rfl h).grows

theorem Stmt.growing_translate (returns : ValueType) (inLoop : Bool) (s : Stmt) : Growing (s.translate returns inLoop) :=
  fun c _ _ h => (s.does_translate returns inLoop c _ _ rfl rfl h).grows

theorem Block.growing_translate (returns : ValueType) (inLoop : Bool) (b : Block) : Growing (b.translate returns inLoop) := by
  intro c items c' h
  obtain ⟨more, hb⟩ := b.does_translate returns inLoop
  exact (hb c items c' rfl rfl h).grows

/-! ## Definitions -/

theorem Param.sight_cons (p : Param) (ps : List Param) : Param.sight (p :: ps) = Param.sight ps ++ [(p.name, .cell)] := by
  simp [Param.sight]

theorem Param.sight_scope (params : List Param) (slot : Nat) : (Param.scope slot params).sight = Param.sight params := by
  induction params generalizing slot with
  | nil => rfl
  | cons p ps ih =>
    rw [Param.scope, Scope.sight_append, ih, Param.sight_cons]
    rfl

theorem Param.does_translate (ps : List Param) (slot : Nat) : Does N n [] (Param.scope slot ps) [] (Param.translate slot ps) := by
  induction ps generalizing slot N with
  | nil => exact .pure _
  | cons p ps ih => exact (Does.require _).and_then fun _ => (Does.declare p.name _).bind fun _ => ih _

/-- The body of a function, in the scope of its parameters. -/
theorem Block.does_with_params (body : Block) (returns : ValueType) (params : List Param) (slot : Nat) :
    Does N n (body.needs (Param.sight params ++ N)) [] body.locals (inScope do
      Param.translate slot params
      body.translate returns false) := by
  obtain ⟨more, hbody⟩ := body.does_translate returns false
  rw [← Param.sight_scope params slot]
  exact ((Param.does_translate params slot).bind fun _ => hbody).inScope

/-- A definition needs its own entry and those of its body or its value, and gives one name. -/
theorem Definition.changes_translate (d : Definition) {c c' : Context} {output : Output}
    (h : d.translate.run c = some (output, c')) :
    ∃ binding n ds, Binding.kind binding = d.sight.2 ∧
      Context.Changes (d.needs c.sight) [(d.sight.1, binding)] ds
        { c with locals := n, functions := c.functions + d.functions } c' := by
  cases d with
  | function name params returns body =>
    obtain ⟨number, c1, hnumber, h⟩ := run_bind_some_iff.1 h
    cases hnumber
    obtain ⟨slot, c2, hslot, h⟩ := run_bind_some_iff.1 h
    have hentry := Does.addEntry rfl _ _ _ rfl rfl hslot
    obtain ⟨⟨⟩, c3, hdeclare, h⟩ := run_bind_some_iff.1 h
    have hdeclared := hentry.trans (Does.declare name _ _ _ _ rfl rfl hdeclare)
    have hbody := Does.last (body.does_with_params returns.type params returns.type.slots) (fun _ => ?_) c3 _ _ hdeclared.sight_eq
      hdeclared.locals h
    · exact ⟨_, 0, body.locals, rfl, hdeclared.trans hbody⟩
    · exact (Does.require _).and_then fun _ => Does.get.and_then fun _ => .pure _
  | «global» d =>
    obtain ⟨slot, c1, hslot, h⟩ := run_bind_some_iff.1 h
    have hentry := Does.addEntry rfl _ _ _ rfl rfl hslot
    have hd := ((d.does_translate (.global slot)).last fun _ => .pure _) _ _ _ hentry.sight_eq hentry.locals h
    exact ⟨_, c.locals, [], rfl, hentry.trans hd⟩

/-- The scopes of a function are closed at its end. -/
theorem Definition.length_scopes_translate {d : Definition} {c c' : Context} {output : Output}
    (h : d.translate.run c = some (output, c')) :
    c'.scopes.length = c.scopes.length := by
  obtain ⟨binding, n, ds, -, hchanges⟩ := d.changes_translate h
  exact hchanges.grows.length_scopes

theorem Source.changes_outputs (A : Source) {c c' : Context} {outputs : List Output} (h : A.outputs.run c = some (outputs, c')) :
    c'.scopes.length = c.scopes.length ∧ c'.pool = (A.needs c.sight).foldl PoolEntry.join c.pool := by
  induction A generalizing c outputs with
  | nil =>
    cases h
    exact ⟨rfl, rfl⟩
  | cons d ds ih =>
    obtain ⟨output, c1, hd, h⟩ := run_bind_some_iff.1 h
    obtain ⟨rest, c2, hds, h⟩ := run_bind_some_iff.1 h
    cases h
    obtain ⟨binding, n, more, hkind, hchanges⟩ := d.changes_translate hd
    obtain ⟨hlength, hpool⟩ := ih hds
    have hsight : c1.sight = d.sight :: c.sight := hchanges.sight_eq.trans
      (congrArg (fun kind => (d.sight.1, kind) :: c.sight) hkind)
    refine ⟨hlength.trans hchanges.grows.length_scopes, ?_⟩
    rw [hpool, hsight, hchanges.pool, Source.needs, List.foldl_append]

/-- The pool of a translation is that of the tree. -/
theorem Source.pool_of_outputs {A : Source} {outputs : List Output} {c : Context} (h : A.outputs.run start = some (outputs, c)) :
    c.pool = A.pool := by
  rw [(A.changes_outputs h).2, A.pool_eq]
  rfl

end OnePass

import OnePass.Proofs.Emission.Changes

/-!
# Translations follow the rules

Whatever a translation gives is derived by the rules of emission: the code of an expression (`Expr.emits_translate`), the items of
a block (`Block.emits_translate`) and the program of a tree (`Source.exists_makes`).
-/

namespace OnePass

variable {c c' : Context} {entry : PoolEntry} {slot : Nat} {P Q : List PoolEntry} {A : Source} {p : Program}

/-- A place in the pool stays what it is when the pool grows. -/
theorem idxOf?_mono (hslot : P.idxOf? entry = some slot) (h : P <+: Q) : Q.idxOf? entry = some slot := by
  obtain ⟨more, rfl⟩ := h
  rw [List.idxOf?] at hslot ⊢
  rw [List.findIdx?_append, hslot]
  rfl

theorem getElem?_of_snoc (h : P ++ [entry] <+: Q) : Q[P.length]? = some entry := by
  obtain ⟨more, rfl⟩ := h
  simp

namespace Translation

theorem idxOf?_slotOf (h : (slotOf entry).run c = some (slot, c')) : c'.pool.idxOf? entry = some slot := by
  change slotOf entry c = _ at h
  unfold slotOf at h
  split at h
  · rename_i hslot
    cases h
    exact hslot
  · rename_i hslot
    cases h
    rw [List.idxOf?] at hslot ⊢
    rw [List.findIdx?_append, hslot]
    simp

end Translation

open Translation

section

variable {P : List PoolEntry}
variable {x : Bytes} {body : Block} {items : List Item}

mutual

theorem Expr.emits_translate : ∀ (e : Expr) {c c' τ code}, e.Grouped →
    e.translate.run c = some ((τ, code), c') → c'.pool <+: P → e.Emits P c.names τ code
  | .int value, _, _, _, _, _, h, _ => by
    rw [Expr.translate] at h
    cases h
    exact .int value
  | .double bits, _, _, _, _, _, h, _ => by
    rw [Expr.translate] at h
    cases h
    exact .double bits
  | .text quote content, _, _, _, _, _, h, hP => by
    rw [Expr.translate] at h
    obtain ⟨slot, c1, hslot, h⟩ := run_bind_some_iff.1 h
    cases h
    exact .text quote (idxOf?_mono (idxOf?_slotOf hslot) hP)
  | .name x, c, _, _, _, _, h, _ => by
    rw [Expr.translate] at h
    obtain ⟨binding, c1, hfind, h⟩ := run_bind_some_iff.1 h
    cases hfind
    split at h
    · rename_i hx
      cases h
      exact .name (by rw [c.lookup_names, hx]; rfl)
    · cases h
  | .assign x value, c, _, _, _, hg, h, hP => by
    rw [Expr.translate] at h
    obtain ⟨binding, c1, hfind, h⟩ := run_bind_some_iff.1 h
    cases hfind
    split at h
    · rename_i hx
      obtain ⟨⟨τ, code⟩, c1, hvalue, h⟩ := run_bind_some_iff.1 h
      simp only [run_require_bind] at h
      split at h
      · rename_i hτ
        cases h
        subst hτ
        exact .assign (by rw [c.lookup_names, hx]; rfl) (value.emits_translate hg hvalue hP)
      · cases h
    · cases h
  | .call f args, c, _, _, _, hg, h, hP => by
    rw [Expr.translate] at h
    obtain ⟨callee, c1, hcallee, h⟩ := run_bind_some_iff.1 h
    obtain ⟨⟨count, code⟩, c2, hargs, h⟩ := run_bind_some_iff.1 h
    simp only [run_require_bind] at h
    split at h
    · rename_i hcount
      cases h
      have hnames := (Does.callee f _ _ _ rfl rfl hcallee).names
      have hpool := (args.extending_translate _ _ _ _ hargs).pool.trans hP
      have hemits := args.emits_translate hg hargs hcount hP
      rw [hnames] at hemits
      obtain ⟨binding, c3, hfind, hcallee⟩ := run_bind_some_iff.1 hcallee
      cases hfind
      split at hcallee
      · rename_i hf
        cases hcallee
        exact .function (by rw [c.lookup_names, hf]; rfl) hemits
      · cases hcallee
      · rename_i hf
        split at hcallee
        · rename_i routine hroutine
          obtain ⟨slot, c4, hslot, hcallee⟩ := run_bind_some_iff.1 hcallee
          cases hcallee
          exact .primitive (by rw [c.lookup_names, hf]; rfl) hroutine (idxOf?_mono (idxOf?_slotOf hslot) hpool) hemits
        · cases hcallee
    · cases h
  | .paren e, _, _, _, _, hg, h, hP => by
    rw [Expr.translate] at h
    exact .paren (e.emits_translate hg h hP)
  | .neg e, _, _, _, _, hg, h, hP => by
    rw [Expr.translate] at h
    obtain ⟨⟨τ, code⟩, c1, he, h⟩ := run_bind_some_iff.1 h
    cases τ with
    | int =>
      cases h
      exact .negInt (e.emits_translate hg.2 he hP)
    | double =>
      cases h
      exact .negDouble (e.emits_translate hg.2 he hP)
    | _ => cases h
  | .binary op left right, _, _, _, _, hg, h, hP => by
    rw [Expr.translate] at h
    obtain ⟨⟨τ1, code1⟩, c1, hleft, h⟩ := run_bind_some_iff.1 h
    obtain ⟨⟨τ2, code2⟩, c2, hright, h⟩ := run_bind_some_iff.1 h
    obtain ⟨⟨more, type⟩, c3, hop, h⟩ := run_bind_some_iff.1 h
    cases h
    unfold operation at hop
    split at hop
    · rename_i hcode
      cases hop
      obtain ⟨hcast, -, -, -, hgl, hgr⟩ := hg
      have hright' := right.emits_translate hgr hright hP
      rw [(left.extending_translate _ _ _ hleft).names_eq] at hright'
      exact .binary hcast (left.emits_translate hgl hleft ((right.extending_translate _ _ _ hright).pool.trans hP)) hright' hcode
    · cases hop
  | .cast e target, _, _, _, _, hg, h, hP => by
    rw [Expr.translate] at h
    obtain ⟨⟨τ, code⟩, c1, he, h⟩ := run_bind_some_iff.1 h
    obtain ⟨⟨more, type⟩, c2, hop, h⟩ := run_bind_some_iff.1 h
    cases h
    unfold operation at hop
    split at hop
    · rename_i hcode
      cases hop
      exact .cast (e.emits_translate hg.2.2 he hP) hcode
    · cases hop

theorem Args.emits_translate : ∀ (args : Args) {params c c' count code},
    args.Grouped → (args.translate params).run c = some ((count, code), c') → count = params.length → c'.pool <+: P →
      args.Emits P c.names params code
  | .nil, params, _, _, _, _, _, h, hcount, _ => by
    rw [Args.translate] at h
    cases h
    obtain rfl := List.length_eq_zero_iff.1 hcount.symm
    exact .nil
  | .cons first rest, params, _, _, _, _, hg, h, hcount, hP => by
    rw [Args.translate] at h
    obtain ⟨⟨τ, code⟩, c1, hfirst, h⟩ := run_bind_some_iff.1 h
    simp only [run_require_bind] at h
    split at h
    · rename_i hτ
      obtain ⟨⟨count', more⟩, c2, hrest, h⟩ := run_bind_some_iff.1 h
      cases h
      obtain _ | ⟨wanted, params⟩ := params
      · cases hcount
      · obtain rfl : τ = wanted := hτ wanted rfl
        have hrest' := rest.emits_translate hg.2 hrest (Nat.succ.inj hcount) hP
        rw [(first.extending_translate _ _ _ hfirst).names_eq] at hrest'
        exact .cons (first.emits_translate hg.1 hfirst ((rest.extending_translate _ _ _ _ hrest).pool.trans hP)) hrest'
    · cases h

end

theorem Declaration.emits_translate {d : Declaration} {home : Home} {c c' : Context} {code : List Instruction}
    (hg : d.Grouped) (h : (d.translate home).run c = some (code, c')) (hP : c'.pool <+: P) : d.Emits P c.names home code := by
  unfold Declaration.translate at h
  rw [run_require_bind] at h
  split at h
  · rename_i htype
    obtain ⟨⟨⟩, c1, hdeclare, h⟩ := run_bind_some_iff.1 h
    have hnames : c1.names = d.entry home :: c.names := (Does.declare _ _ _ _ _ rfl rfl hdeclare).names
    split at h
    · rename_i hvalue
      cases h
      exact .bare htype hvalue
    · rename_i e hvalue
      obtain ⟨⟨τ, code⟩, c2, he, h⟩ := run_bind_some_iff.1 h
      simp only [run_require_bind] at h
      split at h
      · rename_i hτ
        cases h
        subst hτ
        exact .value htype hvalue (hnames ▸ e.emits_translate (hg e hvalue) he hP)
      · cases h
  · cases h

/-- The name of a declaration is new in its scope. -/
theorem Declaration.lookup_of_translate {d : Declaration} {home : Home} {code : List Instruction}
    (h : (d.translate home).run c = some (code, c')) : ∃ scope scopes, c.scopes = scope :: scopes ∧
      scope.lookup d.name = none := by
  unfold Declaration.translate at h
  rw [run_require_bind] at h
  split at h
  · obtain ⟨⟨⟩, c1, hdeclare, h⟩ := run_bind_some_iff.1 h
    obtain ⟨scope, scopes, hscopes, hx, -⟩ := run_declare hdeclare
    exact ⟨scope, scopes, hscopes, hx⟩
  · cases h

variable {returns : ValueType} {inLoop : Bool}

theorem Block.emits_inScope (hbody : ∀ {c c' items},
      (body.translate returns inLoop).run c = some (items, c') → c'.pool <+: P →
        body.Emits P returns inLoop c.names c.locals items)
    (h : (inScope (body.translate returns inLoop)).run c = some (items, c')) (hP : c'.pool <+: P) :
    body.Emits P returns inLoop c.names c.locals items := by
  obtain ⟨c1, hrun, rfl⟩ := run_inScope h
  have hemits := hbody hrun hP
  exact hemits

/-- A condition and the block behind it. -/
theorem Block.emits_arm {e : Expr} {test : List Instruction} {c c1 c' : Context} (hg : e.Grouped)
    (hbody : ∀ {c c' items},
      (body.translate returns inLoop).run c = some (items, c') → c'.pool <+: P →
        body.Emits P returns inLoop c.names c.locals items)
    (htest : (Translation.test e).run c = some (test, c1))
    (h : (inScope (body.translate returns inLoop)).run c1 = some (items, c')) (hP : c'.pool <+: P) :
    ∃ τ code, e.Emits P c.names τ code ∧ τ ≠ .void ∧ test = testCode code ∧ body.Emits P returns inLoop c.names c.locals items ∧
      c'.names = c.names ∧ c'.locals = c.locals + body.locals.length := by
  have htested := Does.test e _ _ _ rfl rfl htest
  have hscoped := body.does_inScope returns inLoop _ _ _ rfl rfl h
  have hemits := Block.emits_inScope hbody h hP
  have hnames := hscoped.names
  have hlocals := hscoped.locals
  rw [htested.names] at hemits hnames
  rw [htested.locals] at hemits hlocals
  unfold Translation.test at htest
  obtain ⟨⟨τ, code⟩, c2, he, htest⟩ := run_bind_some_iff.1 htest
  simp only [run_require_bind] at htest
  split at htest
  · rename_i hτ
    cases htest
    exact ⟨τ, code, e.emits_translate hg he (hscoped.pool_le.trans hP), hτ, rfl, hemits, hnames, hlocals⟩
  · cases htest

mutual

theorem Stmt.emits_translate : ∀ (s : Stmt) {inLoop c c' items}, s.Grouped →
    (s.translate returns inLoop).run c = some (items, c') → c'.pool <+: P → s.Emits P returns inLoop c.names c.locals items
  | .declare d, _, c, _, _, hg, h, hP => by
    rw [Stmt.translate] at h
    obtain ⟨code, c1, hd, h⟩ := run_bind_some_iff.1 h
    cases h
    unfold Declaration.translateLocal at hd
    obtain ⟨slot, c2, hslot, hd⟩ := run_bind_some_iff.1 hd
    cases hslot
    have hemits := Declaration.emits_translate hg hd hP
    exact .declare hemits
  | .branch branches, _, _, _, _, hg, h, hP => by
    rw [Stmt.translate] at h
    exact .branch (branches.emits_translate hg h hP)
  | .loop condition body, _, c, _, _, hg, h, hP => by
    rw [Stmt.translate] at h
    obtain ⟨test, c1, htest, h⟩ := run_bind_some_iff.1 h
    obtain ⟨items, c2, hbody, h⟩ := run_bind_some_iff.1 h
    cases h
    obtain ⟨τ, code, hcondition, htype, rfl, hemits, -⟩ :=
      Block.emits_arm hg.1 (fun h hP => body.emits_translate hg.2 h hP) htest hbody hP
    exact .loop hcondition htype hemits
  | .break, _, _, _, _, _, h, _ => by
    rw [Stmt.translate, run_require_bind] at h
    split at h
    · rename_i hloop
      cases h
      subst hloop
      exact .break
    · cases h
  | .continue, _, _, _, _, _, h, _ => by
    rw [Stmt.translate, run_require_bind] at h
    split at h
    · rename_i hloop
      cases h
      subst hloop
      exact .continue
    · cases h
  | .return none, _, _, _, _, _, h, _ => by
    rw [Stmt.translate, run_require_bind] at h
    split at h
    · rename_i hreturns
      cases h
      exact .leave hreturns
    · cases h
  | .return (some value), _, _, _, _, hg, h, hP => by
    rw [Stmt.translate, run_require_bind] at h
    split at h
    · rename_i hreturns
      obtain ⟨⟨τ, code⟩, c1, hvalue, h⟩ := run_bind_some_iff.1 h
      simp only [run_require_bind] at h
      split at h
      · rename_i hτ
        cases h
        subst hτ
        exact .return hreturns (value.emits_translate hg hvalue hP)
      · cases h
    · cases h
  | .block body, _, _, _, _, hg, h, hP => by
    rw [Stmt.translate] at h
    exact .block (Block.emits_inScope (fun h hP => body.emits_translate hg h hP) h hP)
  | .empty, _, _, _, _, _, h, _ => by
    rw [Stmt.translate] at h
    cases h
    exact .empty
  | .effect e, _, _, _, _, hg, h, hP => by
    rw [Stmt.translate] at h
    obtain ⟨⟨τ, code⟩, c1, he, h⟩ := run_bind_some_iff.1 h
    cases h
    exact .effect (e.emits_translate hg he hP)

theorem Block.emits_translate : ∀ (b : Block) {inLoop c c' items}, b.Grouped →
    (b.translate returns inLoop).run c = some (items, c') → c'.pool <+: P → b.Emits P returns inLoop c.names c.locals items
  | .nil, _, _, _, _, _, h, _ => by
    rw [Block.translate] at h
    cases h
    exact .nil
  | .cons first rest, _, c, _, _, hg, h, hP => by
    rw [Block.translate] at h
    obtain ⟨items, c1, hfirst, h⟩ := run_bind_some_iff.1 h
    obtain ⟨more, c2, hrest, h⟩ := run_bind_some_iff.1 h
    cases h
    have hpool := (rest.growing_translate _ _ _ _ _ hrest).pool
    have hchanges := first.does_translate _ _ _ _ _ rfl rfl hfirst
    have hmore := rest.emits_translate hg.2 hrest hP
    rw [hchanges.names, hchanges.locals] at hmore
    exact .cons (first.emits_translate hg.1 hfirst (hpool.trans hP)) hmore

theorem Branches.emits_translate : ∀ (b : Branches) {inLoop c c' items}, b.Grouped →
    (b.translate returns inLoop).run c = some (items, c') → c'.pool <+: P → b.Emits P returns inLoop c.names c.locals items
  | .only condition body, _, c, _, _, hg, h, hP => by
    rw [Branches.translate] at h
    obtain ⟨test, c1, htest, h⟩ := run_bind_some_iff.1 h
    obtain ⟨items, c2, hbody, h⟩ := run_bind_some_iff.1 h
    cases h
    obtain ⟨τ, code, hcondition, htype, rfl, hemits, -⟩ :=
      Block.emits_arm hg.1 (fun h hP => body.emits_translate hg.2 h hP) htest hbody hP
    exact .only hcondition htype hemits
  | .orElse condition body otherwise, _, c, _, _, hg, h, hP => by
    rw [Branches.translate] at h
    obtain ⟨test, c1, htest, h⟩ := run_bind_some_iff.1 h
    obtain ⟨items, c2, hbody, h⟩ := run_bind_some_iff.1 h
    obtain ⟨others, c3, hotherwise, h⟩ := run_bind_some_iff.1 h
    cases h
    have hpool := (otherwise.does_inScope _ _ _ _ _ rfl rfl hotherwise).pool_le
    obtain ⟨τ, code, hcondition, htype, rfl, hemits, hnames, hlocals⟩ :=
      Block.emits_arm hg.1 (fun h hP => body.emits_translate hg.2.1 h hP) htest hbody (hpool.trans hP)
    have hothers := Block.emits_inScope (fun h hP => otherwise.emits_translate hg.2.2 h hP) hotherwise hP
    rw [hnames, hlocals] at hothers
    exact .orElse hcondition htype hemits hothers
  | .orIf condition body rest, _, c, _, _, hg, h, hP => by
    rw [Branches.translate] at h
    obtain ⟨test, c1, htest, h⟩ := run_bind_some_iff.1 h
    obtain ⟨items, c2, hbody, h⟩ := run_bind_some_iff.1 h
    obtain ⟨others, c3, hrest, h⟩ := run_bind_some_iff.1 h
    cases h
    have hpool := (rest.does_translate _ _ _ _ _ rfl rfl hrest).pool_le
    obtain ⟨τ, code, hcondition, htype, rfl, hemits, hnames, hlocals⟩ :=
      Block.emits_arm hg.1 (fun h hP => body.emits_translate hg.2.1 h hP) htest hbody (hpool.trans hP)
    have hothers := rest.emits_translate hg.2.2 hrest hP
    rw [hnames, hlocals] at hothers
    exact .orIf hcondition htype hemits hothers

end

theorem Param.types_of_translate : ∀ (ps : List Param) {slot c c'}, (Param.translate slot ps).run c = some ((), c') →
    ∀ p ∈ ps, p.type.type ≠ .void
  | [], _, _, _, _ => nofun
  | p :: ps, slot, c, c', h => by
    rw [Param.translate, run_require_bind] at h
    split at h
    · rename_i htype
      obtain ⟨⟨⟩, c1, -, h⟩ := run_bind_some_iff.1 h
      exact List.forall_mem_cons.2 ⟨htype, types_of_translate ps h⟩
    · cases h

/-- The body of a function in the scope of its parameters. -/
theorem Block.emits_with_params {params : List Param} (hg : body.Grouped) (h : (inScope do
      Param.translate slot params
      body.translate returns false).run c = some (items, c')) (hP : c'.pool <+: P) :
    (∀ p ∈ params, p.type.type ≠ .void) ∧ body.Emits P returns false (Param.scope slot params ++ c.names) c.locals items := by
  obtain ⟨c1, hrun, rfl⟩ := run_inScope h
  obtain ⟨⟨⟩, c2, hparams, hbody⟩ := run_bind_some_iff.1 hrun
  have hchanges := Param.does_translate params slot _ _ _ rfl rfl hparams
  have hemits := body.emits_translate hg hbody hP
  rw [hchanges.names, hchanges.locals] at hemits
  exact ⟨Param.types_of_translate params hparams, hemits⟩

/-- A name that the only scope does not have is no name. -/
theorem Context.lookup_names_of_level {scope : Scope} {scopes : Scopes} (hlevel : c.scopes.length = 1)
    (hscopes : c.scopes = scope :: scopes) (hx : scope.lookup x = none) : c.names.lookup x = none := by
  obtain rfl : scopes = [] := by simpa [hscopes] using hlevel
  rw [c.lookup_names, Scopes.find?, hscopes]
  simp only [List.flatten_cons, List.flatten_nil, List.append_nil, hx]
  rfl

theorem Definition.emits_translate : ∀ (d : Definition) {c c' output}, d.Grouped → d.translate.run c = some (output, c') →
    c'.pool <+: P → c.scopes.length = 1 →
      ∃ entry, d.Emits P c.names c.functions output entry ∧ c.names.lookup entry.1 = none ∧ c'.names = entry :: c.names ∧
        c'.functions = c.functions + d.functions
  | .function name params returns body, c, c', output, hg, h, hP, hlevel => by
    unfold Definition.translate at h
    obtain ⟨number, c1, hnumber, h⟩ := run_bind_some_iff.1 h
    cases hnumber
    obtain ⟨slot, c2, hslot, h⟩ := run_bind_some_iff.1 h
    cases hslot
    obtain ⟨⟨⟩, c3, hdeclare, h⟩ := run_bind_some_iff.1 h
    obtain ⟨scope, scopes, hscopes, hx, rfl⟩ := run_declare hdeclare
    obtain ⟨items, c4, hbody, h⟩ := run_bind_some_iff.1 h
    rw [run_require_bind] at h
    split at h
    · rename_i hreturns
      cases h
      obtain ⟨hparams, hemits⟩ := Block.emits_with_params hg hbody hP
      have hchanges := body.does_with_params _ _ _ _ _ _ rfl rfl hbody
      have hnames := (Does.declare name _ _ _ _ rfl rfl hdeclare).names
      rw [hnames] at hemits
      refine ⟨_, ?_, Context.lookup_names_of_level hlevel hscopes hx, hchanges.names.trans hnames, hchanges.functions⟩
      rw [hchanges.locals, Nat.zero_add]
      exact .function (getElem?_of_snoc (hchanges.pool_le.trans hP)) hparams hemits hreturns
    · cases h
  | .global d, c, c', output, hg, h, hP, hlevel => by
    unfold Definition.translate at h
    obtain ⟨slot, c1, hslot, h⟩ := run_bind_some_iff.1 h
    cases hslot
    obtain ⟨code, c2, hd, h⟩ := run_bind_some_iff.1 h
    cases h
    have hemits := Declaration.emits_translate hg hd hP
    obtain ⟨scope, scopes, hscopes, hx⟩ := Declaration.lookup_of_translate hd
    have hchanges := d.does_translate _ _ _ _ rfl rfl hd
    exact ⟨_, .global (getElem?_of_snoc (hchanges.pool_le.trans hP)) hemits, Context.lookup_names_of_level hlevel hscopes hx,
      hchanges.names, hchanges.functions⟩

theorem Source.emits_outputs : ∀ (A : Source) {c c' outputs}, A.Grouped → A.outputs.run c = some (outputs, c') →
    c'.pool <+: P → c.scopes.length = 1 → A.Emits P c.names c.functions outputs c'.names
  | [], c, c', outputs, _, h, _, _ => by
    cases h
    exact .nil
  | d :: ds, c, c', outputs, hg, h, hP, hlevel => by
    obtain ⟨output, c1, hd, h⟩ := run_bind_some_iff.1 h
    obtain ⟨outputs, c2, hds, h⟩ := run_bind_some_iff.1 h
    cases h
    obtain ⟨hgd, hgds⟩ := List.forall_mem_cons.1 hg
    have hpool : c1.pool <+: c'.pool := (Source.changes_outputs ds hds).2 ▸ PoolEntry.prefix_foldl_join ..
    obtain ⟨entry, hemits, hnew, hnames, hfunctions⟩ := d.emits_translate hgd hd (hpool.trans hP) hlevel
    have hrest := emits_outputs ds hgds hds hP ((Definition.length_scopes_translate hd).trans hlevel)
    rw [hnames, hfunctions] at hrest
    exact .cons hemits hnew hrest

end

/-! ## Needs -/

/-- The entries are some of those that these terminals may need, in their order. -/
def Terminal.MayNeed (ts : List Terminal) (needs : List PoolEntry) : Prop := needs.Sublist (ts.filterMap entry?)

namespace Terminal.MayNeed

variable {ts ts' : List Terminal} {needs needs' : List PoolEntry}

theorem nil : MayNeed ts [] := List.nil_sublist _

theorem mono (h : MayNeed ts needs) (hts : ts.Sublist ts') : MayNeed ts' needs := List.Sublist.trans h (hts.filterMap _)

theorem append (h : MayNeed ts needs) (h' : MayNeed ts' needs') : MayNeed (ts ++ ts') (needs ++ needs') := by
  rw [MayNeed, List.filterMap_append]
  exact List.Sublist.append h h'

end Terminal.MayNeed

open Terminal

section

variable {P : List PoolEntry} {N : Scope} {τ : ValueType} {code : List Instruction}

mutual

theorem Expr.Emits.mayNeed : ∀ {e : Expr} {τ code}, e.Emits P N τ code → MayNeed e.yield (e.needs N.sight)
  | _, _, _, .int _ | _, _, _, .double _ | _, _, _, .name _ => .nil
  | _, _, _, .text .. => List.Sublist.refl _
  | _, _, _, .assign _ hvalue => hvalue.mayNeed.mono (.cons _ (.cons _ (.refl _)))
  | _, _, _, .function hf hargs => by
    rw [Expr.needs, Scope.lookup_sight, hf]
    exact hargs.mayNeed.1.mono (.cons _ (.cons _ (.refl _)))
  | _, _, _, .primitive (f := f) hf hroutine _ hargs => by
    have hname : MayNeed [.name f] [.primitive f] := by simp [MayNeed, Terminal.entry?, hroutine]
    rw [Expr.needs, Scope.lookup_sight, hf]
    exact hname.append (hargs.mayNeed.1.mono (.cons _ (.refl _)))
  | _, _, _, .paren he => he.mayNeed.mono (.cons _ (List.sublist_append_left ..))
  | _, _, _, .negInt he | _, _, _, .negDouble he => he.mayNeed.mono (.cons _ (.refl _))
  | _, _, _, .binary _ hleft hright _ => hleft.mayNeed.append (hright.mayNeed.mono (.cons _ (.refl _)))
  | _, _, _, .cast he _ => he.mayNeed.mono (List.sublist_append_left ..)

theorem Args.Emits.mayNeed : ∀ {args : Args} {params code}, args.Emits P N params code →
    MayNeed args.yield (args.needs N.sight) ∧ MayNeed args.more (args.needs N.sight)
  | _, _, _, .nil => ⟨.nil, .nil⟩
  | _, _, _, .cons hfirst hrest =>
    have hneeds := hfirst.mayNeed.append hrest.mayNeed.2
    ⟨hneeds, hneeds.mono (.cons _ (.refl _))⟩

end

theorem Declaration.Emits.mayNeed {d : Declaration} {home : Home} (h : d.Emits P N home code) :
    MayNeed d.yield (d.needs N.sight (d.entry home).2.kind) := by
  cases h with
  | bare _ hvalue =>
    rw [Declaration.needs, hvalue]
    exact .nil
  | value _ hvalue he =>
    rw [Declaration.needs, hvalue, Declaration.yield, hvalue, Declaration.valueYield]
    exact he.mayNeed.mono (.cons _ (.cons _ (.cons _ (.cons _ (.cons _ (List.sublist_append_left ..))))))

mutual

theorem Stmt.Emits.mayNeed {returns : ValueType} : ∀ {inLoop N n} {s : Stmt} {items},
    s.Emits P returns inLoop N n items → MayNeed s.yield (s.needs N.sight)
  | _, _, _, _, _, .declare hd => hd.mayNeed
  | _, _, _, _, _, .branch hbranches => hbranches.mayNeed.mono (.cons _ (.refl _))
  | _, _, _, _, _, .loop hcondition _ hbody =>
    (hcondition.mayNeed.append (hbody.mayNeed.mono (.cons _ (.refl _)))).mono (.cons _ (.refl _))
  | _, _, _, _, _, .break | _, _, _, _, _, .continue | _, _, _, _, _, .leave _ | _, _, _, _, _, .empty => .nil
  | _, _, _, _, _, .return _ hvalue => hvalue.mayNeed.mono (.cons _ (List.sublist_append_left ..))
  | _, _, _, _, _, .block hbody => hbody.mayNeed.mono (.cons _ (.refl _))
  | _, _, _, _, _, .effect he => he.mayNeed.mono (List.sublist_append_left ..)

theorem Block.Emits.mayNeed {returns : ValueType} : ∀ {inLoop N n} {b : Block} {items},
    b.Emits P returns inLoop N n items → MayNeed b.yield (b.needs N.sight)
  | _, _, _, _, _, .nil => .nil
  | _, _, _, _, _, .cons hfirst hrest => by
    have hneeds := hrest.mayNeed
    rw [Scope.sight_append, Stmt.sight_scope] at hneeds
    exact hfirst.mayNeed.append hneeds

theorem Branches.Emits.mayNeed {returns : ValueType} : ∀ {inLoop N n} {b : Branches} {items},
    b.Emits P returns inLoop N n items → MayNeed b.yield (b.needs N.sight)
  | _, _, _, _, _, .only hcondition _ hbody => hcondition.mayNeed.append (hbody.mayNeed.mono (.cons _ (.refl _)))
  | _, _, _, _, _, .orElse hcondition _ hbody hotherwise =>
    hcondition.mayNeed.append ((hbody.mayNeed.mono (.cons _ (.refl _))).append
      (hotherwise.mayNeed.mono (.cons _ (.cons _ (.refl _)))))
  | _, _, _, _, _, .orIf hcondition _ hbody hrest =>
    hcondition.mayNeed.append ((hbody.mayNeed.mono (.cons _ (.refl _))).append (hrest.mayNeed.mono (.cons _ (.cons _ (.refl _)))))

end

theorem Definition.Emits.needs_sublist {number : Nat} {d : Definition} {output : Output} {entry : Bytes × Binding}
    (h : d.Emits P N number output entry) : (d.needs N.sight).Sublist d.entries ∧ Scope.sight [entry] = [d.sight] := by
  cases h with
  | @function name params returns body _ _ _ _ hbody _ =>
    have hneeds := hbody.mayNeed
    rw [Scope.sight_append, Param.sight_scope] at hneeds
    have hyield : body.yield.Sublist (Definition.yield (.function name params returns body)) :=
      .cons _ (.cons _ (.cons _ (List.sublist_append_of_sublist_right (.cons _ (.cons _ (.cons _ (.refl _)))))))
    exact ⟨(hneeds.mono hyield).cons_cons _, rfl⟩
  | «global» _ hd => exact ⟨hd.mayNeed.cons_cons _, rfl⟩

theorem Source.Emits.needs_sublist {N N' : Scope} {number : Nat} {A : Source} {outputs : List Output}
    (h : A.Emits P N number outputs N') :
    (A.needs N.sight).Sublist (A.flatMap Definition.entries) := by
  induction h with
  | nil => exact .slnil
  | @cons N _ _ d ds _ _ entry hd _ _ ih =>
    obtain ⟨hneeds, hsight⟩ := hd.needs_sublist
    have hrest : Scope.sight (entry :: N) = d.sight :: N.sight := congrArg (· ++ N.sight) hsight
    rw [hrest] at ih
    exact hneeds.append ih

end

/-- The program of a tree is put together from the outputs of its definitions, which are made by the rules. -/
theorem Source.exists_outputs (hg : A.Grouped) (h : A.translate = some p) :
    ∃ outputs c returns number slot, A.outputs.run Source.start = some (outputs, c) ∧ A.Emits c.pool [] 1 outputs c.names ∧
      c.names.lookup Analysis.mainName = some (.function [] returns number slot) ∧ c.pool.Sublist A.entries ∧
      p = { globals := (c.pool.map PoolEntry.global).toArray, functions := (Source.table outputs
        (mainCode returns number)).toArray } := by
  obtain ⟨⟨⟨outputs, call⟩, c⟩, hrun, hp⟩ := Option.bind_eq_some_iff.1 h
  cases hp
  obtain ⟨outputs, c1, houtputs, hrun⟩ := run_bind_some_iff.1 hrun
  obtain ⟨call, c2, hcall, hrun⟩ := run_bind_some_iff.1 hrun
  cases hrun
  obtain ⟨binding, c3, hfind, hcall⟩ := run_bind_some_iff.1 hcall
  cases hfind
  split at hcall
  · rename_i returns number slot hmain
    cases hcall
    have hemits := A.emits_outputs hg houtputs (List.prefix_refl _) rfl
    obtain ⟨more, hpool, hmore⟩ := PoolEntry.exists_foldl_join (A.needs []) Source.start.pool
    have hentries : c.pool.Sublist A.entries := by
      rw [(A.changes_outputs houtputs).2]
      exact hpool ▸ (hmore.trans hemits.needs_sublist).cons_cons _
    refine ⟨outputs, c, returns, number, slot, houtputs, hemits, ?_, hentries, rfl⟩
    rw [c.lookup_names, hmain]
    rfl
  · cases hcall

/-- The program of a tree is made by the rules. -/
theorem Source.exists_makes (hg : A.Grouped) (h : A.translate = some p) : ∃ P, A.Makes P p := by
  obtain ⟨outputs, c, returns, number, slot, -, hemits, hmain, hpool, rfl⟩ := Source.exists_outputs hg h
  exact ⟨c.pool, hpool, rfl, outputs, c.names, returns, number, slot, hemits, hmain, rfl⟩

end OnePass

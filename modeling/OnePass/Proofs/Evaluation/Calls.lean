import OnePass.Proofs.Evaluation.Statements

/-!
# Calls

The code of a function does what calling it does. By induction on the fuel, which bounds how deep calls are nested, a machine on
the program of a tree fits the world in which the tree is evaluated (`Source.Sized.fits`).
-/

namespace OnePass

variable {d : Definition} {number : Nat} {types : List ValueType}

/-! ## Cells -/

section

variable {P : List PoolEntry} {returns : ValueType}

/-- What is declared in a statement can be stored. -/
theorem ItemLaw.isStored : ItemLaw P returns fun _ _ _ ds _ _ => ∀ d ∈ ds, d.type.type.IsStored where
  nil := by simp
  cons _ hfirst hrest := List.forall_mem_append.2 ⟨hfirst, hrest⟩
  declare hd := List.forall_mem_singleton.2 (TypeName.isStored_type hd.type_ne)
  effect _ := by simp
  exit := by simp
  again := by simp
  leave _ := by simp
  result _ _ := by simp
  loop _ _ hbody := hbody
  arm _ _ hbody hothers := List.forall_mem_append.2 ⟨hbody, hothers⟩

end

theorem map_slot_zeros (h : ∀ τ ∈ types, τ.IsStored) :
    (types.map ValueType.zero).map Datum.slot = List.replicate types.length 0 := by
  induction types with
  | nil => rfl
  | cons τ types ih =>
    obtain ⟨hτ, htypes⟩ := List.forall_mem_cons.1 h
    rw [List.map_cons, List.map_cons, hτ.hasType_zero.2, ih htypes]
    rfl

/-! ## Names -/

section

variable {A : Source} {P : List PoolEntry} {p : Program} {s : Setting}
variable {done post : Source} {N : Scope} {params : List Param}

/-- The parameters of a function are its arguments. -/
theorem Param.means_scope {i : Nat} (hparams : ∀ param ∈ params, param.type.type ≠ .void)
    (hs : s.params.drop i = params.map (·.type.type)) :
    Scope.Means A P s (Param.scope (s.returns.slots + i) params) (Param.environment i params) := by
  induction params generalizing i with
  | nil => trivial
  | cons param params ih =>
    obtain ⟨hparam, hparams⟩ := List.forall_mem_cons.1 hparams
    have hdrop : s.params.drop (i + 1) = params.map (·.type.type) := by
      rw [← List.drop_drop, hs]
      rfl
    have hget : s.params[i]? = some param.type.type := by
      rw [← Nat.add_zero i, ← List.getElem?_drop, hs]
      rfl
    exact (ih hparams hdrop).append ⟨rfl, ⟨TypeName.isStored_type hparam, rfl, hget⟩, trivial⟩

theorem Source.environment_append (k : Nat) (ds : Source) (d : Definition) :
    Source.environment k (ds ++ [d]) = (d.name, d.referent (k + ds.length)) :: Source.environment k ds := by
  induction ds generalizing k with
  | nil => rfl
  | cons first ds ih =>
    rw [List.cons_append, Source.environment, ih, List.length_cons, Source.environment, Nat.add_assoc, Nat.add_comm 1]
    rfl

/-- The names of the definitions so far stand for the same in the code and in the evaluation. -/
structure Source.Meant (A : Source) (P : List PoolEntry) (p : Program) (done : Source) (N : Scope) : Prop where
  names : A.Declares p done N
  means (s : Setting) : N.Means A P s (Source.environment 0 done)

theorem Source.Meant.nil : A.Meant P p [] [] := ⟨.nil, fun _ => trivial⟩

/-- What a definition is called stands for it. -/
theorem Definition.Emits.means {output : Output} {entry : Bytes × Binding} (hd : d.Emits P N (done.functions + 1) output entry)
    (hA : A = done ++ d :: post) (hp : p.globals = (P.map PoolEntry.global).toArray) (hfits : entry.2.Fits (A.declared p 0)) :
    entry.2.Means A P s (d.referent done.length) := by
  cases hd with
  | @function name params returns body slot items hslot hparams hbody hreturns =>
    refine ⟨hfits.2.2, ?_, name, params, returns, body, ?_, rfl, rfl⟩
    · rw [hA, List.take_left]
    · rw [hA, List.getElem?_append_right (Nat.le_refl _), Nat.sub_self]
      rfl
  | @«global» d slot code hslot hd =>
    refine ⟨hfits.1, ?_, d.isConst, hslot⟩
    have htype : (p.globals[slot]?.bind fun g => if g.value.isSome then none else A.typeOf? g.name) =
      some d.type.type := hfits.2.2
    rwa [hp, List.getElem?_toArray, List.getElem?_map, hslot] at htype

theorem Source.Meant.cons {done post : Source} {N : Scope} {d : Definition} {output : Output} {entry : Bytes × Binding}
    (h : A.Meant P p done N) (hA : A = done ++ d :: post) (hsmall : A.Small P p)
    (hd : d.Emits P N (done.functions + 1) output entry)
    (hnew : N.lookup entry.1 = none) : A.Meant P p (done ++ [d]) (entry :: N) := by
  have hyield : A.yield.length < placeLimit := Nat.lt_trans hsmall.yield (by decide)
  have hfits := h.names.fits_entry hA hyield hsmall.globals hsmall.pool rfl hd hnew
  refine ⟨h.names.cons hfits hd.fst_entry, fun s => ?_⟩
  rw [Source.environment_append, Nat.zero_add]
  exact ⟨hd.fst_entry, hd.means hA hsmall.globals (hfits 0), h.means s⟩

theorem Source.Meant.of_emits {ds : Source} {N' : Scope} {outputs : List Output} (hds : ds.Emits P N number outputs N')
    (h : A.Meant P p done N) (hA : A = done ++ (ds ++ post)) (hsmall : A.Small P p) (hnumber : number = done.functions + 1) :
    A.Meant P p (done ++ ds) N' := by
  induction hds generalizing done with
  | nil => exact (List.append_nil done).symm ▸ h
  | @cons N N' number d ds output outputs entry hd hnew hds ih =>
    subst hnumber
    have hmeant := ih (h.cons hA hsmall hd hnew) (by simp [hA]) (Source.next_snoc done d)
    simpa using hmeant

/-- In the body of a function, parameters hide the names of definitions. -/
theorem Source.Meant.means_body {returns : TypeName} (h : A.Meant P p done N)
    (hparams : ∀ param ∈ params, param.type.type ≠ .void)
    (hs : s.params = params.map (·.type.type)) (hreturns : s.returns = returns.type) :
    Scope.Means A P s (Param.scope returns.type.slots params ++ N) (Param.environment 0 params ++ Source.environment 0 done) := by
  have hscope := Param.means_scope (A := A) (P := P) (i := 0) hparams hs
  rw [hreturns] at hscope
  exact hscope.append (h.means s)

end

/-! ## Entering a function -/

/-- The call that an instruction at `pc` makes, with these operands beneath it. -/
def Setting.callee (s : Setting) (m : Memory) (ops : List UInt64) (pc number : Nat) (t : FrameType) : Setting where
  function := number
  lower := s.lower ++ s.cells m ++ ops
  callers := s.frame (pc + 1) :: s.callers
  returns := t.signature.returns
  params := t.signature.params
  locals := t.locals

section

variable {A : Source} {P : List PoolEntry} {p : Program} {s : Setting} {f g : Function} {pc number fuel : Nat} {m : Memory}
  {G : Array UInt64} {ops : List UInt64} {args : List Datum} {t : FrameType} {α : Type}
  {post : α → Memory → View → Prop} {r : Except Halt α × Memory}

/-- A call leads to the start of the function, if there is room for its cells. -/
theorem Setting.enter (hs : s.Of p f) (hi : f.code[pc]? = some (.withNat .call number)) (hnumber : number < placeLimit)
    (hg : (s.callee m ops pc number t).Of p g) (hparams : g.header.params.toNat = t.signature.params.length)
    (hargs : HaveTypes t.signature.params args) (hlocals : ∀ τ ∈ t.locals, τ.IsStored)
    (hv : ((s.callee m ops pc number t).view
      { m with arguments := args, locals := t.locals.map ValueType.zero } G [] 0).Evaluates A P p fuel post r) :
    (s.view m G (ops ++ List.replicate t.signature.returns.slots 0 ++ args.map Datum.slot) pc).Evaluates A P p
      (fuel + 1) post r := by
  generalize hS : s.lower ++ s.cells m ++ (ops ++ List.replicate t.signature.returns.slots 0 ++ args.map Datum.slot) = S
  have hlength : S.length = (s.lower ++ s.cells m ++ ops).length + (t.signature.params.length + t.signature.returns.slots) := by
    rw [← hS]
    simp only [List.length_append, List.length_replicate, List.length_map, hargs.length]
    omega
  have hsizes : g.header.params.toNat + g.header.returns.toNat = t.signature.params.length + t.signature.returns.slots := by
    rw [hparams, hg.returns]
    rfl
  have hview : (s.callee m ops pc number t).view { m with arguments := args, locals := t.locals.map ValueType.zero } G [] 0 =
      ⟨G, S ++ List.replicate g.header.locals.toNat 0,
        { function := number, argBase := S.length - (g.header.params.toNat + g.header.returns.toNat), localBase := S.length } ::
          s.frame (pc + 1) :: s.callers, m.console⟩ := by
    have hbase : S.length - (g.header.params.toNat + g.header.returns.toNat) = (s.lower ++ s.cells m ++ ops).length := by omega
    have hlocal : S.length = (s.lower ++ s.cells m ++ ops).length +
      (t.signature.returns.slots + t.signature.params.length) := by omega
    rw [hbase, hlocal, ← hS, hg.locals]
    simp [Setting.view, Setting.callee, Setting.cells, Setting.frame, map_slot_zeros hlocals]
  have hcall : (Instruction.withNat .call number).operand.toInt = number := toInt_withNat hnumber
  rw [Setting.view, hS]
  rw [hview] at hv
  rcases Nat.lt_or_ge stackSize S.length with hbeyond | hwithin
  · -- there is no machine with so many slots in use
    exact .inl fun m' hm' => absurd hm'.length_le (Nat.not_le.2 hbeyond)
  rcases Nat.lt_or_ge stackSize (S.length + g.header.locals.toNat) with hover | hroom
  · have hleads : Exec.Leads (Exec.execute (s.frame pc) f (pc + 1) (.withNat .call number)) p
        ⟨G, S, s.frame (pc + 1) :: s.callers, m.console⟩ (.error .stackOverflow)
        ⟨G, S ++ List.replicate (stackSize - S.length) 0, s.frame (pc + 1) :: s.callers, m.console⟩ :=
      .execute_call rfl hcall (.enter_error hg.function (by omega) hwithin hover)
    exact .inl (.step hs.function hi hleads (by simp) (List.cons_ne_nil _ _) trivial)
  · exact .step hs.function hi (.execute_call rfl hcall (.enter hg.function (by omega) hroom)) hv

/-- A function comes to its end, or returns before: then it is back in its caller, with the result on the stack. -/
theorem Setting.Ends.gives {W : World} {D : Declared} {flow : Flow} {c : Completion} {m' : Memory} {v : View} {stop : Nat}
    (h : (s.callee m ops pc number t).Ends A P false 0 0 flow stop c m' v)
    (hruns : (s.callee m ops pc number t).Runs A P p W g D)
    (hcode : flow.returns = false → g.code[stop]? = some { op := .ret })
    (hreturns : flow.returns = true ∨ t.signature.returns = .void) (hm : s.Fits A P m G) :
    v.Evaluates A P p fuel (s.Gives A P ops t.signature.returns (pc + 1))
      (c.result, { m' with arguments := m.arguments, locals := m.locals }) := by
  -- what the caller finds
  have hback {a : Datum} {v : View} (hv : (s.callee m ops pc number t).Ends A P false 0 0 flow stop (.return a) m' v) :
      s.Gives A P ops t.signature.returns (pc + 1) a { m' with arguments := m.arguments, locals := m.locals } v := by
    obtain ⟨G', slots, rfl, ha, hm'⟩ := hv
    refine ⟨G', slots, ?_, ha, hm.arguments, hm.locals, hm'.of_globals_eq rfl⟩
    simp only [Setting.view, Setting.callee, Setting.cells, List.append_assoc]
  cases c with
  | «return» a => exact .ok (hback h)
  | normal =>
    obtain ⟨hleaves, G', rfl, hm'⟩ := h
    have hend := (Bool.or_eq_false_iff.1 hleaves).1
    have hvoid : t.signature.returns = .void := hreturns.resolve_left (by rw [hend]; exact Bool.false_ne_true)
    have hshown : Datum.Shown (s.callee m ops pc number t).returns .void [] := by
      change Datum.Shown t.signature.returns .void []
      rw [hvoid]
      exact .void
    have hleave : ((s.callee m ops pc number t).view m' G' [] stop).Evaluates A P p fuel
        ((s.callee m ops pc number t).Ends A P false 0 0 flow stop) (.ok (.return .void), m') := by
      rw [Setting.view, List.append_assoc]
      change View.Simulates _ _ ⟨_, _ ++ ([] ++ ((s.callee m ops pc number t).cells m' ++ [])), _, _⟩ _ _ _
      exact Setting.leave hruns (hcode hend) hshown hm'.globals
    refine hleave.imp id ?_
    rintro ⟨n, v, hgoes, hv⟩
    exact ⟨n, v, hgoes, hback hv⟩
  | «break» | «continue» => exact absurd h.1 Bool.false_ne_true

end

/-! ## Functions of a program -/

/-- The text that is printed for a number. -/
def Program.text? (p : Program) (n : UInt64) : Option Bytes := p.globals[n.toNat]?.map Global.payload

/-- The number of a text in the pool. -/
def numberOf (P : List PoolEntry) (content : Bytes) : Int64 := (P.idxOf? (.literal content)).elim 0 Int64.ofNat

/-- The world in which a tree is evaluated with so much fuel, with the texts of its program. -/
def Source.world (A : Source) (P : List PoolEntry) (p : Program) (fuel : Nat) : World :=
  ⟨numberOf P, p.text?, A.call (numberOf P) p.text? fuel, fuel⟩

section

variable {A : Source} {P : List PoolEntry} {p : Program} {k : Nat} {name : Bytes} {params : List Param}
  {returns : TypeName} {body : Block}

theorem Source.take_succ_eq (hk : A[k]? = some d) : A.take (k + 1) = A.take k ++ [d] := by
  rw [List.take_add_one, hk]
  rfl

theorem Source.eq_take_append (hk : A[k]? = some d) : A = A.take k ++ d :: A.drop (k + 1) := by
  rw [List.append_cons, ← Source.take_succ_eq hk, List.take_append_drop]

/-- What a call evaluates, with cells of its own for the function. -/
theorem Source.run_call (hk : A[k]? = some (.function name params returns body)) (fuel : Nat) (args : List Datum) (m : Memory) :
    ((A.world P p (fuel + 1)).call k args).run m =
      (body.exec (A.world P p fuel) (Param.environment 0 params ++ Source.environment 0 (A.take (k + 1))) 0 >>= fun c => do
        modify fun m' : Memory => { m' with arguments := m.arguments, locals := m.locals }
        Evaluation.lift c.result).run { m with arguments := args, locals := body.locals.map fun d : Declaration =>
          d.type.type.zero } := by
  simp only [Source.world, Source.call, hk]
  rw [Evaluation.run_get_bind, Evaluation.run_bind]
  rfl

/-- The function of a definition is in the table, under its number. -/
theorem Source.Makes.exists_function (h : A.Makes P p) (hk : A[k]? = some (.function name params returns body)) :
    ∃ f N entry before, p.functions[Source.functions (A.take k) + 1]? = some f ∧ Source.Emits P [] 1 (A.take k) before N ∧
      Definition.Emits P N (Source.functions (A.take k) + 1) (.function name params returns body) (.function f) entry ∧
      N.lookup entry.1 = none := by
  obtain ⟨outputs, N, returns', number, slot, hA, -, hp⟩ := h.functions
  rw [Source.eq_take_append hk] at hA
  obtain ⟨before, output, after, N1, entry, rfl, hbefore, hd, hnew⟩ := hA.exists_output
  rw [Nat.add_comm] at hd
  cases hd with
  | @function _ _ _ _ slot items hslot hparams hbody hreturns =>
    refine ⟨_, N1, _, before, ?_, hbefore, .function hslot hparams hbody hreturns, hnew⟩
    rw [hp, List.getElem?_toArray, Source.table, List.getElem?_cons_succ, Source.functionsOf_append, ← hbefore.length_functionsOf,
      List.getElem?_append_right (Nat.le_refl _), Nat.sub_self]
    rfl

/-- The code of a function's body, and the return at its end if there is one. -/
theorem hasCode_bodyCode (header : Header) (items : List Item) (flow : Flow) :
    Function.HasCode ⟨header, (bodyCode items flow).toArray⟩ 0 (closedFrom 0 0 0 items) ∧
      (flow.returns = false → (bodyCode items flow).toArray[items.length]? = some { op := .ret }) := by
  have hclosed : items.mapIdx (Item.close 0 0) = closedFrom 0 0 0 items := List.mapIdx_eq_zipIdx_map
  have hlength : items.length = (closedFrom 0 0 0 items).length := (length_closedFrom ..).symm
  rw [bodyCode, hclosed]
  constructor
  · intro j i hi
    change (closedFrom 0 0 0 items ++ _).toArray[0 + j]? = _
    rw [Nat.zero_add, List.getElem?_toArray, List.getElem?_append_left (List.getElem?_eq_some_iff.1 hi).1, hi]
  · intro hreturns
    rw [hreturns, hlength, List.getElem?_toArray, List.getElem?_append_right (Nat.le_refl _), Nat.sub_self]
    rfl

/-- The sizes of a program whose tree has less than `2 ^ 28` terminals: all counts have room in a header. -/
structure Source.Sized (A : Source) (P : List PoolEntry) (p : Program) : Prop where
  makes : A.Makes P p
  yield : A.yield.length < 2 ^ 28

theorem Source.Sized.small (h : A.Sized P p) : A.Small P p := h.makes.small (Nat.lt_trans h.yield (by decide))

theorem Source.Sized.length_lt (h : A.Sized P p) (hk : A[k]? = some (.function name params returns body)) :
    params.length + body.locals.length + 1 < 2 ^ 28 := by
  obtain ⟨pre, post, rfl⟩ := List.append_of_mem (List.mem_of_getElem? hk)
  have hyield := h.yield
  have hlength := Definition.length_function_le name params returns body
  simp only [Source.yield_append, Source.yield_cons, List.length_append] at hyield
  omega

/-- The header of a function has the sizes of its call. -/
theorem Source.Sized.callee_of (h : A.Sized P p) (hk : A[k]? = some (.function name params returns body))
    {f : Function} {slot : Nat}
    (hf : p.functions[number]? = some f) (hheader : f.header = functionHeader slot params returns.type body) {t : FrameType}
    (ht : (Definition.function name params returns body).frameType? = some t) (s : Setting) (m : Memory)
    (ops : List UInt64) (pc : Nat) :
    (s.callee m ops pc number t).Of p f ∧ f.header.params.toNat = t.signature.params.length := by
  cases ht
  have hlength := h.length_lt hk
  have hslots : returns.type.slots ≤ 1 := by cases returns <;> decide
  have hreturns : (UInt32.ofNat returns.type.slots).toNat = returns.type.slots := UInt32.toNat_ofNat_of_lt'
    (by unfold UInt32.size; omega)
  have hparams : (UInt32.ofNat params.length).toNat = params.length := UInt32.toNat_ofNat_of_lt' (by unfold UInt32.size; omega)
  have hlocals : (UInt32.ofNat body.locals.length).toNat = body.locals.length := UInt32.toNat_ofNat_of_lt'
    (by unfold UInt32.size; omega)
  refine ⟨⟨hf, ?_, ?_, ?_⟩, ?_⟩
  · rw [hheader]
    change (UInt32.ofNat params.length + UInt32.ofNat returns.type.slots).toNat = returns.type.slots +
      (params.map (·.type.type)).length
    rw [UInt32.toNat_add, hparams, hreturns, List.length_map, Nat.mod_eq_of_lt (by omega), Nat.add_comm]
  · rw [hheader]
    exact hreturns
  · rw [hheader]
    exact hlocals.trans (List.length_map _).symm
  · rw [hheader]
    exact hparams.trans (List.length_map _).symm

/-- Calling a function, if calls with less fuel do what they should. -/
theorem Source.Sized.call (h : A.Sized P p) {fuel : Nat} {returns : ValueType} (hW : (A.world P p fuel).Fits A P p)
    (hfunction : A.HasFunction k number types returns) {s : Setting} {f : Function} {pc : Nat} {ops : List UInt64} {m : Memory}
    {G : Array UInt64} {args : List Datum} (hs : s.Of p f) (hi : f.code[pc]? = some (.withNat .call number))
    (hargs : HaveTypes types args) (hm : s.Fits A P m G) :
    (s.view m G (ops ++ List.replicate returns.slots 0 ++ args.map Datum.slot) pc).Evaluates A P p (fuel + 1)
      (s.Gives A P ops returns (pc + 1)) (((A.world P p (fuel + 1)).call k args).run m) := by
  obtain ⟨name, params, type, body, hk, rfl, rfl⟩ := hfunction.definition
  obtain rfl := hfunction.number
  obtain ⟨g, N, entry, before, hg, hbefore, hd, hnew⟩ := h.makes.exists_function hk
  have hsplit := Source.eq_take_append hk
  have hmeant : A.Meant P p (A.take k) N := Source.Meant.nil.of_emits hbefore hsplit h.small rfl
  have hinside := hmeant.names.body hsplit h.small hd hnew
  have hafter := hmeant.cons hsplit h.small hd hnew
  rw [← Source.take_succ_eq hk] at hafter
  obtain ⟨t, ht⟩ : ∃ t, (Definition.function name params type body).frameType? = some t := ⟨_, rfl⟩
  have hframe := Source.getElem?_frameTypes (A.take k) (.function name params type body) (A.drop (k + 1)) ht
  rw [← hsplit] at hframe
  have hlimit : g.code.size < placeLimit := by
    have := h.makes.size_code_le hg
    have := h.yield
    unfold placeLimit
    omega
  rw [Source.run_call hk]
  generalize hnumber : Source.functions (A.take k) + 1 = number at *
  cases hd with
  | @function _ _ _ _ slot items hslot hparams hbody hreturns =>
    obtain ⟨hof, hlength⟩ := h.callee_of hk hg rfl ht s m ops pc
    obtain ⟨hcode, hend⟩ := hasCode_bodyCode (functionHeader slot params type.type body) items body.flow
    have hruns : (s.callee m ops pc number t).Runs A P p (A.world P p fuel) _ (A.declared p number) :=
      ⟨hW, hof, hlimit, List.cons_ne_nil _ _, (Source.declared_of_frameType p hframe).2⟩
    cases ht
    have hstored : ∀ τ ∈ body.locals.map (·.type.type), τ.IsStored := by
      intro τ hτ
      obtain ⟨d, hd, rfl⟩ := List.mem_map.1 hτ
      exact ItemLaw.isStored.block body hbody d hd
    have hzeros := HaveTypes.zeros hstored
    refine Setting.enter hs hi (hafter.names.fits 0 _ List.mem_cons_self).1 hof hlength hargs hstored ?_
    rw [List.map_map] at hzeros ⊢
    refine (body.simulates hruns hbody hinside.locals (hafter.means_body hparams rfl rfl) hcode nofun ?_).bind fun c m' v hc => ?_
    · exact ⟨hargs, hzeros, hm.globals.of_globals_eq rfl⟩
    · rw [Nat.zero_add] at hc
      rw [Evaluation.run_bind]
      change View.Simulates _ _ _ _ _ ((Evaluation.lift c.result).run _)
      rw [Evaluation.run_lift]
      exact hc.gives hruns hend hreturns hm

/-- A machine on the program of a tree does with literals, texts and calls what the evaluation does. -/
theorem Source.Sized.fits (h : A.Sized P p) (fuel : Nat) : (A.world P p fuel).Fits A P p := by
  obtain ⟨outputs, N, returns, number, slot, hA, -, -⟩ := h.makes.functions
  have hliteral {content : Bytes} {slot : Nat} (hslot : P.idxOf? (.literal content) = some slot) :
    numberOf P content = Int64.ofNat slot := by
    rw [numberOf, hslot]
    rfl
  induction fuel with
  | zero =>
    refine ⟨h.makes.globals, h.small.pool, hA.distinctVariables h.makes.pool, hliteral, fun _ => rfl, ?_⟩
    intros
    exact .timeout rfl
  | succ fuel ih => exact ⟨h.makes.globals, h.small.pool, hA.distinctVariables h.makes.pool, hliteral, fun _ => rfl, h.call ih⟩

end

end OnePass

import OnePass.Proofs.Shapes.Code
import OnePass.Proofs.Shapes.Comparisons
import OnePass.Proofs.Trees

/-!
# Programs are typed

What the operands in a function's code stand for is read off the tree of the program (`Source.declared`). With that, every
function of the program of a tree has shapes for its places (`Source.Makes.exists_shaped`). So the operand stack of a compiled
program is typed on every path through it (`compile_types_operands`).
-/

namespace OnePass

variable {N : Scope} {number place : Nat} {done post : Source} {d : Definition} {entry : Bytes × Binding}
  {f : Function} {t : FrameType} {returns : ValueType}

/-! ## Declarations -/

/-- The types in a frame of a function: what it takes and returns, and its locals. -/
structure FrameType where
  signature : Signature
  locals : List ValueType

namespace Definition

/-- The name defined. -/
def name : Definition → Bytes
  | function name _ _ _ => name
  | global d => d.name

/-- The types in a frame, if the definition is that of a function. -/
def frameType? : Definition → Option FrameType
  | function _ params returns body => some ⟨⟨params.map (·.type.type), returns.type⟩, body.locals.map (·.type.type)⟩
  | global _ => none

/-- The type of a global variable of this name, if the definition declares it. -/
def typeOf? (x : Bytes) : Definition → Option ValueType
  | function .. => none
  | global d => if d.name = x then some d.type.type else none

end Definition

namespace Source

/-- The types in the frames of all functions, the entry routine first. -/
def frameTypes (A : Source) : List FrameType := ⟨⟨[], .void⟩, []⟩ :: A.filterMap Definition.frameType?

/-- The type of the global variable of a name. -/
def typeOf? (A : Source) (x : Bytes) : Option ValueType := A.findSome? (Definition.typeOf? x)

/-- What the operands in the code of function `k` stand for, in the program of a tree. -/
def declared (A : Source) (p : Program) (k : Nat) : Declared where
  global n := p.globals[n]?.bind fun g => if g.value.isSome then none else A.typeOf? g.name
  callee n := if n = 0 then none else A.frameTypes[n]?.map FrameType.signature
  routine n := p.globals[n]?.bind fun g => g.value.bind Primitive.ofName?
  arguments := (A.frameTypes[k]?.map (·.signature.arguments)).getD []
  locals := (A.frameTypes[k]?.map (·.locals)).getD []
  isEntry := k == 0

theorem length_filterMap_frameType? (A : Source) : (A.filterMap Definition.frameType?).length = A.functions := by
  induction A with
  | nil => rfl
  | cons d A ih =>
    rw [List.filterMap_cons, Source.functions, ← ih]
    cases d <;> simp [Definition.frameType?, Definition.functions, Nat.add_comm]

/-- The frame of a function has its number. -/
theorem getElem?_frameTypes (done : Source) (d : Definition) (rest : Source) (hd : d.frameType? = some t) :
    (Source.frameTypes (done ++ d :: rest))[done.functions + 1]? = some t := by
  rw [Source.frameTypes, List.getElem?_cons_succ, List.filterMap_append, ← length_filterMap_frameType? done,
    List.getElem?_append_right (Nat.le_refl _), Nat.sub_self, List.filterMap_cons, hd]
  rfl

end Source

theorem Source.declared_of_frameType {A : Source} (p : Program) {k : Nat} (h : A.frameTypes[k]? = some t) :
    (A.declared p k).arguments = t.signature.arguments ∧ (A.declared p k).locals = t.locals := by
  simp only [Source.declared, h]
  exact ⟨rfl, rfl⟩

theorem TypeName.isReturned_type (type : TypeName) : type.type.IsReturned := by
  cases type with
  | int => exact .inr (.inl rfl)
  | double => exact .inr (.inr rfl)
  | void => exact .inl rfl

/-! ## Names -/

section

variable {P : List PoolEntry} {A : Source} {p : Program}
variable {output : Output}

/-- The names defined so far stand for what is declared, whichever function is looked at, and no name is missing. -/
structure Source.Declares (A : Source) (p : Program) (done : Source) (N : Scope) : Prop where
  fits (k : Nat) : N.Fits (A.declared p k)
  complete {d : Definition} (hd : d ∈ done) : ∃ binding, (d.name, binding) ∈ N

theorem Source.Declares.nil : A.Declares p [] [] := ⟨fun _ => nofun, nofun⟩

theorem Source.Declares.typeOf?_eq_none {x : Bytes} (h : A.Declares p done N) (hx : N.lookup x = none) :
    done.typeOf? x = none := by
  rw [Source.typeOf?, List.findSome?_eq_none_iff]
  intro d hd
  cases d with
  | function => rfl
  | «global» d =>
    obtain ⟨binding, hbinding⟩ := h.complete hd
    rw [Definition.typeOf?, if_neg]
    rintro rfl
    exact absurd rfl (bne_iff_ne.1 (List.lookup_eq_none_iff.1 hx _ hbinding))

theorem Definition.Emits.fst_entry (h : d.Emits P N number output entry) : entry.1 = d.name := by
  cases h <;> rfl

/-- What a definition declares. -/
theorem Source.Declares.fits_entry (h : A.Declares p done N) (hA : A = done ++ d :: post) (hsize : A.yield.length < placeLimit)
    (hp : p.globals = (P.map PoolEntry.global).toArray) (hP : P.length < placeLimit) (hnumber : number = done.functions + 1)
    (hd : d.Emits P N number output entry) (hnew : N.lookup entry.1 = none) (k : Nat) : entry.2.Fits (A.declared p k) := by
  cases hd with
  | @function name params returns body slot items hslot hparams hbody hreturns =>
    refine ⟨?_, ?_, ?_, returns.isReturned_type⟩
    · have hle := Source.functions_le A
      rw [hA, Source.functions_append, Source.functions, Definition.functions, ← hA] at hle
      omega
    · have hframe := Source.getElem?_frameTypes done (.function name params returns body) post rfl
      rw [← hA] at hframe
      change (if number = 0 then none else A.frameTypes[number]?.map FrameType.signature) = _
      rw [if_neg (by omega), hnumber, hframe]
      rfl
    · intro τ hτ
      obtain ⟨param, hparam, rfl⟩ := List.mem_map.1 hτ
      exact TypeName.isStored_type (hparams param hparam)
  | @«global» d slot code hslot hd =>
    refine ⟨TypeName.isStored_type hd.type_ne, Nat.lt_trans (List.getElem?_eq_some_iff.1 hslot).1 hP, ?_⟩
    have hglobal : p.globals[slot]? = some (PoolEntry.variable d.isConst d.name).global := by
      rw [hp, List.getElem?_toArray, List.getElem?_map, hslot]
      rfl
    have htype : A.typeOf? d.name = some d.type.type := by
      have hdone := h.typeOf?_eq_none hnew
      change done.typeOf? d.name = none at hdone
      rw [Source.typeOf?] at hdone ⊢
      rw [hA, List.findSome?_append, hdone, List.findSome?_cons, Definition.typeOf?, if_pos rfl]
      rfl
    change (p.globals[slot]?.bind fun g => if g.value.isSome then none else A.typeOf? g.name) = _
    rw [hglobal]
    exact htype

theorem Source.Declares.cons {done : Source} {N : Scope} {d : Definition} {entry : Bytes × Binding} (h : A.Declares p done N)
    (hentry : ∀ k, entry.2.Fits (A.declared p k)) (hname : entry.1 = d.name) : A.Declares p (done ++ [d]) (entry :: N) := by
  refine ⟨fun k => (h.fits k).cons (hentry k), fun {d'} hd' => ?_⟩
  rcases List.mem_append.1 hd' with hd' | hd'
  · obtain ⟨binding, hbinding⟩ := h.complete hd'
    exact ⟨binding, List.mem_cons_of_mem _ hbinding⟩
  · obtain rfl := List.mem_singleton.1 hd'
    exact ⟨entry.2, hname ▸ List.mem_cons_self⟩

/-- The sizes of a program whose tree is not too long. -/
structure Source.Small (A : Source) (P : List PoolEntry) (p : Program) : Prop where
  globals : p.globals = (P.map PoolEntry.global).toArray
  yield : A.yield.length < 2 ^ 60
  pool : P.length < placeLimit

theorem Source.Makes.small (h : A.Makes P p) (hsize : A.yield.length < 2 ^ 60) : A.Small P p := by
  have := h.length_pool_le
  exact ⟨h.globals, hsize, by unfold placeLimit; omega⟩

theorem Source.Small.pooled (h : A.Small P p) (k : Nat) : (A.declared p k).Pooled P := by
  refine ⟨h.pool, fun {slot f primitive} hslot hf => ?_⟩
  change (p.globals[slot]?.bind fun g => g.value.bind Primitive.ofName?) = _
  rw [h.globals, List.getElem?_toArray, List.getElem?_map, hslot]
  exact hf

/-- Going through definitions, every name that they add stands for what is declared, and the code of the entry routine is typed. -/
theorem Source.Declares.of_emits {ds : Source} {N' : Scope} {outputs : List Output} (hds : ds.Emits P N number outputs N')
    (h : A.Declares p done N) (hA : A = done ++ (ds ++ post)) (hsmall : A.Small P p) (hnumber : number = done.functions + 1) :
    A.Declares p (done ++ ds) N' ∧ Typed (A.declared p 0) false (plain (entryOf outputs)) [] (some []) := by
  induction hds generalizing done with
  | nil => exact ⟨(List.append_nil done).symm ▸ h, .nil []⟩
  | @cons N N' number d ds output outputs entry hd hnew hds ih =>
    have hyield : A.yield.length < placeLimit := Nat.lt_trans hsmall.yield (by decide)
    have hentry := h.fits_entry hA hyield hsmall.globals hsmall.pool hnumber hd hnew
    obtain ⟨hnames, htyped⟩ := ih (h.cons hentry hd.fst_entry) (by simp [hA])
      (by rw [hnumber, Source.next_snoc])
    refine ⟨by simpa using hnames, ?_⟩
    cases hd with
    | function => exact htyped
    | @«global» d slot code hslot hd =>
      change Typed _ false (plain (code ++ entryOf outputs)) [] (some [])
      rw [plain_append]
      exact (Declaration.typed_of_emits (h.fits 0) (hsmall.pooled 0) (hentry 0).2 hd).append htyped

end

/-! ## Functions -/

/-- Shapes for the places of a function: the first has nothing on its stack, every instruction finds what it takes, and no way
leads out of the code but to the end of the entry routine, with nothing on the stack. -/
structure Function.Shaped (D : Declared) (f : Function) (shape : Nat → Option Shape) : Prop where
  start : shape 0 = some []
  suits {place : Nat} {i : Instruction} (hi : f.code[place]? = some i) : i.Suits D shape place
  inside {place : Nat} {σ : Shape} (h : shape place = some σ) :
    place < f.code.size ∨ D.isEntry = true ∧ place = f.code.size ∧ σ = []

section

variable {D : Declared}
variable {items : List Item} {shape : Nat → Option Shape}

theorem agrees_of_getElem? {shapes : List (Option Shape)} (h : ∀ j s, shapes[j]? = some s → shape (place + j) = s) :
    Agrees shape place shapes := by
  induction shapes generalizing place with
  | nil => trivial
  | cons s shapes ih =>
    refine ⟨h 0 s rfl, ih fun j s' hs' => ?_⟩
    rw [Nat.add_assoc, Nat.add_comm 1 j]
    exact h (j + 1) s' hs'

theorem Checks.suits {first stop : Nat} (h : Checks D shape first stop place items) {j : Nat} {item : Item}
    (hitem : items[j]? = some item) :
    (item.close first stop (place + j)).Suits D shape (place + j) := by
  induction items generalizing place j with
  | nil => cases hitem
  | cons item' items ih =>
    cases j with
    | zero =>
      cases hitem
      exact h.1
    | succ j =>
      rw [show place + (j + 1) = place + 1 + j by omega]
      exact ih h.2 hitem

/-- Code that is typed as a whole has shapes. -/
theorem Typed.exists_shape {e : Option Shape} (h : Typed D false items [] e) (hlimit : items.length < placeLimit) :
    ∃ shape : Nat → Option Shape, shape 0 = some [] ∧
      (∀ {place : Nat} {item : Item}, items[place]? = some item → (item.close 0 0 place).Suits D shape place) ∧
      ∀ {place : Nat} {σ : Shape}, shape place = some σ → place < items.length ∨ place = items.length ∧ e = some σ := by
  obtain ⟨shapes, hlength, htyped⟩ := h
  -- after the last place the shape is that at the end of the piece
  let shape (place : Nat) : Option Shape := (shapes ++ [e])[place]?.join
  have hagrees : Agrees shape 0 shapes := agrees_of_getElem? fun j s hs => by
    simp only [shape, Nat.zero_add]
    rw [List.getElem?_append_left (List.getElem?_eq_some_iff.1 hs).1, hs]
    rfl
  have haround : Around shape false 0 0 (0 + items.length) e := by
    refine ⟨by omega, fun {σ} he => ?_, nofun⟩
    simp [shape, ← hlength, he]
  obtain ⟨hstart, hchecks⟩ := htyped shape 0 0 0 haround hagrees
  refine ⟨shape, hstart, fun {place item} hitem => Nat.zero_add place ▸ hchecks.suits hitem, fun {place σ} hσ => ?_⟩
  rcases Nat.lt_trichotomy place items.length with hlt | rfl | hgt
  · exact .inl hlt
  · refine .inr ⟨rfl, ?_⟩
    simpa [shape, ← hlength] using hσ
  · have hnone : (shapes ++ [e])[place]? = none := List.getElem?_eq_none (by simp [hlength]; omega)
    simp [shape, hnone] at hσ

/-- A function whose items never reach their end has shapes. -/
theorem Function.exists_shaped_of_typed (hcode : f.code = (items.mapIdx (Item.close 0 0)).toArray)
    (h : Typed D false items [] none) (hlimit : f.code.size < placeLimit) : ∃ shape, f.Shaped D shape := by
  have hsize : f.code.size = items.length := by simp [hcode]
  obtain ⟨shape, hstart, hsuits, hinside⟩ := h.exists_shape (hsize ▸ hlimit)
  refine ⟨shape, hstart, fun {place i} hi => ?_, fun {place σ} hσ => ?_⟩
  · rw [hcode, List.getElem?_toArray, List.getElem?_mapIdx] at hi
    obtain ⟨item, hitem, rfl⟩ := Option.map_eq_some_iff.1 hi
    exact hsuits hitem
  · rcases hinside hσ with hlt | ⟨-, hnone⟩
    · exact .inl (hsize ▸ hlt)
    · cases hnone

/-- The entry routine has shapes if its code leaves the stack empty. -/
theorem Function.exists_shaped_of_entry {code : List Instruction} (hcode : f.code = code.toArray) (hentry : D.isEntry = true)
    (h : Typed D false (plain code) [] (some [])) (hlimit : f.code.size < placeLimit) : ∃ shape, f.Shaped D shape := by
  have hsize : f.code.size = (plain code).length := by simp [hcode]
  obtain ⟨shape, hstart, hsuits, hinside⟩ := h.exists_shape (hsize ▸ hlimit)
  refine ⟨shape, hstart, fun {place i} hi => ?_, fun {place σ} hσ => ?_⟩
  · rw [hcode, List.getElem?_toArray] at hi
    have hitem : (plain code)[place]? = some (.instr i) := by rw [plain, List.getElem?_map, hi]; rfl
    exact hsuits hitem
  · rcases hinside hσ with hlt | ⟨hplace, hempty⟩
    · exact .inl (hsize ▸ hlt)
    · exact .inr ⟨hentry, hplace.trans hsize.symm, (Option.some.inj hempty).symm⟩

/-- The parameters of a function stand for its argument slots. -/
theorem Param.fits_scope {slot : Nat} {params : List Param} (hparams : ∀ param ∈ params, param.type.type ≠ .void)
    (hlimit : slot + params.length ≤ placeLimit) (harguments : D.arguments.drop slot = params.map (·.type.type)) :
    (Param.scope slot params).Fits D := by
  induction params generalizing slot with
  | nil => nofun
  | cons param params ih =>
    obtain ⟨hparam, hparams⟩ := List.forall_mem_cons.1 hparams
    rw [List.length_cons] at hlimit
    have hdrop : D.arguments.drop (slot + 1) = params.map (·.type.type) := by
      rw [← List.drop_drop, harguments]
      rfl
    intro entry hmem
    rcases List.mem_append.1 hmem with hmem | hmem
    · exact ih hparams (by omega) hdrop entry hmem
    · obtain rfl := List.mem_singleton.1 hmem
      refine ⟨TypeName.isStored_type hparam, by omega, ?_⟩
      rw [← Nat.add_zero slot, ← List.getElem?_drop, harguments]
      rfl

/-- The code of a function's body is typed, with the return at its end if there is one. -/
theorem Block.typed_bodyCode {P : List PoolEntry} {body : Block} (hP : D.Pooled P) (hentry : D.isEntry = false)
    (hreturns : returns ≠ .void → returns.IsStored ∧ (Home.argument 0).Fits D returns)
    (hbody : body.Emits P returns false N 0 items) (hN : N.Fits D) (hhas : D.Has 0 body.locals) :
    ∃ items', bodyCode items body.flow = items'.mapIdx (Item.close 0 0) ∧ Typed D false items' [] none := by
  have htyped := (ItemLaw.typed hP hentry hreturns).block body hbody hN hhas
  cases hflow : body.flow.returns with
  | true =>
    have hafter : body.flow.after = none := by simp [Flow.after, Flow.leaves, hflow]
    exact ⟨items, by simp [bodyCode, hflow], hafter ▸ htyped⟩
  | false =>
    exact ⟨items ++ [.instr { op := .ret }], by simp [bodyCode, hflow, List.mapIdx_append], htyped.of_after.append (.ret hentry)⟩

end

section

variable {P : List PoolEntry} {A : Source} {p : Program}

/-- Calling the main function leaves nothing on the stack. -/
theorem typed_mainCode {D : Declared} {inLoop : Bool} (hnumber : number < placeLimit)
    (hcallee : D.callee number = some ⟨[], returns⟩)
    (hplain : Signature.IsPlain ⟨[], returns⟩) : Typed D inLoop (plain (mainCode returns number)) [] (some []) := by
  have hargs (σ : Shape) : Typed D inLoop (plain []) σ (some σ) := .nil σ
  have hcall : Typed D inLoop (plain [.withNat .stackAlloc returns.slots, .withNat .call number]) []
    (some (returns.kinds ++ [])) :=
    .call hplain (.call rfl (toInt_withNat hnumber) hcallee hplain) rfl hargs []
  rw [mainCode, plain_append]
  refine hcall.append ?_
  split
  · rename_i hvoid
    rw [hvoid]
    exact .nil []
  · rename_i hvoid
    obtain ⟨k, a, hk, -, -, hnumber⟩ := (hplain.2.resolve_left hvoid).exists_kinds
    have hlength : (Instruction.withNat .popN returns.slots).operand.toInt = [k].length := by
      rcases hplain.2.resolve_left hvoid with rfl | rfl <;> rfl
    rw [hk]
    exact .instr (.popN rfl hlength (by simpa using hnumber)) rfl []

/-- In the body of a function, the names stand for what is declared for it. -/
structure Source.Body (D : Declared) (returns : ValueType) (body : Block) (N : Scope) : Prop where
  isEntry : D.isEntry = false
  names : N.Fits D
  result : returns ≠ .void → returns.IsStored ∧ (Home.argument 0).Fits D returns
  locals : D.Has 0 body.locals

theorem Source.Declares.body {done post : Source} {N : Scope} {name : Bytes} {params : List Param}
    {returns : TypeName} {body : Block}
    {f : Function} {entry : Bytes × Binding} (h : A.Declares p done N)
    (hA : A = done ++ .function name params returns body :: post)
    (hsmall : A.Small P p) (hd : Definition.Emits P N (done.functions + 1) (.function name params returns body)
    (.function f) entry) (hnew : N.lookup entry.1 = none) :
    Source.Body (A.declared p (done.functions + 1)) returns.type body (Param.scope returns.type.slots params ++ entry :: N) := by
  have hyield : A.yield.length < placeLimit := Nat.lt_trans hsmall.yield (by decide)
  have hentry := h.fits_entry hA hyield hsmall.globals hsmall.pool rfl hd hnew (done.functions + 1)
  have hframe := Source.getElem?_frameTypes done (.function name params returns body) post rfl
  rw [← hA] at hframe
  obtain ⟨harguments, hlocals⟩ := Source.declared_of_frameType p hframe
  have hlength := Definition.length_function_le name params returns body
  rw [hA, Source.yield_append, Source.yield_cons, List.length_append, List.length_append] at hyield
  have hslots : returns.type.slots ≤ 1 := by cases returns <;> decide
  refine ⟨rfl, List.forall_mem_append.2 ⟨?_, (h.fits _).cons hentry⟩, fun hvoid =>
    ⟨TypeName.isStored_type hvoid, by decide, ?_⟩, ?_, ?_⟩
  · cases hd with
    | function hslot hparams =>
      refine Param.fits_scope hparams (by omega) ?_
      rw [harguments]
      cases returns <;> rfl
  · rw [harguments, Signature.arguments, if_neg hvoid]
    rfl
  · rw [hlocals, List.length_map]
    omega
  · exact hlocals ▸ List.prefix_refl _

/-- A function has shapes if the names before it stand for what is declared. -/
theorem Source.Declares.exists_shaped (h : A.Declares p done N) (hA : A = done ++ d :: post) (hsmall : A.Small P p)
    (hd : d.Emits P N (done.functions + 1) (.function f) entry) (hnew : N.lookup entry.1 = none)
    (hlimit : f.code.size < placeLimit) :
    ∃ shape, f.Shaped (A.declared p (done.functions + 1)) shape := by
  cases hd with
  | @function name params returns body slot items hslot hparams hbody hreturns =>
    have hin := h.body hA hsmall (.function hslot hparams hbody hreturns) hnew
    obtain ⟨items', hcode, htyped⟩ := Block.typed_bodyCode (hsmall.pooled _) hin.isEntry hin.result hbody hin.names hin.locals
    exact Function.exists_shaped_of_typed (congrArg List.toArray hcode) htyped hlimit

/-- Every function of the program of a tree has shapes. -/
theorem Source.Makes.exists_shaped (h : A.Makes P p) (hsize : A.yield.length < 2 ^ 60) {k : Nat} {f : Function}
    (hf : p.functions[k]? = some f) : ∃ shape, f.Shaped (A.declared p k) shape := by
  have hsmall := h.small hsize
  have hcode := h.size_code_le hf
  have hlimit : f.code.size < placeLimit := by
    unfold placeLimit
    omega
  cases k with
  | zero =>
    obtain ⟨outputs, N, returns, number, slot, hA, hmain, rfl⟩ := h.exists_entry hf
    obtain ⟨hnames, htyped⟩ := Source.Declares.nil.of_emits hA (List.append_nil A).symm hsmall rfl
    obtain ⟨hnumber, hcallee, hplain⟩ := (hnames.fits 0).of_lookup hmain
    refine Function.exists_shaped_of_entry rfl rfl ?_ hlimit
    rw [plain_append]
    exact htyped.append (typed_mainCode hnumber hcallee hplain)
  | succ k =>
    obtain ⟨pre, d, post, outputs, N, entry, hA, hpre, rfl, hd, hnew⟩ := h.exists_definition hf
    obtain ⟨hnames, -⟩ := Source.Declares.nil.of_emits hpre hA hsmall rfl
    exact hnames.exists_shaped hA hsmall hd hnew hlimit

end

/-! ## Compiled programs -/

/-- A shape for each place of a function that can be reached. -/
structure Function.TypedBy (D : Declared) (f : Function) (shape : Nat → Shape) : Prop where
  /-- At the start nothing is on the stack. -/
  start : shape 0 = []
  /-- Each instruction finds on top of the stack what it takes, and each place that may follow has the shape that it leaves. -/
  acts {place : Nat} {i : Instruction} (hplace : f.Reaches place) (hi : f.code[place]? = some i) :
    ∃ takes gives rest, shape place = takes ++ rest ∧ i.Acts D takes gives ∧
      (∀ next, i.Goes place next → shape next = gives ++ rest) ∧
      (i.op ∈ [.cmpI, .cmpF] → gives = [.bool]) ∧ (.bool ∈ takes → i.op ∈ [.brTrue, .pop, .not, .setLt, .setGt])
  /-- What makes a truth value out of an order follows the comparison on every path. -/
  tests {place before : Nat} {i j : Instruction} (hplace : f.Reaches place) (hi : f.code[place]? = some i)
    (hop : i.op ∈ [.not, .setLt, .setGt]) (hbefore : f.Reaches before) (hj : f.code[before]? = some j)
    (hgo : j.Goes before place) :
    j.op ∈ [.cmpI, .cmpF, .setLt, .setGt]

section

variable {D : Declared} {f : Function} {shape : Nat → Option Shape}
variable {next : Nat} {i : Instruction} {gives rest takes : Shape}

/-- A place that can be reached has a shape. -/
theorem Function.Shaped.exists_shape (h : f.Shaped D shape) (hplace : f.Reaches place) : ∃ σ, shape place = some σ := by
  induction hplace with
  | start => exact ⟨[], h.start⟩
  | go _ hi hgo ih =>
    obtain ⟨σ, hσ⟩ := ih
    obtain ⟨takes, gives, rest, -, hsteps⟩ := h.suits hi σ hσ
    exact ⟨_, hsteps.next hgo⟩

/-- Nothing is left on the stack where code branches to. -/
theorem Instruction.Steps.next_of_branch (h : i.Steps D shape place takes gives rest) (hop : i.op = .br ∨ i.op = .brTrue)
    (hgo : i.Goes place next) : shape next = some [] := by
  have hgives : gives = [] := by
    rcases hop with hop | hop <;> cases h.acts <;> simp_all [Opcode.effect?]
  rw [h.next hgo, hgives, h.leaves (.inr hop)]
  rfl

/-- What goes on to a place with something on its stack stands right before it. -/
theorem Instruction.Steps.place_eq {k : Kind} {σ : Shape} (h : i.Steps D shape place takes gives rest) (hgo : i.Goes place next)
    (hnext : shape next = some (k :: σ)) : next = place + 1 := by
  by_cases hbranch : i.op = .br ∨ i.op = .brTrue
  · rw [h.next_of_branch hbranch hgo] at hnext
    cases hnext
  · have hacts := h.acts
    cases hop : i.op with
    | br | brTrue => simp [hop] at hbranch
    | brFalse => cases hacts <;> simp_all [Opcode.effect?]
    | ret | abort => simp [Instruction.Goes, hop] at hgo
    | _ => exact (Instruction.goes_iff_of_isOrdinary (by rw [hop]; rfl)).1 hgo

theorem Function.Shaped.typedBy (h : f.Shaped D shape) (hcode : Settled (opsOf f.code.toList)) :
    f.TypedBy D fun place => (shape place).getD [] := by
  have hget {place : Nat} {σ : Shape} (hσ : shape place = some σ) : (shape place).getD [] = σ := by rw [hσ]; rfl
  refine ⟨hget h.start, fun {place i} hplace hi => ?_, fun {place before i j} hplace hi hop hbefore hj hgo => ?_⟩
  · obtain ⟨σ, hσ⟩ := h.exists_shape hplace
    obtain ⟨takes, gives, rest, rfl, hsteps⟩ := h.suits hi σ hσ
    refine ⟨takes, gives, rest, hget hσ, hsteps.acts, fun next hgo => hget (hsteps.next hgo), fun hcmp => ?_,
      hsteps.acts.op_of_bool_mem⟩
    exact hsteps.acts.gives_of_cmp (by simpa using hcmp)
  · obtain ⟨σ, hσ⟩ := h.exists_shape hplace
    obtain ⟨takes, gives, rest, rfl, hsteps⟩ := h.suits hi σ hσ
    have htakes : takes = [.bool] := by
      have hacts := hsteps.acts
      simp only [List.mem_cons, List.not_mem_nil, or_false] at hop
      rcases hop with hop | hop | hop <;> cases hacts <;> simp_all [Opcode.effect?]
    subst htakes
    obtain ⟨σ', hσ'⟩ := h.exists_shape hbefore
    obtain ⟨takes', gives', rest', rfl, hsteps'⟩ := h.suits hj σ' hσ'
    have hplace := hsteps'.place_eq hgo hσ
    have htest : (opsOf f.code.toList)[place]? = some i.op := by
      rw [opsOf, List.getElem?_map, Array.getElem?_toList, hi]
      rfl
    obtain ⟨m, order, hm, horder, hisOrder⟩ := hcode.exists_order htest (by cases hi : i.op <;> simp_all [Opcode.isTest])
    obtain rfl : m = before := by omega
    rw [opsOf, List.getElem?_map, Array.getElem?_toList, hj] at horder
    cases horder
    cases hop : j.op <;> simp_all [Opcode.isOrder]

end

/-- Compiling types the operand stack: each function of the program has, by the types that the source declares, one shape for each
of its places that can be reached, however it is reached, and a truth value is only ever branched on or dropped. (No text of `2 ^
60` bytes fits into memory; the bound keeps the distance of every branch within 64 bits.) -/
theorem compile_types_operands {source : Bytes} {p : Program} (hsize : source.length < 2 ^ 60) (h : compile source = .ok p) :
    (∃ A : Source, A.IsTreeOf source) ∧ ∀ A : Source, A.IsTreeOf source → ∀ (k : Nat) (f : Function), p.functions[k]? = some f →
      ∃ shape, f.TypedBy (A.declared p k) shape := by
  refine ⟨Source.exists_isTreeOf h, fun A hA k f hf => ?_⟩
  obtain ⟨P, hmakes⟩ := hA.exists_makes h
  obtain ⟨shape, hshaped⟩ := hmakes.exists_shaped (Nat.lt_of_le_of_lt hA.length_yield_le hsize) hf
  exact ⟨_, hshaped.typedBy (hmakes.settled_code hf)⟩

theorem compile_types_operands_factorials : ∃ p, compile factorials = .ok p ∧ ∃ A : Source, A.IsTreeOf factorials ∧
    ∀ (k : Nat) (f : Function), p.functions[k]? = some f → ∃ shape, f.TypedBy (A.declared p k) shape := by
  obtain ⟨p, hp⟩ := exists_compile_factorials
  obtain ⟨⟨A, hA⟩, htyped⟩ := compile_types_operands (Nat.lt_trans accepts_factorials.1 (by decide)) hp
  exact ⟨p, hp, A, hA, htyped A hA⟩

end OnePass

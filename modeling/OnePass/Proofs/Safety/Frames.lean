import OnePass.Proofs.Machine.Instructions
import OnePass.Proofs.Shapes.Program

/-!
# Frames on the stack

The stack of a machine that runs a program with shapes: for each open call, from the outermost one on, its arguments, its cells
and its operands (`Based`, `View.Safe`). The operands have the shape of the place where the call stands, and an address among them
points to a global or into the frame of its own call.
-/

namespace OnePass

/-- A program whose functions have shapes, by declarations that hold of its tables. -/
structure Program.Sound (p : Program) (D : Nat → Declared) (shape : Nat → Nat → Option Shape) : Prop where
  shaped {k : Nat} {f : Function} (hf : p.functions[k]? = some f) : f.Shaped (D k) (shape k)
  size {k : Nat} {f : Function} (hf : p.functions[k]? = some f) : f.code.size < placeLimit
  locals {k : Nat} {f : Function} (hf : p.functions[k]? = some f) : f.header.locals = .ofNat (D k).locals.length
  isEntry (k : Nat) : (D k).isEntry = true ↔ k = 0
  entry : (D 0).arguments = [] ∧ ∃ f, p.functions[0]? = some f ∧ f.header.locals = 0
  callee {k n : Nat} {s : Signature} (hs : (D k).callee n = some s) : n ≠ 0 ∧ (D n).arguments = s.arguments ∧ s.IsPlain ∧
    ∃ f, p.functions[n]? = some f ∧ f.header.params = .ofNat s.params.length ∧ f.header.returns = .ofNat s.returns.slots
  global {k n : Nat} {τ : ValueType} (hτ : (D k).global n = some τ) : n < p.globals.size
  globals : p.globals.size < placeLimit
  routine {k n : Nat} {primitive : Primitive} (hn : (D k).routine n = some primitive) :
    ∃ g, p.globals[n]? = some g ∧ Primitive.ofName? (g.value.getD []) = some primitive

theorem Signature.IsPlain.length_arguments {s : Signature} (h : s.IsPlain) :
    s.arguments.length = s.params.length + s.returns.slots := by
  rw [Signature.arguments, List.length_append, Nat.add_comm]
  rcases h.2 with hreturns | hreturns | hreturns <;> rw [hreturns] <;> rfl

/-- The header of a function that can be called tells the number of its arguments, if they have room on the stack. -/
theorem Program.Sound.header_eq {p : Program} {D : Nat → Declared} {shape : Nat → Nat → Option Shape}
    (hp : p.Sound D shape) {k n : Nat}
    {s : Signature} {f : Function} (hs : (D k).callee n = some s) (hf : p.functions[n]? = some f)
    (hlength : s.arguments.length ≤ stackSize) :
    f.header.params.toNat = s.params.length ∧ f.header.returns.toNat = s.returns.slots ∧
      s.arguments.length = s.params.length + s.returns.slots := by
  obtain ⟨-, -, hplain, f', hf', hparams, hreturns⟩ := hp.callee hs
  rw [hf'] at hf
  cases hf
  have hsum := hplain.length_arguments
  rw [hsum] at hlength
  unfold stackSize at hlength
  rw [hparams, hreturns]
  exact ⟨UInt32.toNat_ofNat_of_lt' (by change _ < 2 ^ 32; omega), UInt32.toNat_ofNat_of_lt' (by change _ < 2 ^ 32; omega), hsum⟩

/-! ## Operands -/

/-- The slot is one of this kind; an address points to a global, or to a slot from `first` up to before `stop`. -/
def Kind.Holds (globals first stop : Nat) (x : UInt64) : Kind → Prop
  | int | double | bool => True
  | intAddress | doubleAddress => (∃ n < globals, x = Address.ofGlobal n) ∨ ∃ n, first ≤ n ∧ n < stop ∧ x = Address.ofStack n

theorem Kind.IsValue.holds {k : Kind} (hk : k.IsValue) (globals first stop : Nat) (x : UInt64) :
    k.Holds globals first stop x := by
  rcases hk with rfl | rfl | rfl <;> trivial

theorem Kind.IsNumber.isValue {k : Kind} (hk : k.IsNumber) : k.IsValue := by
  rcases hk with rfl | rfl
  · exact .inl rfl
  · exact .inr (.inl rfl)

/-- The operands of a call, from the bottom up, have this shape. -/
inductive Operands (globals first stop : Nat) : List UInt64 → Shape → Prop where
  | nil : Operands globals first stop [] []
  | push {slots : List UInt64} {σ : Shape} {x : UInt64} {k : Kind} (h : Operands globals first stop slots σ)
    (hx : k.Holds globals first stop x) : Operands globals first stop (slots ++ [x]) (k :: σ)

namespace Operands

variable {globals first stop : Nat} {slots more : List UInt64} {σ τ : Shape}

theorem length_eq (h : Operands globals first stop slots σ) : slots.length = σ.length := by
  induction h with
  | nil => rfl
  | push h hx ih => rw [List.length_append, List.length_singleton, List.length_cons, ih]

theorem append (h : Operands globals first stop slots σ) (h' : Operands globals first stop more τ) :
    Operands globals first stop (slots ++ more) (τ ++ σ) := by
  induction h' with
  | nil => rwa [List.append_nil]
  | push h' hx ih =>
    rw [← List.append_assoc]
    exact .push ih hx

theorem split (h : Operands globals first stop slots (τ ++ σ)) :
    ∃ base top, slots = base ++ top ∧ Operands globals first stop base σ ∧ Operands globals first stop top τ := by
  induction τ generalizing slots with
  | nil => exact ⟨slots, [], (List.append_nil _).symm, h, .nil⟩
  | cons k τ ih =>
    cases h with
    | @push slots' _ x _ h hx =>
      obtain ⟨base, top, rfl, hbase, htop⟩ := ih h
      exact ⟨base, top ++ [x], List.append_assoc .., hbase, .push htop hx⟩

/-- Where no address is expected, any slots do. -/
theorem of_values (hσ : ∀ k ∈ σ, k.IsValue) (hlength : slots.length = σ.length) : Operands globals first stop slots σ := by
  induction σ generalizing slots with
  | nil =>
    obtain rfl := List.length_eq_zero_iff.1 hlength
    exact .nil
  | cons k σ ih =>
    obtain ⟨hk, hσ⟩ := List.forall_mem_cons.1 hσ
    rcases List.eq_nil_or_concat slots with rfl | ⟨slots, x, rfl⟩
    · cases hlength
    · rw [List.concat_eq_append] at hlength ⊢
      rw [List.length_append, List.length_singleton, List.length_cons] at hlength
      exact .push (ih hσ (Nat.succ.inj hlength)) (hk.holds ..)

theorem one {x : UInt64} {k : Kind} (hx : k.Holds globals first stop x) : Operands globals first stop [x] [k] := .push .nil hx

theorem exists_one {k : Kind} (h : Operands globals first stop slots [k]) : ∃ x, slots = [x] ∧ k.Holds globals first stop x := by
  cases h with
  | @push slots _ x _ h hx =>
    cases h
    exact ⟨x, rfl, hx⟩

theorem exists_two {k1 k2 : Kind} (h : Operands globals first stop slots [k2, k1]) :
    ∃ x y, slots = [x] ++ [y] ∧ k1.Holds globals first stop x ∧ k2.Holds globals first stop y := by
  cases h with
  | @push slots _ y _ h hy =>
    obtain ⟨x, rfl, hx⟩ := h.exists_one
    exact ⟨x, y, rfl, hx, hy⟩

end Operands

/-! ## Calls -/

/-- The slots of open calls, the innermost one without its operands. A caller stands behind the call, and what it waits for is the
result. -/
inductive Based (p : Program) (D : Nat → Declared) (shape : Nat → Nat → Option Shape) (globals : Nat) :
    List Frame → List UInt64 → Prop where
  | entry {frame : Frame} (hfunction : frame.function = 0) (hargBase : frame.argBase = 0) (hlocalBase : frame.localBase = 0) :
    Based p D shape globals [frame] []
  | call {frame caller : Frame} {F : List Frame} {lower operands args cells : List UInt64} {rest : Shape}
      {s : Signature} {k : Nat}
    {f : Function} (hlower : Based p D shape globals (caller :: F) lower)
    (hoperands : Operands globals caller.argBase lower.length operands rest)
    (hreturn : shape caller.function caller.pc = some (s.gives ++ rest)) (hs : (D k).callee frame.function = some s)
    (hf : p.functions[frame.function]? = some f) (hargBase : frame.argBase = (lower ++ operands).length)
    (hargs : args.length = s.arguments.length) (hlocalBase : frame.localBase = (lower ++ operands ++ args).length)
    (hcells : cells.length = f.header.locals.toNat) :
    Based p D shape globals (frame :: caller :: F) (lower ++ operands ++ args ++ cells)

namespace Based

variable {p : Program} {D : Nat → Declared} {shape : Nat → Nat → Option Shape} {globals : Nat} {frame : Frame} {F : List Frame}
  {lower : List UInt64} {f : Function}

/-- Where the call stands does not matter to its frame. -/
theorem jump (h : Based p D shape globals (frame :: F) lower) (pc : Nat) :
    Based p D shape globals ({ frame with pc } :: F) lower := by
  cases h with
  | entry hfunction hargBase hlocalBase => exact .entry hfunction hargBase hlocalBase
  | call hlower hoperands hreturn hs hf hargBase hargs hlocalBase hcells =>
    exact .call hlower hoperands hreturn hs hf hargBase hargs hlocalBase hcells

/-- The frame ends with the cells of its locals. -/
theorem length_eq (hp : p.Sound D shape) (h : Based p D shape globals (frame :: F) lower)
    (hf : p.functions[frame.function]? = some f) :
    lower.length = frame.localBase + f.header.locals.toNat := by
  cases h with
  | entry hfunction hargBase hlocalBase =>
    obtain ⟨f', hf', hlocals⟩ := hp.entry.2
    rw [hfunction, hf'] at hf
    cases hf
    rw [hlocalBase, hlocals]
    rfl
  | call hlower hoperands hreturn hs hf' hargBase hargs hlocalBase hcells =>
    rw [hf'] at hf
    cases hf
    rw [List.length_append, hlocalBase, hcells]

theorem argBase_le (h : Based p D shape globals (frame :: F) lower) : frame.argBase ≤ frame.localBase := by
  cases h with
  | entry hfunction hargBase hlocalBase => exact Nat.le_of_eq (hargBase.trans hlocalBase.symm)
  | call hlower hoperands hreturn hs hf' hargBase hargs hlocalBase hcells =>
    simp only [hargBase, hlocalBase, List.length_append]
    omega

/-- The frame stays one when one of its slots is set. -/
theorem set (h : Based p D shape globals (frame :: F) lower) {n : Nat} (hn : frame.argBase ≤ n) (x : UInt64) :
    Based p D shape globals (frame :: F) (lower.set n x) := by
  cases h with
  | entry hfunction hargBase hlocalBase => exact .entry hfunction hargBase hlocalBase
  | @call _ caller F lower operands args cells rest s k f hlower hoperands hreturn hs hf hargBase hargs hlocalBase hcells =>
    rw [hargBase] at hn
    rw [List.append_assoc _ args cells, List.set_append_right _ _ hn, List.set_append]
    split
    · rw [← List.append_assoc]
      exact .call hlower hoperands hreturn hs hf hargBase (by rw [List.length_set, hargs])
        (by rw [hlocalBase]; simp) hcells
    · rw [← List.append_assoc]
      exact .call hlower hoperands hreturn hs hf hargBase hargs hlocalBase (by rw [List.length_set, hcells])

/-- An argument slot of the function is one that its header tells of. -/
theorem lt_arguments (hp : p.Sound D shape) (h : Based p D shape globals (frame :: F) lower)
    (hf : p.functions[frame.function]? = some f)
    (hlength : lower.length ≤ stackSize) {n : Nat} (hn : n < (D frame.function).arguments.length) :
    n < (f.header.params + f.header.returns).toNat ∧ frame.argBase + n < lower.length := by
  cases h with
  | entry hfunction hargBase hlocalBase =>
    rw [hfunction, hp.entry.1] at hn
    cases hn
  | @call _ caller F lower operands args cells rest s k f' hlower hoperands hreturn hs hf' hargBase hargs hlocalBase hcells =>
    obtain ⟨-, harguments, -, -⟩ := hp.callee hs
    rw [harguments] at hn
    simp only [List.length_append] at hlength hargBase ⊢
    obtain ⟨hparams, hreturns, hsum⟩ := hp.header_eq hs hf (by omega)
    rw [UInt32.toNat_add, hparams, hreturns, Nat.mod_eq_of_lt (by unfold stackSize at hlength; omega)]
    omega

end Based

/-! ## Safe views -/

/-- The innermost call stands at a place with a shape, and its operands have that shape. -/
structure View.Safe (p : Program) (D : Nat → Declared) (shape : Nat → Nat → Option Shape) (v : View) : Prop where
  globals : v.globals.size = p.globals.size
  frames : ∃ frame F lower operands σ, v.frames = frame :: F ∧ v.slots = lower ++ operands ∧
    Based p D shape p.globals.size (frame :: F) lower ∧ Operands p.globals.size frame.argBase lower.length operands σ ∧
    shape frame.function frame.pc = some σ

/-- What one step may do to a view, if the machine goes on. -/
inductive View.Moves (p : Program) : View → View → Prop where
  /-- The innermost call goes on; nothing beneath its frame has changed, and its frame is still there. -/
  | stay {G G' : Array UInt64} {S S' : List UInt64} {frame : Frame} {F : List Frame} {C C' : Console} {f : Function} (pc : Nat)
    (hf : p.functions[frame.function]? = some f) (hbelow : S'.take frame.argBase = S.take frame.argBase)
    (hsp : frame.localBase + f.header.locals.toNat ≤ S'.length) :
      Moves p ⟨G, S, frame :: F, C⟩ ⟨G', S', { frame with pc } :: F, C'⟩
  /-- A function is called, whose arguments lie above the frame of the caller; it gets its cells. -/
  | call {G : Array UInt64} {S : List UInt64} {frame : Frame} {F : List Frame} {C : Console} {f g : Function} {n : Nat}
    (hf : p.functions[frame.function]? = some f) (hg : p.functions[n]? = some g)
    (hargs : frame.localBase + f.header.locals.toNat + (g.header.params.toNat + g.header.returns.toNat) ≤ S.length) :
    Moves p ⟨G, S, frame :: F, C⟩ ⟨G, S ++ List.replicate g.header.locals.toNat 0,
      { function := n, argBase := S.length - (g.header.params.toNat + g.header.returns.toNat), localBase := S.length } ::
        frame.next :: F, C⟩
  /-- The innermost call returns to its caller, which keeps what is beneath the frame, and gets the result. -/
  | ret {G : Array UInt64} {S : List UInt64} {frame caller : Frame} {F : List Frame} {C : Console} {f : Function}
    (hf : p.functions[frame.function]? = some f) (hsp : frame.argBase + f.header.returns.toNat ≤ S.length) :
    Moves p ⟨G, S, frame :: caller :: F, C⟩ ⟨G, S.take (frame.argBase + f.header.returns.toNat), caller :: F, C⟩

end OnePass

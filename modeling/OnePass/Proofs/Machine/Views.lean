import OnePass.Machine.Run

/-!
# Views of a machine

How a machine goes on depends on its globals, the slots in use, its calls and its console (`View`); what lies in the stack above
the slots in use never matters. Each part of a step is described by how it leads from one view to another, with its result or its
fault (`Exec.Leads`), so that later proofs see lists and no stack pointer.
-/

namespace OnePass

variable {n : Nat} {a x : UInt64} {f : Function}

/-- What of a machine matters to how it goes on. -/
structure View where
  globals : Array UInt64
  /-- The slots in use, from the bottom up. -/
  slots : List UInt64
  frames : List Frame
  console : Console

/-- The frame of a call that has moved on to its next instruction. -/
abbrev Frame.next (frame : Frame) : Frame := { frame with pc := frame.pc + 1 }

/-- The machine is at work on a program, and this is what matters of it. -/
structure Machine.Shows (m : Machine) (p : Program) (v : View) : Prop where
  program : m.program = p
  globals : m.globals = v.globals
  frames : m.frames = v.frames
  console : m.console = v.console
  running : m.halted = false
  sp : m.sp = v.slots.length
  slots : m.stack.toList.take v.slots.length = v.slots

namespace Machine.Shows

variable {m : Machine} {p : Program} {v : View}

theorem length_le (h : m.Shows p v) : v.slots.length ≤ stackSize := by
  have := congrArg List.length h.slots
  simp only [List.length_take, Vector.length_toList] at this
  omega

theorem getElem_stack (h : m.Shows p v) {i : Nat} (hi : i < v.slots.length) (hsize : i < stackSize) :
    m.stack[i] = v.slots[i] := by
  have := congrArg (fun l => l[i]?) h.slots
  simp [hi, hsize] at this
  exact this

/-- Counting steps changes nothing else. -/
theorem count (h : m.Shows p v) (steps : Nat) : ({ m with steps } : Machine).Shows p v := { h with }

/-- One more slot is in use. -/
theorem push (h : m.Shows p v) (hsize : m.sp < stackSize) (x : UInt64) :
    ({ m with stack := m.stack.set m.sp x hsize, sp := m.sp + 1 } : Machine).Shows p { v with slots := v.slots ++ [x] } := by
  refine { h with sp := by simp [h.sp], slots := ?_ }
  have hlength : v.slots.length < m.stack.toList.length := by
    rw [Vector.length_toList, ← h.sp]
    exact hsize
  rw [List.length_append, List.length_singleton, Vector.toList_set, h.sp, List.take_add_one,
    List.take_set_of_le (Nat.le_refl _), h.slots, List.getElem?_set_self hlength]
  rfl

/-- Fewer slots are in use. -/
theorem shrink {slots more : List UInt64} (h : m.Shows p v) (hslots : v.slots = slots ++ more) :
    ({ m with sp := slots.length } : Machine).Shows p { v with slots } := by
  refine { h with sp := rfl, slots := ?_ }
  have := congrArg (List.take slots.length) h.slots
  simpa [hslots, List.take_take] using this

/-- A slot in use is set. -/
theorem set (h : m.Shows p v) {i : Nat} (hsize : i < stackSize) (x : UInt64) :
    ({ m with stack := m.stack.set i x hsize } : Machine).Shows p { v with slots := v.slots.set i x } := by
  refine { h with sp := by simp [h.sp], slots := ?_ }
  rw [Vector.toList_set, List.length_set, List.take_set, h.slots]

/-- A machine starts with nothing on the stack, at the first instruction of the entry routine. -/
theorem start (hf : p.functions[0]? = some f) (hlocals : f.header.locals.toNat = 0) (input : Bytes) :
    (Machine.start p input).Shows p ⟨Array.replicate p.globals.size 0, [], [{ function := 0 }], { input }⟩ := by
  have hne : p.functions.isEmpty = false := by
    cases hempty : p.functions.isEmpty with
    | false => rfl
    | true =>
      rw [Array.isEmpty_iff.1 hempty] at hf
      cases hf
  refine ⟨rfl, rfl, ?_, rfl, hne, ?_, rfl⟩
  · change (if p.functions.isEmpty then [] else [({ function := 0 } : Frame)]) = _
    rw [hne]
    rfl
  · change (p.functions[0]?.map fun f => f.header.locals.toNat).getD 0 = 0
    rw [hf]
    exact hlocals

end Machine.Shows

/-! ## Addresses -/

namespace Address

theorem or_and (a b c : UInt64) : (a ||| b) &&& c = (a &&& c) ||| (b &&& c) := UInt64.toBitVec_inj.1 BitVec.and_or_distrib_right

theorem and_indexMask (h : x.toNat < 2 ^ 62) : x &&& indexMask = x := by
  apply UInt64.toNat_inj.1
  have hmask : indexMask.toNat = 2 ^ 62 - 1 := by decide
  rw [UInt64.toNat_and, hmask, Nat.and_two_pow_sub_one_eq_mod, Nat.mod_eq_of_lt h]

theorem toNat_ofNat (h : n < 2 ^ 62) : (UInt64.ofNat n).toNat = n := UInt64.toNat_ofNat_of_lt' (Nat.lt_trans h (by decide))

theorem index_or (ha : a &&& indexMask = 0) (h : n < 2 ^ 62) : index (a ||| UInt64.ofNat n) = n := by
  rw [index, or_and, ha, and_indexMask (by rwa [toNat_ofNat h]), UInt64.zero_or, toNat_ofNat h]

theorem region_or (ha : a &&& ~~~indexMask = a) (h : n < 2 ^ 62) : region (a ||| UInt64.ofNat n) = a := by
  have hlow : UInt64.ofNat n &&& ~~~indexMask = 0 := by
    rw [← and_indexMask (show (UInt64.ofNat n).toNat < 2 ^ 62 by rwa [toNat_ofNat h]), UInt64.and_assoc,
      UInt64.and_not_self, UInt64.and_zero]
  rw [region, or_and, ha, hlow, UInt64.or_zero]

theorem index_ofStack (h : n < 2 ^ 62) : index (ofStack n) = n := index_or (by decide) h

theorem region_ofStack (h : n < 2 ^ 62) : region (ofStack n) = stackRegion := region_or (by decide) h

theorem index_ofGlobal (h : n < 2 ^ 62) : index (ofGlobal n) = n := index_or (by decide) h

theorem region_ofGlobal (h : n < 2 ^ 62) : region (ofGlobal n) = globalRegion := region_or (by decide) h

end Address

namespace Exec

variable {α β : Type} {p : Program} {u v w : View}

/-! ## Parts of a step, one after another -/

theorem run_bind (x : Exec α) (f : α → Exec β) (m : Machine) :
    (x >>= f).run m = match x.run m with
      | (.ok a, m') => (f a).run m'
      | (.error e, m') => (.error e, m') := by
  change (match (ExceptT.run x m) with | (r, m') => (ExceptT.bindCont f r) m') = _
  rcases ExceptT.run x m with ⟨_ | a, m'⟩ <;> rfl

theorem run_get_bind (f : Machine → Exec β) (m : Machine) : (get >>= f).run m = (f m).run m := by
  rw [run_bind]
  rfl

/-- The part of a step leads from a view to another, with a result or a fault. -/
def Leads (x : Exec α) (p : Program) (u : View) (r : Except MachineFault α) (v : View) : Prop :=
  ∀ m : Machine, m.Shows p u → ∃ m', x.run m = (r, m') ∧ m'.Shows p v

namespace Leads

variable {r : Except MachineFault β}

theorem pure (a : α) : Leads (pure a) p u (.ok a) u := fun m h => ⟨m, rfl, h⟩

theorem throw (f : MachineFault) : Leads (throw f : Exec α) p u (.error f) u := fun m h => ⟨m, rfl, h⟩

theorem bind {x : Exec α} {f : α → Exec β} {a : α} (hx : Leads x p u (.ok a) v) (hf : Leads (f a) p v r w) :
    Leads (x >>= f) p u r w := by
  intro m h
  obtain ⟨m', hrun, h'⟩ := hx m h
  rw [run_bind, hrun]
  exact hf m' h'

theorem bind_error {x : Exec α} {f : α → Exec β} {e : MachineFault} (hx : Leads x p u (.error e) v) :
    Leads (x >>= f) p u (.error e) v := by
  intro m h
  obtain ⟨m', hrun, h'⟩ := hx m h
  rw [run_bind, hrun]
  exact ⟨m', rfl, h'⟩

/-- A look at the machine. -/
theorem get_bind {f : Machine → Exec β} (hf : ∀ m : Machine, m.Shows p u → ∃ m', (f m).run m = (r, m') ∧ m'.Shows p v) :
    Leads (get >>= f) p u r v := by
  intro m h
  rw [run_get_bind]
  exact hf m h

theorem modify {g : Machine → Machine} (hg : ∀ m : Machine, m.Shows p u → (g m).Shows p v) : Leads (modify g) p u (.ok ()) v :=
  fun m h => ⟨g m, rfl, hg m h⟩

theorem modifyGet {g : Machine → α × Machine} {a : α} (hg : ∀ m : Machine, m.Shows p u → (g m).1 = a ∧ (g m).2.Shows p v) :
    Leads (modifyGet g) p u (.ok a) v := by
  intro m h
  obtain ⟨hvalue, hshows⟩ := hg m h
  exact ⟨(g m).2, by rw [← hvalue]; rfl, hshows⟩

end Leads

end Exec

/-! ## What primitives do -/

/-- What a primitive does with its arguments: the slots that it gives, or its fault, and the console then. -/
def Primitive.respond (p : Program) (c : Console) : Primitive → List UInt64 → Except MachineFault (List UInt64) × Console
  | getint, _ =>
    match Input.readInt c.input with
    | (.ok n, rest) => (.ok [n.toUInt64], { c with input := rest })
    | (.error e, rest) => (.error (.input getint e), { c with input := rest })
  | getchar, _ =>
    match Exec.readByte c.input with
    | (.ok b, rest) => (.ok [b], { c with input := rest })
    | (.error e, rest) => (.error (.input getchar e), { c with input := rest })
  | getdouble, _ =>
    match Input.readDouble c.input with
    | (.ok x, rest) => (.ok [x], { c with input := rest })
    | (.error e, rest) => (.error (.input getdouble e), { c with input := rest })
  | putint, args => (.ok [], c.write (Bytes.ofInt (args.headD 0).toInt64.toInt))
  | putchar, args => (.ok [], c.write [(args.headD 0).toUInt8])
  | putstr, args =>
    match p.globals[(args.headD 0).toNat]? with
    | some g => (.ok [], c.write g.payload)
    | none => (.error (.noText (args.headD 0)), c)
  | putdouble, args => (.ok [], c.write (Double.text (args.headD 0)))
  | putln, _ => (.ok [], c.write [0x0a])

namespace Exec.Leads

variable {α : Type} {p : Program} {G : Array UInt64} {S : List UInt64} {F : List Frame} {C : Console}
variable {primitive : Primitive} {y : UInt64} {top : Frame} {rest : Bytes} {args before : List UInt64}
  {reader : Bytes → Except InputError α × Bytes}

/-! ## The stack -/

theorem push {x : UInt64} (h : S.length < stackSize) : Leads (push x) p ⟨G, S, F, C⟩ (.ok ()) ⟨G, S ++ [x], F, C⟩ := by
  refine get_bind fun m hm => ?_
  have hsp : m.sp < stackSize := by rwa [hm.sp]
  rw [dif_pos hsp]
  exact ⟨_, rfl, hm.push hsp x⟩

theorem push_error (h : S.length = stackSize) : Leads (Exec.push x) p ⟨G, S, F, C⟩ (.error .stackOverflow) ⟨G, S, F, C⟩ := by
  refine get_bind fun m hm => ?_
  rw [dif_neg (by rw [hm.sp, h]; exact Nat.lt_irrefl _)]
  exact ⟨m, rfl, hm⟩

theorem pushZeros (h : S.length + n ≤ stackSize) :
    Leads (pushZeros n) p ⟨G, S, F, C⟩ (.ok ()) ⟨G, S ++ List.replicate n 0, F, C⟩ := by
  induction n generalizing S with
  | zero =>
    rw [List.replicate_zero, List.append_nil]
    exact .pure ()
  | succ n ih =>
    rw [List.replicate_succ, List.append_cons]
    exact bind (push (by omega)) (ih (S := S ++ [0]) (by rw [List.length_append, List.length_singleton]; omega))

theorem pushZeros_error (hsize : S.length ≤ stackSize) (h : stackSize < S.length + n) :
    Leads (Exec.pushZeros n) p ⟨G, S, F, C⟩ (.error .stackOverflow) ⟨G, S ++ List.replicate (stackSize - S.length) 0, F, C⟩ := by
  induction n generalizing S with
  | zero => omega
  | succ n ih =>
    by_cases hfull : S.length = stackSize
    · rw [hfull, Nat.sub_self, List.replicate_zero, List.append_nil]
      exact bind_error (push_error hfull)
    · have hlength : (S ++ [(0 : UInt64)]).length = S.length + 1 := by rw [List.length_append, List.length_singleton]
      have hcount : stackSize - S.length = stackSize - (S ++ [(0 : UInt64)]).length + 1 := by omega
      rw [hcount, List.replicate_succ, List.append_cons]
      exact bind (push (by omega)) (ih (S := S ++ [0]) (by omega) (by omega))

theorem pop : Leads pop p ⟨G, S ++ [x], F, C⟩ (.ok x) ⟨G, S, F, C⟩ := by
  refine get_bind fun m hm => ?_
  have hsp : m.sp = S.length + 1 := by rw [hm.sp]; simp
  have hsize : m.sp - 1 < stackSize := by
    have := hm.length_le
    rw [← hm.sp] at this
    omega
  have hx : m.stack[m.sp - 1] = x := by
    rw [hm.getElem_stack (by rw [← hm.sp]; omega) hsize]
    simp [hsp]
  refine ⟨{ m with sp := m.sp - 1 }, ?_, ?_⟩
  · rw [if_neg (by omega), run_bind]
    simp only [dif_pos hsize, hx]
    rfl
  · have hshrink := hm.shrink rfl
    rwa [show S.length = m.sp - 1 by omega] at hshrink

theorem pop2 : Leads pop2 p ⟨G, S ++ [x] ++ [y], F, C⟩ (.ok (x, y)) ⟨G, S, F, C⟩ :=
  bind pop (bind pop (.pure (x, y)))

theorem setTop : Leads (setTop y) p ⟨G, S ++ [x], F, C⟩ (.ok ()) ⟨G, S ++ [y], F, C⟩ := by
  refine get_bind fun m hm => ?_
  have hsp : m.sp - 1 = S.length := by rw [hm.sp]; simp
  have hsize : m.sp - 1 < stackSize := by
    have := hm.length_le
    rw [List.length_append, List.length_singleton] at this
    omega
  rw [dif_pos hsize]
  have hslots : (S ++ [x]).set (m.sp - 1) y = S ++ [y] := by
    rw [hsp, List.set_append_right _ _ (Nat.le_refl _), Nat.sub_self]
    rfl
  exact ⟨_, rfl, hslots ▸ hm.set hsize y⟩

theorem read_global (hregion : Address.region a = Address.globalRegion) (hx : G[Address.index a]? = some x) :
    Leads (read a) p ⟨G, S, F, C⟩ (.ok x) ⟨G, S, F, C⟩ := by
  refine get_bind fun m hm => ?_
  have hindex := (Array.getElem?_eq_some_iff.1 hx).1
  rw [hm.globals, if_pos ⟨hregion, hindex⟩, hx]
  exact ⟨m, rfl, hm⟩

theorem read_stack (hregion : Address.region a = Address.stackRegion) (hx : S[Address.index a]? = some x) :
    Leads (read a) p ⟨G, S, F, C⟩ (.ok x) ⟨G, S, F, C⟩ := by
  refine get_bind fun m hm => ?_
  obtain ⟨hindex, hx⟩ := List.getElem?_eq_some_iff.1 hx
  have hsize : Address.index a < stackSize := Nat.lt_of_lt_of_le hindex hm.length_le
  rw [if_neg (by rw [hregion]; exact fun h => absurd h.1 (by decide)), if_pos ⟨hregion, by rwa [hm.sp]⟩, dif_pos hsize]
  exact ⟨m, by rw [hm.getElem_stack hindex hsize, hx]; rfl, hm⟩

theorem write_global (hregion : Address.region a = Address.globalRegion) (hindex : Address.index a < G.size) :
    Leads (write a x) p ⟨G, S, F, C⟩ (.ok ()) ⟨G.modify (Address.index a) fun _ => x, S, F, C⟩ := by
  refine get_bind fun m hm => ?_
  rw [if_pos ⟨hregion, by rwa [hm.globals]⟩]
  exact ⟨_, rfl, { hm with globals := by simp only [hm.globals] }⟩

theorem write_stack (hregion : Address.region a = Address.stackRegion) (hindex : Address.index a < S.length) :
    Leads (write a x) p ⟨G, S, F, C⟩ (.ok ()) ⟨G, S.set (Address.index a) x, F, C⟩ := by
  refine get_bind fun m hm => ?_
  have hsize : Address.index a < stackSize := Nat.lt_of_lt_of_le hindex hm.length_le
  rw [if_neg (by rw [hregion]; exact fun h => absurd h.1 (by decide)), if_pos ⟨hregion, by rwa [hm.sp]⟩, dif_pos hsize]
  exact ⟨_, rfl, hm.set hsize x⟩

/-! ## Calls and branches -/

/-- Entering a function, whose arguments are the topmost slots. -/
theorem enter (hf : p.functions[n]? = some f) (hargs : f.header.params.toNat + f.header.returns.toNat ≤ S.length)
    (hsize : S.length + f.header.locals.toNat ≤ stackSize) :
    Leads (enter n) p ⟨G, S, F, C⟩ (.ok ()) ⟨G, S ++ List.replicate f.header.locals.toNat 0,
      { function := n, argBase := S.length - (f.header.params.toNat + f.header.returns.toNat), localBase := S.length } :: F,
        C⟩ := by
  refine get_bind fun m hm => ?_
  have hlt : ¬ m.sp < f.header.params.toNat + f.header.returns.toNat := by rw [hm.sp]; exact Nat.not_lt.2 hargs
  simp only [Int.toNat_natCast, hm.program, hf, if_neg (show ¬ ((n : Int) < 0) by omega), if_neg hlt]
  refine bind (.pure _) (bind (pushZeros hsize) (modify ?_)) m hm
  intro m' hm'
  exact { hm' with frames := by simp [hm'.frames, hm.sp] }

theorem enter_error (hf : p.functions[n]? = some f) (hargs : f.header.params.toNat + f.header.returns.toNat ≤ S.length)
    (hlength : S.length ≤ stackSize) (hsize : stackSize < S.length + f.header.locals.toNat) :
    Leads (Exec.enter n) p ⟨G, S, F, C⟩ (.error .stackOverflow) ⟨G, S ++ List.replicate (stackSize - S.length) 0, F, C⟩ := by
  refine get_bind fun m hm => ?_
  have hlt : ¬ m.sp < f.header.params.toNat + f.header.returns.toNat := by rw [hm.sp]; exact Nat.not_lt.2 hargs
  simp only [Int.toNat_natCast, hm.program, hf, if_neg (show ¬ ((n : Int) < 0) by omega), if_neg hlt]
  exact bind (.pure _) (bind_error (pushZeros_error hlength hsize)) m hm

/-- Leaving a call that is not the only one. -/
theorem leave {frame : Frame} (hne : F ≠ []) (hsize : frame.argBase + f.header.returns.toNat ≤ S.length) :
    Leads (leave frame f) p ⟨G, S, top :: F, C⟩ (.ok ()) ⟨G, S.take (frame.argBase + f.header.returns.toNat), F, C⟩ := by
  refine modify fun m hm => ?_
  have hshrink := hm.shrink (List.take_append_drop (frame.argBase + f.header.returns.toNat) S).symm
  rw [List.length_take, Nat.min_eq_left hsize] at hshrink
  refine { hshrink with frames := ?_, running := ?_ }
  · simp [hm.frames]
  · simp [hm.frames, hm.running, hne]

theorem jump (pc : Nat) : Leads (jump pc) p ⟨G, S, top :: F, C⟩ (.ok ()) ⟨G, S, { top with pc } :: F, C⟩ := by
  refine modify fun m hm => ?_
  simp only [hm.frames]
  exact { hm with frames := rfl }

theorem branch {next target : Nat} {f : Function} {distance : Int64} {top : Frame}
    (htarget : (Int64.ofNat next + distance).toInt = target) (hsize : target ≤ f.code.size) :
    Leads (branch next f distance) p ⟨G, S, top :: F, C⟩ (.ok ()) ⟨G, S, { top with pc := target } :: F, C⟩ := by
  have hin : ¬ ((target : Int) < 0 ∨ (f.code.size : Int) < target) := by omega
  unfold Exec.branch
  simp only [htarget, if_neg hin, Int.toNat_natCast]
  exact bind (.pure _) (jump target)

/-! ## Primitives -/

theorem print (b : Bytes) : Leads (print b) p ⟨G, S, F, C⟩ (.ok ()) ⟨G, S, F, C.write b⟩ :=
  modify fun m hm => { hm with console := by rw [hm.console] }

theorem scan_ok {a : α} (h : reader C.input = (.ok a, rest)) :
    Leads (scan primitive reader) p ⟨G, S, F, C⟩ (.ok a) ⟨G, S, F, { C with input := rest }⟩ := by
  refine bind (a := .ok a) (v := ⟨G, S, F, { C with input := rest }⟩) (modifyGet fun m hm => ?_) ?_
  · rw [hm.console, h]
    exact ⟨rfl, { hm with console := rfl }⟩
  · exact .pure a

theorem scan_error {e : InputError} (h : reader C.input = (.error e, rest)) :
    Leads (Exec.scan primitive reader) p ⟨G, S, F, C⟩ (.error (.input primitive e)) ⟨G, S, F, { C with input := rest }⟩ := by
  refine bind (a := .error e) (v := ⟨G, S, F, { C with input := rest }⟩) (modifyGet fun m hm => ?_) ?_
  · rw [hm.console, h]
    exact ⟨rfl, { hm with console := rfl }⟩
  · exact .throw _

/-- What is left in the slots for a primitive's result: what it gives, or, if it fails, what was there. -/
def outcome (r : Except MachineFault (List UInt64)) (before : List UInt64) : List UInt64 :=
  match r with
  | .ok given => given
  | .error _ => before

/-- A primitive finds the slots for its result and above them its arguments. -/
theorem carryOut (hbefore : before.length = primitive.signature.returns.slots)
    (hargs : args.length = primitive.signature.params.length) :
    Leads (carryOut primitive) p ⟨G, S ++ before ++ args, F, C⟩ ((primitive.respond p C args).1.map fun _ => ())
      ⟨G, S ++ outcome (primitive.respond p C args).1 before, F, (primitive.respond p C args).2⟩ := by
  cases primitive with
  | getint =>
    obtain rfl := List.length_eq_zero_iff.1 hargs
    obtain ⟨x, rfl⟩ := List.length_eq_one_iff.1 hbefore
    rw [List.append_nil, Primitive.respond]
    rcases hread : Input.readInt C.input with ⟨n | n, rest⟩
    · exact bind_error (scan_error hread)
    · exact bind (scan_ok hread) setTop
  | getchar =>
    obtain rfl := List.length_eq_zero_iff.1 hargs
    obtain ⟨x, rfl⟩ := List.length_eq_one_iff.1 hbefore
    rw [List.append_nil, Primitive.respond]
    rcases hread : Exec.readByte C.input with ⟨n | n, rest⟩
    · exact bind_error (scan_error hread)
    · exact bind (scan_ok hread) setTop
  | getdouble =>
    obtain rfl := List.length_eq_zero_iff.1 hargs
    obtain ⟨x, rfl⟩ := List.length_eq_one_iff.1 hbefore
    rw [List.append_nil, Primitive.respond]
    rcases hread : Input.readDouble C.input with ⟨n | n, rest⟩
    · exact bind_error (scan_error hread)
    · exact bind (scan_ok hread) setTop
  | putint | putchar | putdouble =>
    obtain ⟨x, rfl⟩ := List.length_eq_one_iff.1 hargs
    obtain rfl := List.length_eq_zero_iff.1 hbefore
    simp only [Primitive.respond, outcome, List.append_nil, List.headD_cons]
    exact bind pop (print _)
  | putstr =>
    obtain ⟨x, rfl⟩ := List.length_eq_one_iff.1 hargs
    obtain rfl := List.length_eq_zero_iff.1 hbefore
    simp only [Primitive.respond, List.append_nil, List.headD_cons]
    refine bind pop (get_bind fun m hm => ?_)
    simp only [hm.program]
    rcases p.globals[x.toNat]? with _ | g
    · simp only [outcome, List.append_nil]
      exact Leads.throw _ m hm
    · simp only [outcome, List.append_nil]
      exact print _ m hm
  | putln =>
    obtain rfl := List.length_eq_zero_iff.1 hargs
    obtain rfl := List.length_eq_zero_iff.1 hbefore
    simp only [Primitive.respond, outcome, List.append_nil]
    exact print _

theorem callPrimitive {g : Global} (hg : p.globals[n]? = some g) (hname : Primitive.ofName? (g.value.getD []) = some primitive)
    (hbefore : before.length = primitive.signature.returns.slots) (hargs : args.length = primitive.signature.params.length) :
    Leads (callPrimitive n) p ⟨G, S ++ before ++ args, F, C⟩ ((primitive.respond p C args).1.map fun _ => ())
      ⟨G, S ++ outcome (primitive.respond p C args).1 before, F, (primitive.respond p C args).2⟩ := by
  refine get_bind fun m hm => ?_
  simp only [Int.toNat_natCast, hm.program, hg, if_neg (show ¬ ((n : Int) < 0) by omega), hname]
  refine get_bind (fun m hm => ?_) m hm
  have hlength := hm.length_le
  have hsp := hm.sp
  simp only [List.length_append] at hlength hsp
  rw [if_neg (by omega), if_neg (by omega)]
  exact bind (.pure _) (bind (.pure _) (carryOut hbefore hargs)) m hm

end Exec.Leads

end OnePass

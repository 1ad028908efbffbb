import OnePass.Proofs.Safety.Step

/-!
# Runs of compiled programs

Compiled programs are sound (`Source.Makes.exists_sound`), so whatever they are fed and however long they run, they fail in few
ways only, and end with an empty stack (`compile_runs_safely`). A call never touches what lies beneath its frame
(`compile_isolates_frames`).
-/

namespace OnePass

variable {m : Machine} {u v : View} {f : Function}

/-! ## Compiled programs are sound -/

section

variable {P : List PoolEntry} {A : Source} {p : Program}

/-- There are as many functions as frames are declared for. -/
theorem Source.Makes.length_frameTypes (h : A.Makes P p) : A.frameTypes.length = p.functions.size := by
  rw [h.size_functions, Source.frameTypes, List.length_cons, Source.length_filterMap_frameType?]

/-- The header of a function is made from the types in its frame. -/
theorem Source.Makes.header_eq (h : A.Makes P p) {k : Nat} (hf : p.functions[k]? = some f) :
    ∃ t, A.frameTypes[k]? = some t ∧ f.header.params = .ofNat t.signature.params.length ∧
      f.header.returns = .ofNat t.signature.returns.slots ∧ f.header.locals = .ofNat t.locals.length ∧ t.signature.IsPlain := by
  cases k with
  | zero =>
    obtain ⟨outputs, N, returns, number, slot, hA, -, rfl⟩ := h.exists_entry hf
    exact ⟨_, rfl, rfl, rfl, rfl, List.forall_mem_nil _, .inl rfl⟩
  | succ k =>
    obtain ⟨pre, d, post, outputs, N, entry, rfl, -, rfl, hd, -⟩ := h.exists_definition hf
    cases hd with
    | @function name params returns body slot items hslot hparams hbody hreturns =>
      refine ⟨_, Source.getElem?_frameTypes pre (.function name params returns body) post rfl, ?_, rfl, ?_, fun τ hτ => ?_,
        returns.isReturned_type⟩
      · rw [List.length_map]
        rfl
      · rw [List.length_map]
        rfl
      · obtain ⟨param, hparam, rfl⟩ := List.mem_map.1 hτ
        exact TypeName.isStored_type (hparams param hparam)

/-- The program of a tree is sound. -/
theorem Source.Makes.exists_sound (h : A.Makes P p) (hsize : A.yield.length < 2 ^ 60) :
    ∃ shape, p.Sound (A.declared p) shape := by
  have hexists (k : Nat) : ∃ shape : Nat → Option Shape, ∀ f, p.functions[k]? = some f → f.Shaped (A.declared p k) shape := by
    cases hf : p.functions[k]? with
    | none => exact ⟨fun _ => none, nofun⟩
    | some f =>
      obtain ⟨shape, hshape⟩ := h.exists_shaped hsize hf
      exact ⟨shape, fun f' hf' => Option.some.inj hf' ▸ hshape⟩
  obtain ⟨shape, hshape⟩ := Classical.axiomOfChoice hexists
  have hglobals : p.globals.size < placeLimit := by
    have := (h.small hsize).pool
    rwa [h.globals, List.size_toArray, List.length_map]
  refine ⟨shape, fun {k f} hf => hshape k f hf, fun {k f} hf => ?_, fun {k f} hf => ?_, fun k => ?_,
    ⟨rfl, ?_⟩, fun {k n s} hs => ?_, fun {k n τ} hτ => ?_, hglobals, fun {k n primitive} hn => ?_⟩
  · have := h.size_code_le hf
    unfold placeLimit
    omega
  · obtain ⟨t, ht, -, -, hlocals, -⟩ := h.header_eq hf
    rw [hlocals, (Source.declared_of_frameType p ht).2]
  · exact beq_iff_eq
  · obtain ⟨f, hf⟩ : ∃ f, p.functions[0]? = some f :=
      ⟨_, Array.getElem?_eq_getElem (by rw [← h.length_frameTypes, Source.frameTypes, List.length_cons]; omega)⟩
    obtain ⟨t, ht, -, -, hlocals, -⟩ := h.header_eq hf
    cases ht
    exact ⟨f, hf, hlocals⟩
  · change (if n = 0 then none else A.frameTypes[n]?.map FrameType.signature) = some s at hs
    split at hs
    · cases hs
    · rename_i hne
      obtain ⟨t, ht, rfl⟩ := Option.map_eq_some_iff.1 hs
      have hlt := (List.getElem?_eq_some_iff.1 ht).1
      rw [h.length_frameTypes] at hlt
      have hf := Array.getElem?_eq_getElem hlt
      obtain ⟨t', ht', hparams, hreturns, -, hplain⟩ := h.header_eq hf
      rw [ht] at ht'
      cases ht'
      exact ⟨hne, (Source.declared_of_frameType p ht).1, hplain, _, hf, hparams, hreturns⟩
  · change (p.globals[n]?.bind fun g => if g.value.isSome then none else A.typeOf? g.name) = some τ at hτ
    obtain ⟨g, hg, -⟩ := Option.bind_eq_some_iff.1 hτ
    exact (Array.getElem?_eq_some_iff.1 hg).1
  · change (p.globals[n]?.bind fun g => g.value.bind Primitive.ofName?) = some primitive at hn
    obtain ⟨g, hg, hvalue⟩ := Option.bind_eq_some_iff.1 hn
    obtain ⟨name, hname, hprimitive⟩ := Option.bind_eq_some_iff.1 hvalue
    exact ⟨g, hg, by rw [hname]; exact hprimitive⟩

end

/-! ## Runs -/

section

variable {p : Program} {D : Nat → Declared} {shape : Nat → Nat → Option Shape}

/-- A sound program starts in a safe view. -/
theorem Program.Sound.start (hp : p.Sound D shape) (input : Bytes) :
    ∃ v, (Machine.start p input).Shows p v ∧ v.Safe p D shape := by
  obtain ⟨harguments, f, hf, hlocals⟩ := hp.entry
  have hzero : f.header.locals.toNat = 0 := by
    rw [hlocals]
    rfl
  refine ⟨_, .start hf hzero input, Array.size_replicate, ?_⟩
  exact ⟨_, _, [], [], [], rfl, rfl, .entry rfl rfl rfl, .nil, (hp.shaped hf).start⟩

/-- How a run of a compiled program may fail. -/
inductive RunError.Permitted (p : Program) : RunError → Prop where
  | stepLimit : Permitted p .stepLimit
  | stackOverflow (function : Nat) (pc : Int) : Permitted p (.fault function pc .stackOverflow)
  | divideByZero (function : Nat) (pc : Int) : Permitted p (.fault function pc .divideByZero)
  /-- A number cannot be read. -/
  | input (function : Nat) (pc : Int) (e : InputError) {primitive : Primitive}
      (h : primitive = .getint ∨ primitive = .getdouble) :
    Permitted p (.fault function pc (.input primitive e))
  /-- A text is to be printed whose global there is not. -/
  | noText (function : Nat) (pc : Int) {index : UInt64} (h : p.globals.size ≤ index.toNat) :
      Permitted p (.fault function pc (.noText index))

/-- A run ended well, or in one of the ways it may. -/
def RunResult.Safe (p : Program) (m : Machine) : RunResult → Prop
  | finished => m.depth = 0
  | failed e => e.Permitted p
  | running => True

theorem View.Moves.frames_ne_nil (h : u.Moves p v) : v.frames ≠ [] := by
  cases h <;> nofun

theorem MachineFault.Expected.permitted {e : MachineFault} (he : e.Expected p D) (hlocals : ∀ k, (D k).locals.length < 2 ^ 32)
    (hm : m.frames ≠ []) : (m.runError e).Permitted p := by
  obtain ⟨frame, F, hframes⟩ := List.exists_cons_of_ne_nil hm
  cases he with
  | noLocal h => exact absurd h (Nat.not_le.2 (hlocals _))
  | stackOverflow =>
    simp only [Machine.runError, hframes]
    exact .stackOverflow ..
  | divideByZero =>
    simp only [Machine.runError, hframes]
    exact .divideByZero ..
  | input h =>
    simp only [Machine.runError, hframes]
    exact .input _ _ _ h
  | noText h =>
    simp only [Machine.runError, hframes]
    exact .noText _ _ h

/-- Running on from a safe view. -/
theorem Program.Sound.run (hp : p.Sound D shape) (hlocals : ∀ k, (D k).locals.length < 2 ^ 32) (limit : Int)
    (budget : Nat) {m : Machine}
    {v : View} (hm : m.Shows p v) (hv : v.Safe p D shape) : (m.run limit budget).1.Safe p (m.run limit budget).2 := by
  induction budget generalizing m v with
  | zero =>
    rw [Machine.run, if_neg (by rw [hm.running]; nofun)]
    trivial
  | succ budget ih =>
    rw [Machine.run, if_neg (by rw [hm.running]; nofun)]
    split
    · exact .stepLimit
    · rcases hp.step hm hv with ⟨hstep, hsp, -⟩ | ⟨r, m', v', hstep, hm', houtcome⟩
      · -- the machine has halted, so nothing is left of the run
        simp only [hstep]
        cases budget <;> exact hsp
      · simp only [hstep]
        cases r with
        | ok a => exact ih (hm'.count _) (houtcome.safe rfl)
        | error e => exact (houtcome.fault rfl).permitted hlocals (hm'.frames ▸ houtcome.moves.frames_ne_nil)

end

theorem Source.length_locals_declared_le (A : Source) (p : Program) (k : Nat) :
    (A.declared p k).locals.length ≤ A.yield.length := by
  cases ht : A.frameTypes[k]? with
  | none =>
    simp only [Source.declared, ht]
    exact Nat.zero_le _
  | some t =>
    rw [(Source.declared_of_frameType p ht).2]
    cases k with
    | zero =>
      cases ht
      exact Nat.zero_le _
    | succ k =>
      rw [Source.frameTypes, List.getElem?_cons_succ] at ht
      obtain ⟨d, hd, hframe⟩ := List.mem_filterMap.1 (List.mem_of_getElem? ht)
      obtain ⟨pre, post, rfl⟩ := List.append_of_mem hd
      cases d with
      | «global» => cases hframe
      | function name params returns body =>
        cases hframe
        have := Definition.length_function_le name params returns body
        simp only [Source.yield_append, Source.yield_cons, List.length_append, List.length_map]
        omega

/-- A compiled program never breaks the machine: however long it runs on whatever input, it can only overflow the stack, divide by
zero, be given no number where it reads one, or print a text that there is not. If it ends, nothing is left on the stack. -/
theorem compile_runs_safely {source : Bytes} {p : Program} (hsize : source.length < 2 ^ 28)
    (h : compile source = .ok p) (input : Bytes) (limit : Int) (budget : Nat) :
    ((Machine.start p input).run limit budget).1.Safe p ((Machine.start p input).run limit budget).2 := by
  obtain ⟨A, hA⟩ := Source.exists_isTreeOf h
  obtain ⟨P, hmakes⟩ := hA.exists_makes h
  have hyield := hA.length_yield_le
  obtain ⟨shape, hsound⟩ := hmakes.exists_sound (by omega)
  obtain ⟨v, hm, hv⟩ := hsound.start input
  refine hsound.run (fun k => ?_) limit budget hm hv
  have := A.length_locals_declared_le p k
  omega

theorem compile_runs_safely_factorials : ∃ p, compile factorials = .ok p ∧ ∀ input limit budget,
    ((Machine.start p input).run limit budget).1.Safe p ((Machine.start p input).run limit budget).2 := by
  obtain ⟨p, hp⟩ := exists_compile_factorials
  exact ⟨p, hp, compile_runs_safely accepts_factorials.1 hp⟩

/-! ## Isolation of frames -/

/-- The machines that can be reached from the start of a program, with any count of steps. -/
inductive Machine.Reachable (p : Program) (input : Bytes) : Machine → Prop where
  | start : Reachable p input (.start p input)
  | step {m m' : Machine} (h : Reachable p input m) (hstep : m.step = (.ok (), m')) (steps : Nat) :
      Reachable p input { m' with steps }

/-- A run that is not over has passed through machines that can be reached. -/
theorem Machine.Reachable.run {p : Program} {input : Bytes} {limit : Int} {budget : Nat} {m m' : Machine}
    (h : m.Reachable p input) (hrun : m.run limit budget = (.running, m')) : m'.Reachable p input := by
  induction budget generalizing m with
  | zero =>
    rw [Machine.run] at hrun
    obtain ⟨-, rfl⟩ := Prod.mk.inj hrun
    exact h
  | succ budget ih =>
    rw [Machine.run] at hrun
    split at hrun
    · cases hrun
    · split at hrun
      · cases hrun
      · split at hrun
        · rename_i a m1 hstep
          exact ih (.step h hstep _) hrun
        · cases hrun

/-- One machine is reached from another while at least so many calls are open. -/
inductive Machine.Inside (depth : Nat) (m : Machine) : Machine → Prop where
  | refl : Inside depth m m
  | step {m' m'' : Machine} (h : Inside depth m m') (hstep : m'.step = (.ok (), m''))
      (hdepth : depth ≤ m''.frames.length) (steps : Nat) :
    Inside depth m { m'' with steps }

/-- A machine in which the call of this frame is open, above these callers, as it was entered from `m0`. -/
structure Machine.Isolates (f : Function) (frame : Frame) (F : List Frame) (m m0 : Machine) : Prop where
  /-- No slot beneath the frame has been written. -/
  below {i : Nat} (hi : i < frame.argBase) : m.stack[i]? = m0.stack[i]?
  /-- The frame is on the stack. -/
  stop : frame.localBase + f.header.locals.toNat ≤ m.sp
  /-- A step, also one that fails, writes no slot beneath the frame. -/
  step_below {r : Except MachineFault Unit} {m' : Machine} (hstep : m.step = (r, m')) {i : Nat} (hi : i < frame.argBase) :
    m'.stack[i]? = m0.stack[i]?
  /-- If the call is open after it, the frame is still on the stack. -/
  step_stop {r : Except MachineFault Unit} {m' : Machine} (hstep : m.step = (r, m')) (hopen : F.length < m'.frames.length) :
    frame.localBase + f.header.locals.toNat ≤ m'.sp
  /-- If not, the result is left of the frame. -/
  step_leaves {r : Except MachineFault Unit} {m' : Machine} (hstep : m.step = (r, m')) (hleft : m'.frames.length ≤ F.length) :
    m'.frames = F ∧ m'.sp = frame.argBase + f.header.returns.toNat
  /-- A return of the call leaves it. -/
  returns {frame' : Frame} {i : Instruction} (hframes : m.frames = frame' :: F) (hi : f.code[frame'.pc]? = some i)
    (hop : i.op = .ret) :
    ∃ m', m.step = (.ok (), m') ∧ m'.frames = F ∧ m'.sp = frame.argBase + f.header.returns.toNat

section

variable {p : Program} {D : Nat → Declared} {shape : Nat → Nat → Option Shape}
variable {frame : Frame} {F : List Frame} {below : List UInt64} {m' : Machine} {input : Bytes} {n : Nat}

/-- A machine at work shows a safe view. -/
def Machine.IsSafe (p : Program) (D : Nat → Declared) (shape : Nat → Nat → Option Shape) (m : Machine) : Prop :=
  m.halted = true ∨ ∃ v, m.Shows p v ∧ v.Safe p D shape

theorem Program.Sound.isSafe_step (hp : p.Sound D shape) (hm : m.IsSafe p D shape) (hstep : m.step = (.ok (), m')) (steps : Nat) :
    Machine.IsSafe p D shape { m' with steps } := by
  rcases hm with hhalted | ⟨v, hm, hv⟩
  · rw [Machine.step, if_pos hhalted] at hstep
    cases hstep
    exact .inl hhalted
  · rcases hp.step hm hv with ⟨hhalt, -, -⟩ | ⟨r, m'', v', hstep', hm', houtcome⟩
    · rw [hhalt] at hstep
      cases hstep
      exact .inl rfl
    · rw [hstep'] at hstep
      cases hstep
      exact .inr ⟨v', hm'.count steps, houtcome.safe rfl⟩

theorem Program.Sound.isSafe_of_reachable (hp : p.Sound D shape) (h : m.Reachable p input) : m.IsSafe p D shape := by
  induction h with
  | start => exact .inr (hp.start input)
  | step h hstep steps ih => exact hp.isSafe_step ih hstep steps

/-- The open calls have their slots on the stack, also in a machine that has halted. -/
theorem Program.Sound.exists_based (hp : p.Sound D shape) (h : m.Reachable p input) :
    ∃ lower, Based p D shape p.globals.size m.frames lower ∧ lower.length ≤ m.sp ∧ m.sp ≤ stackSize := by
  have hshown {m : Machine} {v : View} (hm : m.Shows p v) (hv : v.Safe p D shape) :
      ∃ lower, Based p D shape p.globals.size m.frames lower ∧ lower.length ≤ m.sp ∧ m.sp ≤ stackSize := by
    obtain ⟨-, frame, F, lower, operands, σ, hframes, hslots, hbased, -, -⟩ := hv
    refine ⟨lower, ?_, ?_, ?_⟩
    · rwa [hm.frames, hframes]
    · rw [hm.sp, hslots, List.length_append]
      exact Nat.le_add_right ..
    · rw [hm.sp]
      exact hm.length_le
  induction h with
  | start =>
    obtain ⟨v, hm, hv⟩ := hp.start input
    exact hshown hm hv
  | @step m m' h hstep steps ih =>
    rcases hp.isSafe_of_reachable h with hhalted | ⟨v, hm, hv⟩
    · rw [Machine.step, if_pos hhalted] at hstep
      cases hstep
      exact ih
    · rcases hp.step hm hv with ⟨hhalt, -, -⟩ | ⟨r, m'', v', hstep', hm', houtcome⟩
      · rw [hhalt] at hstep
        cases hstep
        exact ih
      · rw [hstep'] at hstep
        cases hstep
        exact hshown (hm'.count steps) (houtcome.safe rfl)

/-- The call of a function in a frame is open, above these callers: the frames of the calls it has made lie above its own, and
beneath it are these slots. -/
structure View.Above (frame : Frame) (F : List Frame) (f : Function) (below : List UInt64) (v : View) : Prop where
  frames : ∃ more pc, v.frames = more ++ { frame with pc } :: F ∧
    ∀ t ∈ more, frame.localBase + f.header.locals.toNat ≤ t.argBase ∧ t.argBase ≤ t.localBase
  below : v.slots.take frame.argBase = below
  stop : frame.localBase + f.header.locals.toNat ≤ v.slots.length

theorem take_eq_of_le {S S' : List UInt64} {m : Nat} (h : S'.take n = S.take n) (hle : m ≤ n) : S'.take m = S.take m := by
  have := congrArg (List.take m) h
  rwa [List.take_take, List.take_take, Nat.min_eq_left hle] at this

/-- A step inside of a call leaves it open, with all beneath it as it was, or returns from it. -/
theorem View.Moves.above (hf : p.functions[frame.function]? = some f)
    (hargBase : frame.argBase ≤ frame.localBase + f.header.locals.toNat) (h : u.Moves p v) (hu : u.Above frame F f below) :
    v.Above frame F f below ∨
      v.frames = F ∧ v.slots.take frame.argBase = below ∧ v.slots.length = frame.argBase + f.header.returns.toNat := by
  obtain ⟨⟨more, pc, hframes, hmore⟩, hbelow, hstop⟩ := hu
  cases h with
  | @stay G G' S S' top F' C C' g pc' hg hsame hsp =>
    refine .inl ?_
    cases more with
    | nil =>
      obtain ⟨rfl, rfl⟩ := List.cons.inj hframes
      rw [hf] at hg
      cases hg
      exact ⟨⟨[], pc', rfl, nofun⟩, hsame.trans hbelow, hsp⟩
    | cons t more =>
      obtain ⟨rfl, rfl⟩ := List.cons.inj hframes
      obtain ⟨⟨ht, ht'⟩, hmore⟩ := List.forall_mem_cons.1 hmore
      refine ⟨⟨{ top with pc := pc' } :: more, pc, rfl, List.forall_mem_cons.2 ⟨⟨ht, ht'⟩, hmore⟩⟩, ?_, ?_⟩
      · exact (take_eq_of_le hsame (by omega)).trans hbelow
      · change _ ≤ S'.length
        omega
  | @call G S top F' C g g' n hg hg' hargs =>
    refine .inl ?_
    have hS : frame.localBase + f.header.locals.toNat ≤ S.length := hstop
    have hslots : (S ++ List.replicate g'.header.locals.toNat 0).take frame.argBase = below := by
      rw [List.take_append_of_le_length (by omega)]
      exact hbelow
    have hsp : frame.localBase + f.header.locals.toNat ≤ (S ++ List.replicate g'.header.locals.toNat 0).length := by
      rw [List.length_append]
      omega
    cases more with
    | nil =>
      obtain ⟨rfl, rfl⟩ := List.cons.inj hframes
      rw [hf] at hg
      cases hg
      exact ⟨⟨[_], pc + 1, rfl, List.forall_mem_singleton.2 ⟨by simp only at hargs ⊢; omega, Nat.sub_le ..⟩⟩, hslots, hsp⟩
    | cons t more =>
      obtain ⟨rfl, rfl⟩ := List.cons.inj hframes
      obtain ⟨⟨ht, ht'⟩, hmore⟩ := List.forall_mem_cons.1 hmore
      refine ⟨⟨_ :: { top with pc := top.pc + 1 } :: more, pc, rfl, ?_⟩, hslots, hsp⟩
      exact List.forall_mem_cons.2 ⟨⟨by simp only; omega, Nat.sub_le ..⟩, List.forall_mem_cons.2 ⟨⟨ht, ht'⟩, hmore⟩⟩
  | @ret G S top caller F' C g hg hsp =>
    have hlength : (S.take (top.argBase + g.header.returns.toNat)).length = top.argBase + g.header.returns.toNat := by
      rw [List.length_take, Nat.min_eq_left hsp]
    cases more with
    | nil =>
      obtain ⟨rfl, rfl⟩ := List.cons.inj hframes
      rw [hf] at hg
      cases hg
      refine .inr ⟨rfl, ?_, hlength⟩
      rw [List.take_take, Nat.min_eq_left (Nat.le_add_right ..)]
      exact hbelow
    | cons t more =>
      obtain ⟨rfl, hcallers⟩ := List.cons.inj hframes
      obtain ⟨⟨ht, ht'⟩, hmore⟩ := List.forall_mem_cons.1 hmore
      refine .inl ⟨⟨more, pc, hcallers, hmore⟩, ?_, ?_⟩
      · rw [List.take_take, Nat.min_eq_left (by omega)]
        exact hbelow
      · change _ ≤ (S.take (top.argBase + g.header.returns.toNat)).length
        omega

/-- A return leaves the innermost call. -/
theorem Machine.step_ret {i : Instruction} (hrunning : m.halted = false) (hframes : m.frames = frame :: F)
    (hf : m.program.functions[frame.function]? = some f) (hi : f.code[frame.pc]? = some i) (hop : i.op = .ret) :
    ∃ m', m.step = (.ok (), m') ∧ m'.frames = F := by
  unfold Machine.step
  rw [if_neg (by rw [hrunning]; nofun), hframes]
  change ∃ m', (Exec.advance frame).run m = _ ∧ _
  rw [Exec.advance, Exec.run_get_bind]
  simp only [hf, hi]
  unfold Exec.execute Exec.leave Exec.jump
  simp only [hop]
  exact ⟨_, rfl, by simp [hframes]⟩

/-- The slots in use beneath a frame, as the stack of the machine has them. -/
theorem Machine.Shows.getElem?_stack (h : m.Shows p v) {i : Nat} (hn : n ≤ v.slots.length) (hi : i < n) :
    m.stack[i]? = (v.slots.take n)[i]? := by
  have hsize : i < stackSize := Nat.lt_of_lt_of_le (Nat.lt_of_lt_of_le hi hn) h.length_le
  rw [List.getElem?_take_of_lt hi, Vector.getElem?_eq_getElem hsize, List.getElem?_eq_getElem (by omega),
    h.getElem_stack (by omega) hsize]

theorem View.Above.length_frames (h : v.Above frame F f below) : F.length < v.frames.length := by
  obtain ⟨more, pc, hframes, -⟩ := h.frames
  rw [hframes, List.length_append, List.length_cons]
  omega

/-- Where the callers of a call are just these, it is the innermost one. -/
theorem View.Above.head_eq {frame' : Frame} (h : v.Above frame F f below) (hframes : v.frames = frame' :: F) :
    frame'.function = frame.function := by
  obtain ⟨more, pc, hmore, -⟩ := h.frames
  rw [hframes] at hmore
  have hlength := congrArg List.length hmore
  rw [List.length_append, List.length_cons, List.length_cons] at hlength
  obtain rfl := List.length_eq_zero_iff.1 (show more.length = 0 by omega)
  rw [(List.cons.inj hmore).1]

variable (hp : p.Sound D shape) (hf : p.functions[frame.function]? = some f)
  (hargBase : frame.argBase ≤ frame.localBase + f.header.locals.toNat) (hF : F ≠ [])

include hp hf hargBase hF

/-- A step while a call is open, also one that fails. -/
theorem Program.Sound.step_of_above {r : Except MachineFault Unit} (hm : m.Shows p v)
    (hv : v.Safe p D shape) (habove : v.Above frame F f below) (hstep : m.step = (r, m')) :
    ∃ v', m'.Shows p v' ∧ (r = .ok () → v'.Safe p D shape) ∧ (v'.Above frame F f below ∨
      v'.frames = F ∧ v'.slots.take frame.argBase = below ∧ v'.slots.length = frame.argBase + f.header.returns.toNat) := by
  rcases hp.step hm hv with ⟨-, -, hone⟩ | ⟨r', m1, v', hstep', hm', houtcome⟩
  · -- the entry routine is not alone
    obtain ⟨more, pc, hframes, -⟩ := habove.frames
    rw [hm.frames, hframes, List.length_append, List.length_cons] at hone
    have := List.length_pos_iff.2 hF
    omega
  · rw [hstep'] at hstep
    cases hstep
    exact ⟨v', hm', houtcome.safe, houtcome.moves.above hf hargBase habove⟩

/-- While a call is open, the machine shows a safe view in which it is. -/
theorem Program.Sound.above_of_inside (hm : m.Shows p v) (hv : v.Safe p D shape)
    (habove : v.Above frame F f below) (h : m.Inside (F.length + 1) m') :
    ∃ v', m'.Shows p v' ∧ v'.Safe p D shape ∧ v'.Above frame F f below := by
  induction h with
  | refl => exact ⟨v, hm, hv, habove⟩
  | @step m' m'' h hstep hdepth steps ih =>
    obtain ⟨v', hm', hv', habove'⟩ := ih
    obtain ⟨v'', hm'', hv'', habove'' | ⟨hframes, -, -⟩⟩ := hp.step_of_above hf hargBase hF hm' hv' habove' hstep
    · exact ⟨v'', hm''.count steps, hv'' rfl, habove''⟩
    · rw [hm''.frames, hframes] at hdepth
      omega

/-- A call that is open is isolated. -/
theorem Program.Sound.isolates {m0 : Machine} (hm : m.Shows p v)
    (hv : v.Safe p D shape) (habove : v.Above frame F f below)
    (hbelow : ∀ {i : Nat}, i < frame.argBase → m0.stack[i]? = below[i]?) : m.Isolates f frame F m0 := by
  have hslots {m' : Machine} {v' : View} (hm' : m'.Shows p v') (hle : frame.argBase ≤ v'.slots.length)
      (htake : v'.slots.take frame.argBase = below) {i : Nat} (hi : i < frame.argBase) : m'.stack[i]? = m0.stack[i]? := by
    rw [hm'.getElem?_stack hle hi, htake, hbelow hi]
  have hleaves {r : Except MachineFault Unit} {m' : Machine} (hstep : m.step = (r, m')) (hleft : m'.frames.length ≤ F.length) :
      m'.frames = F ∧ m'.sp = frame.argBase + f.header.returns.toNat := by
    obtain ⟨v', hm', -, habove' | ⟨hframes, -, hlength⟩⟩ := hp.step_of_above hf hargBase hF hm hv habove hstep
    · have := habove'.length_frames
      rw [hm'.frames] at hleft
      omega
    · exact ⟨hm'.frames.trans hframes, hm'.sp.trans hlength⟩
  refine ⟨fun hi => ?_, hm.sp ▸ habove.stop, fun {r m'} hstep {i} hi => ?_, fun {r m'} hstep hopen => ?_, hleaves,
    fun {frame' i} hframes hi hop => ?_⟩
  · exact hslots hm (Nat.le_trans hargBase habove.stop) habove.below hi
  · obtain ⟨v', hm', -, habove' | ⟨-, htake, hlength⟩⟩ := hp.step_of_above hf hargBase hF hm hv habove hstep
    · exact hslots hm' (Nat.le_trans hargBase habove'.stop) habove'.below hi
    · exact hslots hm' (by omega) htake hi
  · obtain ⟨v', hm', -, habove' | ⟨hframes, -, -⟩⟩ := hp.step_of_above hf hargBase hF hm hv habove hstep
    · exact hm'.sp ▸ habove'.stop
    · rw [hm'.frames, hframes] at hopen
      exact absurd hopen (Nat.lt_irrefl _)
  · have hfunction := habove.head_eq (hm.frames ▸ hframes)
    obtain ⟨m', hstep, hframes'⟩ := Machine.step_ret hm.running hframes (by rw [hm.program, hfunction, hf]) hi hop
    exact ⟨m', hstep, hleaves hstep (Nat.le_of_eq (congrArg List.length hframes'))⟩

end

/-- A call in a compiled program is isolated. It finds its arguments and the slots for its result on top of the stack of its
caller. As long as it is open, nothing beneath them is written and its frame stays on the stack, and it is left by its own return
only, when just the slots of its result are left of what it was called with. -/
theorem compile_isolates_frames {source : Bytes} {p : Program} (hsize : source.length < 2 ^ 60)
    (h : compile source = .ok p) {input : Bytes}
    {m0 m : Machine} {frame : Frame} {F : List Frame} (hreachable : m0.Reachable p input) (hcall : m0.step = (.ok (), m))
    (hframes : m.frames = frame :: F) (hdeeper : F.length = m0.frames.length) :
    ∃ caller callers f, m0.frames = caller :: callers ∧ F = { caller with pc := caller.pc + 1 } :: callers ∧
      p.functions[frame.function]? = some f ∧ frame.argBase + (f.header.params.toNat + f.header.returns.toNat) = m0.sp ∧
      frame.localBase = m0.sp ∧ ∀ m', m.Inside m.frames.length m' → m'.Isolates f frame F m0 := by
  obtain ⟨A, hA⟩ := Source.exists_isTreeOf h
  obtain ⟨P, hmakes⟩ := hA.exists_makes h
  obtain ⟨shape, hsound⟩ := hmakes.exists_sound (Nat.lt_of_le_of_lt hA.length_yield_le hsize)
  rcases hsound.isSafe_of_reachable hreachable with hhalted | ⟨v0, hm0, hv0⟩
  · rw [Machine.step, if_pos hhalted] at hcall
    cases hcall
    rw [hframes, List.length_cons] at hdeeper
    omega
  rcases hsound.step hm0 hv0 with ⟨hhalt, -, -⟩ | ⟨r, m1, v, hstep, hm, houtcome⟩
  · rw [hhalt] at hcall
    cases hcall
    rw [show m0.frames = frame :: F from hframes, List.length_cons] at hdeeper
    omega
  rw [hstep] at hcall
  cases hcall
  have hv := houtcome.safe rfl
  rw [hframes, List.length_cons]
  rw [hm.frames] at hframes
  rw [hm0.frames] at hdeeper
  -- there is only one step that opens a call
  cases houtcome.moves with
  | stay =>
    cases hframes
    exact absurd hdeeper (Nat.ne_of_lt (Nat.lt_succ_self _))
  | ret =>
    cases hframes
    simp only [List.length_cons] at hdeeper
    omega
  | @call G S caller callers C f g n hf hg hargs =>
    obtain ⟨rfl, rfl⟩ := List.cons.inj hframes
    have hsp0 : m0.sp = S.length := hm0.sp
    have hle : S.length - (g.header.params.toNat + g.header.returns.toNat) ≤ S.length := Nat.sub_le ..
    refine ⟨caller, callers, g, hm0.frames, rfl, hg, by simp only; omega, hsp0.symm, fun m' hinside => ?_⟩
    have habove : View.Above
        { function := n, argBase := S.length - (g.header.params.toNat + g.header.returns.toNat), localBase := S.length }
        ({ caller with pc := caller.pc + 1 } :: callers) g
        (S.take (S.length - (g.header.params.toNat + g.header.returns.toNat)))
          ⟨G, S ++ List.replicate g.header.locals.toNat 0, _, C⟩ :=
      ⟨⟨[], 0, rfl, nofun⟩, List.take_append_of_le_length hle, by simp⟩
    have hbase := Nat.le_trans hle (Nat.le_add_right S.length g.header.locals.toNat)
    obtain ⟨v', hm', hv', habove'⟩ := hsound.above_of_inside hg hbase (List.cons_ne_nil _ _) hm hv habove hinside
    exact hsound.isolates hg hbase (List.cons_ne_nil _ _) hm' hv' habove' (fun hi => hm0.getElem?_stack hle hi)

/-- After 31 steps the function of the example calls itself. -/
theorem exists_call_factorials : ∃ (p : Program) (m0 m : Machine) (frame : Frame) (F : List Frame),
    compile factorials = .ok p ∧ m0.Reachable p [] ∧ m0.step = (.ok (), m) ∧ m.frames = frame :: F ∧
      F.length = m0.frames.length := by
  have hdeeper : (compile factorials).toOption.any (fun p =>
      ((Machine.start p []).run 0 31).1 == .running && ((Machine.start p []).run 0 31).2.step.1.isOk &&
        ((Machine.start p []).run 0 31).2.step.2.frames.length == ((Machine.start p []).run 0 31).2.frames.length + 1) =
          true := by
    decide +kernel
  obtain ⟨p, hp⟩ := exists_compile_factorials
  rw [hp] at hdeeper
  simp only [Except.toOption, Option.any_some, Bool.and_eq_true, beq_iff_eq] at hdeeper
  obtain ⟨⟨hrunning, hok⟩, hlength⟩ := hdeeper
  rcases hrun : (Machine.start p []).run 0 31 with ⟨r, m0⟩
  rcases hstep : m0.step with ⟨e | ⟨⟩, m⟩
  · simp [hrun, hstep, Except.isOk, Except.toBool] at hok
  · simp only [hrun] at hrunning hlength
    subst hrunning
    simp only [hstep] at hlength
    obtain ⟨frame, F, hframes⟩ := List.exists_cons_of_length_eq_add_one hlength
    refine ⟨p, m0, m, frame, F, hp, Machine.Reachable.start.run hrun, hstep, hframes, ?_⟩
    rw [hframes, List.length_cons] at hlength
    omega

theorem compile_isolates_frames_factorials : ∃ (p : Program) (m0 m : Machine) (frame : Frame) (F : List Frame),
    compile factorials = .ok p ∧ m0.Reachable p [] ∧ m0.step = (.ok (), m) ∧ m.frames = frame :: F ∧ F.length = m0.frames.length ∧
    ∃ caller callers f, m0.frames = caller :: callers ∧ F = { caller with pc := caller.pc + 1 } :: callers ∧
      p.functions[frame.function]? = some f ∧ frame.argBase + (f.header.params.toNat + f.header.returns.toNat) = m0.sp ∧
      frame.localBase = m0.sp ∧ ∀ m', m.Inside m.frames.length m' → m'.Isolates f frame F m0 := by
  obtain ⟨p, m0, m, frame, F, hp, hreachable, hcall, hframes, hdeeper⟩ := exists_call_factorials
  exact ⟨p, m0, m, frame, F, hp, hreachable, hcall, hframes, hdeeper,
    compile_isolates_frames (Nat.lt_trans accepts_factorials.1 (by decide)) hp hreachable hcall hframes hdeeper⟩

end OnePass

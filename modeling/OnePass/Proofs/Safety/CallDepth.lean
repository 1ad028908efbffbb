import OnePass.Proofs.Safety.Run

/-!
# How deep calls go

Nothing but the stack bounds the number of open calls. A call of a function with a result, arguments or variables takes slots of
it, so there are never more such calls than the stack has slots, and one call more overflows it (`compile_bounds_calls`). A call
of a function with none of these takes nothing: a program can open such calls for ever (`runaway_unbounded`).
-/

namespace OnePass

variable {f : Function}

/-- The function has a result, parameters or variables. -/
def Function.ownsSlots (f : Function) : Bool := f.header.returns ≠ 0 || f.header.params ≠ 0 || f.header.locals ≠ 0

theorem Function.header_of_ownsSlots_eq_false (h : f.ownsSlots = false) :
    f.header.params.toNat = 0 ∧ f.header.returns.toNat = 0 ∧ f.header.locals.toNat = 0 := by
  simp only [ownsSlots, ne_eq, decide_not, Bool.or_eq_false_iff, Bool.not_eq_false', decide_eq_true_eq] at h
  obtain ⟨⟨hreturns, hparams⟩, hlocals⟩ := h
  rw [hparams, hreturns, hlocals]
  exact ⟨rfl, rfl, rfl⟩

/-- The frame is that of a call of such a function. -/
def Program.ownsSlots (p : Program) (frame : Frame) : Bool := p.functions[frame.function]?.any Function.ownsSlots

/-- A call of this function: it is opened if its variables have room on the stack, and otherwise the stack overflows. -/
inductive Machine.Calls (m : Machine) (n : Nat) (g : Function) : Prop where
  | opens {m' : Machine} {frame : Frame} {F : List Frame} (hroom : m.sp + g.header.locals.toNat ≤ stackSize)
    (hstep : m.step = (.ok (), m')) (hframes : m'.frames = frame :: F) (hfunction : frame.function = n)
    (hdeeper : F.length = m.frames.length)
  | overflows {m' : Machine} (hfull : stackSize < m.sp + g.header.locals.toNat) (hstep : m.step = (.error .stackOverflow, m'))

section

variable {p : Program} {D : Nat → Declared} {shape : Nat → Nat → Option Shape}
variable {F : List Frame} {i : Instruction} {m : Machine} {v : View} {frame : Frame}

/-- A function that owns slots has arguments or cells, by its signature. -/
theorem Program.Sound.arguments_of_ownsSlots (hp : p.Sound D shape) {k n : Nat} {s : Signature} (hs : (D k).callee n = some s)
    (hf : p.functions[n]? = some f) (h : f.ownsSlots = true) : 0 < s.arguments.length + f.header.locals.toNat := by
  obtain ⟨-, -, hplain, f', hf', hparams, hreturns⟩ := hp.callee hs
  rw [hf'] at hf
  cases hf
  rw [hplain.length_arguments]
  by_contra hnone
  have hzero : s.params.length = 0 ∧ s.returns.slots = 0 ∧ f.header.locals.toNat = 0 := by omega
  have hlocals : f.header.locals = 0 := UInt32.toNat_inj.1 hzero.2.2
  rw [hzero.1] at hparams
  rw [hzero.2.1] at hreturns
  rw [Function.ownsSlots, hparams, hreturns, hlocals] at h
  cases h

/-- Each open call that owns slots has one beneath the operands of the innermost call. -/
theorem Based.countP_ownsSlots_le (hp : p.Sound D shape) (hentry : p.functions[0]?.any Function.ownsSlots = false) {globals : Nat}
    {lower : List UInt64} (h : Based p D shape globals F lower) : F.countP p.ownsSlots ≤ lower.length := by
  induction h with
  | entry hfunction hargBase hlocalBase =>
    rw [List.countP_singleton, if_neg]
    · exact Nat.zero_le _
    · rw [Program.ownsSlots, hfunction, hentry]
      nofun
  | @call frame caller F lower operands args cells rest s k f hlower hoperands hreturn hs hf hargBase
      hargs hlocalBase hcells ih =>
    rw [List.countP_cons]
    simp only [List.length_append]
    split
    · rename_i howns
      rw [Program.ownsSlots, hf] at howns
      have := hp.arguments_of_ownsSlots hs hf howns
      omega
    · omega

theorem Instruction.Acts.exists_callee {D : Declared} {takes gives : Shape} (h : i.Acts D takes gives) (hop : i.op = .call) :
    ∃ (n : Nat) (s : Signature), i.operand.toInt = n ∧ D.callee n = some s ∧ takes = s.takes := by
  cases h with
  | call _ hn hs => exact ⟨_, _, hn, hs, rfl⟩
  | fixed heffect =>
    rw [hop] at heffect
    cases heffect
  | _ => simp_all

variable (hp : p.Sound D shape) (hm : m.Shows p v) (hv : v.Safe p D shape) (hframes : m.frames = frame :: F)
  (hf : p.functions[frame.function]? = some f) (hi : f.code[frame.pc]? = some i) (hop : i.op = .call)

include hp hm hv hframes hf hi hop

/-- A call instruction names a function, whose arguments stand above the frame of the caller. -/
theorem Program.Sound.call_slots :
    ∃ (n : Nat) (g : Function), i.operand.toInt = n ∧ p.functions[n]? = some g ∧
      frame.localBase + f.header.locals.toNat + (g.header.params.toNat + g.header.returns.toNat) ≤ m.sp := by
  obtain ⟨G, S, frames, C⟩ := v
  obtain ⟨-, frame', F', lower, operands, σ, hframes', hslots, hbased, hoperands, hσ⟩ := hv
  obtain rfl : S = lower ++ operands := hslots
  cases hframes'
  cases hm.frames.symm.trans hframes
  obtain ⟨takes, gives, rest, rfl, hsteps⟩ := (hp.shaped hf).suits hi _ hσ
  obtain ⟨n, s, hn, hs, rfl⟩ := hsteps.acts.exists_callee hop
  obtain ⟨-, -, hplain, g, hg, -, -⟩ := hp.callee hs
  obtain ⟨base, top, rfl, -, htop⟩ := hoperands.split
  obtain ⟨before, args, rfl, hbefore, hargs⟩ := Executing.split_takes hplain htop
  have hlength := hm.length_le
  have hsp : m.sp = (lower ++ (base ++ (before ++ args))).length := hm.sp
  have harguments := hplain.length_arguments
  have hlower := hbased.length_eq hp hf
  simp only [List.length_append] at hlength hsp
  obtain ⟨hparams, hreturns, -⟩ := hp.header_eq hs hg (by omega)
  exact ⟨n, g, hn, hg, by omega⟩

/-- It opens a call of that function, or overflows the stack. -/
theorem Program.Sound.step_call : ∃ (n : Nat) (g : Function), i.operand.toInt = n ∧ p.functions[n]? = some g ∧ m.Calls n g := by
  obtain ⟨n, g, hn, hg, hslots⟩ := hp.call_slots hm hv hframes hf hi hop
  obtain ⟨G, S, frames, C⟩ := v
  obtain rfl : frames = frame :: F := hm.frames.symm.trans hframes
  have hsp : m.sp = S.length := hm.sp
  refine ⟨n, g, hn, hg, ?_⟩
  rcases Nat.lt_or_ge stackSize (m.sp + g.header.locals.toNat) with hfull | hroom
  · have henter := Exec.Leads.enter_error (G := G) (F := frame.next :: F) (C := C) (S := S) hg (by omega)
      hm.length_le (by rwa [← hsp])
    obtain ⟨m', hstep, -⟩ := hm.step hf hi (.execute_call hop hn henter)
    exact .overflows hfull hstep
  · have henter := Exec.Leads.enter (G := G) (F := frame.next :: F) (C := C) (S := S) hg (by omega) (by rwa [← hsp])
    obtain ⟨m', hstep, hm'⟩ := hm.step hf hi (.execute_call hop hn henter)
    exact .opens hroom hstep hm'.frames rfl (by rw [hm.frames]; rfl)

end

/-- The entry routine owns no slots. -/
theorem Source.Makes.entry_ownsSlots {P : List PoolEntry} {A : Source} {p : Program} (h : A.Makes P p) :
    p.functions[0]?.any Function.ownsSlots = false := by
  cases hf : p.functions[0]? with
  | none => rfl
  | some f =>
    obtain ⟨t, ht, hparams, hreturns, hlocals, -⟩ := h.header_eq hf
    cases ht
    rw [Option.any_some, Function.ownsSlots, hparams, hreturns, hlocals]
    rfl

/-- Open calls that own slots have them on the stack, so only calls that own none are not bounded by it. -/
structure Machine.BoundsCalls (p : Program) (m : Machine) : Prop where
  slots : m.frames.countP p.ownsSlots ≤ m.sp
  stack : m.sp ≤ stackSize
  frames : m.frames.length ≤ stackSize + m.frames.countP (fun frame => !p.ownsSlots frame)
  /-- A call is opened if there is room on the stack, and overflows it if there is none. -/
  call {frame : Frame} {F : List Frame} {f : Function} {i : Instruction} (hrunning : m.halted = false)
    (hframes : m.frames = frame :: F)
    (hf : p.functions[frame.function]? = some f) (hi : f.code[frame.pc]? = some i) (hop : i.op = .call) :
    ∃ (n : Nat) (g : Function), i.operand.toInt = n ∧ p.functions[n]? = some g ∧ m.Calls n g

/-- Whatever a compiled program is fed and however long it runs, the stack bounds its open calls, but for those of functions that
have no result, no parameters and no variables. (No text of `2 ^ 60` bytes fits into memory.) -/
theorem compile_bounds_calls {source : Bytes} {p : Program} (hsize : source.length < 2 ^ 60)
    (h : compile source = .ok p) {input : Bytes} {m : Machine} (hm : m.Reachable p input) : m.BoundsCalls p := by
  obtain ⟨A, hA⟩ := Source.exists_isTreeOf h
  obtain ⟨P, hmakes⟩ := hA.exists_makes h
  obtain ⟨shape, hsound⟩ := hmakes.exists_sound (Nat.lt_of_le_of_lt hA.length_yield_le hsize)
  obtain ⟨lower, hbased, hlower, hsp⟩ := hsound.exists_based hm
  have hcount := Nat.le_trans (hbased.countP_ownsSlots_le hsound hmakes.entry_ownsSlots) hlower
  refine ⟨hcount, hsp, ?_, fun {frame F f i} hrunning hframes hf hi hop => ?_⟩
  · have hsplit := List.length_eq_countP_add_countP p.ownsSlots (l := m.frames)
    simp only [Bool.not_eq_true, Bool.decide_eq_false] at hsplit
    omega
  · rcases hsound.isSafe_of_reachable hm with hhalted | ⟨v, hshows, hv⟩
    · rw [hrunning] at hhalted
      cases hhalted
    · exact hsound.step_call hshows hv hframes hf hi hop

theorem compile_bounds_calls_factorials : ∃ (p : Program) (m m' : Machine), compile factorials = .ok p ∧ m.Reachable p [] ∧
    m.step = (.ok (), m') ∧ m'.frames.length = m.frames.length + 1 ∧ m.BoundsCalls p := by
  obtain ⟨p, m, m', frame, F, hp, hm, hstep, hframes, hdeeper⟩ := exists_call_factorials
  refine ⟨p, m, m', hp, hm, hstep, ?_, compile_bounds_calls (Nat.lt_trans accepts_factorials.1 (by decide)) hp hm⟩
  rw [hframes, List.length_cons, hdeeper]

/-! ## Calls for ever -/

/-- A function that takes no slots and calls itself. -/
def runaway : Bytes := Bytes.ofString "fn main() -> void \x7b main(); \x7d"

/-- A function that owns no slots and, as its second instruction, calls function 1. -/
def Function.goesOn (f : Function) : Bool :=
  !f.ownsSlots && f.code[0]? == some ⟨.stackAlloc, 0, none⟩ && f.code[1]? == some ⟨.call, 1, none⟩

/-- So do both the entry routine and the only other function. -/
theorem exists_compile_runaway :
    ∃ p f0 f1, compile runaway = .ok p ∧ p.functions[0]? = some f0 ∧ f0.goesOn = true ∧ p.functions[1]? =
      some f1 ∧ f1.goesOn = true := by
  have hcode : (compile runaway).toOption.any
      (fun p => p.functions[0]?.any Function.goesOn && p.functions[1]?.any Function.goesOn) = true := by
    decide +kernel
  rcases hp : compile runaway with e | p
  · rw [hp] at hcode
    cases hcode
  · rw [hp] at hcode
    simp only [Except.toOption, Option.any_some, Bool.and_eq_true, Option.any_eq_true] at hcode
    obtain ⟨⟨f0, hf0, h0⟩, f1, hf1, h1⟩ := hcode
    exact ⟨p, f0, f1, rfl, hf0, h0, hf1, h1⟩

section

variable {p : Program} {G : Array UInt64} {F : List Frame} {C : Console} {k : Nat} {f f1 : Function}

/-- With nothing on the stack, such a function opens a call of function 1, with nothing on the stack. -/
theorem Machine.Reachable.goesOn {input : Bytes} {m : Machine} (hreachable : m.Reachable p input) (hf : p.functions[k]? = some f)
    (hgoes : f.goesOn = true) (hf1 : p.functions[1]? = some f1) (hgoes1 : f1.goesOn = true)
    (hm : m.Shows p ⟨G, [], { function := k } :: F, C⟩) :
    ∃ m' : Machine, m'.Reachable p input ∧ m'.Shows p ⟨G, [], { function := 1 } :: { function := k, pc := 2 } :: F, C⟩ := by
  simp only [Function.goesOn, Bool.and_eq_true, Bool.not_eq_true', beq_iff_eq] at hgoes hgoes1
  have hheader := Function.header_of_ownsSlots_eq_false hgoes1.1.1
  obtain ⟨m1, hstep1, hm1⟩ := hm.step hf hgoes.1.2 ((Exec.Leads.pushes_execute_stackAlloc (n := 0) rfl rfl).ok (by decide))
  have henter := Exec.Leads.enter (G := G) (F := { function := k, pc := 2 } :: F) (C := C) hf1 (S := [])
    (by rw [hheader.1, hheader.2.1]; rfl) (by rw [hheader.2.2]; decide)
  rw [hheader.1, hheader.2.1, hheader.2.2] at henter
  obtain ⟨m2, hstep2, hm2⟩ := hm1.step hf hgoes.2 (.execute_call rfl rfl henter)
  exact ⟨_, .step (.step hreachable hstep1 m1.steps) hstep2 m2.steps, hm2⟩

end

/-- The example opens calls without end: it never overflows the stack, of which it uses nothing. -/
theorem runaway_unbounded : ∃ p, compile runaway = .ok p ∧ ∀ n, ∃ m : Machine, m.Reachable p [] ∧
    m.sp = 0 ∧ n < m.frames.length := by
  obtain ⟨p, f0, f1, hp, hf0, h0, hf1, h1⟩ := exists_compile_runaway
  refine ⟨p, hp, fun n => ?_⟩
  have hdeep : ∃ (m : Machine) (F : List Frame), m.Reachable p [] ∧
    m.Shows p ⟨Array.replicate p.globals.size 0, [], { function := 1 } :: F, { input := [] }⟩ ∧
      n ≤ F.length := by
    induction n with
    | zero =>
      have howns : f0.ownsSlots = false := by
        simp only [Function.goesOn, Bool.and_eq_true, Bool.not_eq_true'] at h0
        exact h0.1.1
      obtain ⟨-, -, hlocals⟩ := Function.header_of_ownsSlots_eq_false howns
      obtain ⟨m, hreachable, hm⟩ := Machine.Reachable.start.goesOn hf0 h0 hf1 h1 (.start hf0 hlocals [])
      exact ⟨m, _, hreachable, hm, Nat.zero_le _⟩
    | succ n ih =>
      obtain ⟨m, F, hreachable, hm, hn⟩ := ih
      obtain ⟨m', hreachable', hm'⟩ := hreachable.goesOn hf1 h1 hf1 h1 hm
      exact ⟨m', _, hreachable', hm', Nat.succ_le_succ hn⟩
  obtain ⟨m, F, hreachable, hm, hn⟩ := hdeep
  refine ⟨m, hreachable, hm.sp, ?_⟩
  rw [hm.frames]
  exact Nat.lt_succ_of_le hn

end OnePass

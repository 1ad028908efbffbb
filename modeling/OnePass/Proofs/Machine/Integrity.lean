import OnePass.Proofs.Machine.Laws

/-!
# Machines stay whole

What holds of a machine whatever program it runs, also one that no compiler has made: while it is at work there is a call, every
call stands at a place of a function of the program, and its arguments begin no later than its locals (`Machine.whole_of_visits`).
The stack pointer stays within the stack, and so the machine never breaks down, unless the entry routine starts out beyond the end
of the stack. An instruction that fails keeps all this too, so that the machine may be stepped on.
-/

namespace OnePass

variable {e : MachineFault} {p : Program} {m : Machine}

/-- The number of locals of the entry routine. -/
def Program.entryLocals (p : Program) : Nat := (p.functions[0]?.map fun f => f.header.locals.toNat).getD 0

/-- The stack pointer never gets beyond this: the end of the stack, or where the entry routine starts out. -/
def Program.reach (p : Program) : Nat := max stackSize p.entryLocals

/-- The call is one of a function of the program, and stands at a place of its code or at the end of it. -/
def Frame.Stands (p : Program) (frame : Frame) : Prop :=
  ∃ f, p.functions[frame.function]? = some f ∧ frame.pc ≤ f.code.size ∧ frame.argBase ≤ frame.localBase

/-- Open calls, the innermost first. Each of them but the outermost leaves the stack pointer within reach when it returns. -/
inductive Calls (p : Program) : List Frame → Prop where
  | entry {frame : Frame} (hframe : frame.Stands p) : Calls p [frame]
  | call {frame : Frame} {F : List Frame} (hframe : frame.Stands p) (hF : Calls p F)
    (hreturns : ∀ {f : Function}, p.functions[frame.function]? = some f → frame.argBase + f.header.returns.toNat ≤ p.reach) :
    Calls p (frame :: F)

namespace Calls

variable {p : Program} {frame : Frame} {F : List Frame}

theorem ne_nil (h : Calls p F) : F ≠ [] := by
  cases h <;> nofun

theorem stands (h : Calls p F) : ∀ frame ∈ F, frame.Stands p := by
  induction h with
  | entry hframe => exact List.forall_mem_singleton.2 hframe
  | call hframe hF hreturns ih => exact List.forall_mem_cons.2 ⟨hframe, ih⟩

/-- The innermost call may go on at any place of its function. -/
theorem jump {f : Function} {pc : Nat} (h : Calls p (frame :: F)) (hf : p.functions[frame.function]? = some f)
    (hpc : pc ≤ f.code.size) :
    Calls p ({ frame with pc } :: F) := by
  have hstands {frame : Frame} (hframe : frame.Stands p) (hf : p.functions[frame.function]? = some f) :
      Frame.Stands p { frame with pc } := by
    obtain ⟨-, -, -, hbase⟩ := hframe
    exact ⟨f, hf, hpc, hbase⟩
  cases h with
  | entry hframe => exact .entry (hstands hframe hf)
  | call hframe hF hreturns => exact .call (hstands hframe hf) hF hreturns

end Calls

/-- A machine at work on a program, with these calls. -/
structure Machine.At (p : Program) (F : List Frame) (m : Machine) : Prop where
  program : m.program = p
  running : m.halted = false
  frames : m.frames = F
  sp : m.sp ≤ p.reach

/-- A machine on a program, which is whole if it is at work. -/
structure Machine.Intact (p : Program) (m : Machine) : Prop where
  program : m.program = p
  calls (h : m.halted = false) : Calls p m.frames
  sp (h : m.halted = false) : m.sp ≤ p.reach

theorem Machine.Intact.lower {sp : Nat} (h : m.Intact p) (hsp : sp ≤ m.sp) : Machine.Intact p { m with sp } :=
  ⟨h.program, h.calls, fun hrunning => Nat.le_trans hsp (h.sp hrunning)⟩

theorem Machine.At.intact {F : List Frame} (h : m.At p F) (hF : Calls p F) : m.Intact p :=
  ⟨h.program, fun _ => h.frames ▸ hF, fun _ => h.sp⟩

namespace Exec

variable {α β : Type} {p : Program} {I J I' J' : Machine → Prop} {F : List Frame}

/-- A part of a step ends in a machine of one sort, or it fails and leaves one of another. It breaks the machine down only if the
stack pointer may get beyond the stack. -/
def Ends (p : Program) (I J : Machine → Prop) : Except MachineFault α × Machine → Prop
  | (.ok _, m) => J m
  | (.error e, m) => I m ∧ (e = .beyondStack → stackSize < p.reach)

theorem Ends.mono {r : Except MachineFault α × Machine} (h : Ends p I J r) (hI : ∀ m, I m → I' m) (hJ : ∀ m, J m → J' m) :
    Ends p I' J' r := by
  rcases r with ⟨e | a, m⟩
  · exact ⟨hI m h.1, h.2⟩
  · exact hJ m h

/-- The part of a step leads from machines of one sort to those of another; if it fails, the machine stays of its sort. -/
def Keeps (p : Program) (I J : Machine → Prop) (x : Exec α) : Prop := ∀ m, I m → Ends p I J (x.run m)

/-- The part of a step leaves a machine at work, with the same calls. -/
abbrev Stays (p : Program) (F : List Frame) (x : Exec α) : Prop := Keeps p (Machine.At p F) (Machine.At p F) x

namespace Keeps

variable {x : Exec α} {c : Prop}

/-! ## Parts of a step, one after another -/

theorem pure (a : α) : Keeps p I I (pure a) := fun _ h => h

theorem throw (he : e ≠ .beyondStack) : Keeps p I J (throw e : Exec α) := fun _ h => ⟨h, fun heq => absurd heq he⟩

theorem bind {f : α → Exec β} (hx : Keeps p I I x) (hf : ∀ a, Keeps p I J (f a)) : Keeps p I J (x >>= f) := by
  intro m h
  have hends := hx m h
  rw [run_bind]
  revert hends
  rcases x.run m with ⟨e | a, m'⟩
  · exact fun hends => hends
  · exact fun hI => hf a m' hI

/-- A look at the machine. -/
theorem get_bind {f : Machine → Exec β} (hf : ∀ m, I m → Ends p I J ((f m).run m)) : Keeps p I J (get >>= f) := by
  intro m h
  rw [run_get_bind]
  exact hf m h

theorem modify {g : Machine → Machine} (hg : ∀ m, I m → J (g m)) : Keeps p I J (modify g) := hg

theorem ite [Decidable c] {y : Exec α} (hx : Keeps p I J x) (hy : Keeps p I J y) : Keeps p I J (if c then x else y) := by
  split
  · exact hx
  · exact hy

/-- A check before the rest of a step. -/
theorem check [Decidable c] (he : e ≠ .beyondStack) (hx : ¬ c → Keeps p I J x) :
    Keeps p I J (if c then (MonadExcept.throw e : Exec Unit) >>= fun _ => x else x) := by
  split
  · intro m h
    rw [run_bind]
    exact ⟨h, fun heq => absurd heq he⟩
  · exact hx ‹_›

/-! ## The stack -/

theorem push (x : UInt64) : Stays p F (push x) := by
  refine get_bind fun m hm => ?_
  split
  · exact { hm with sp := Nat.le_trans ‹_› (Nat.le_max_left ..) }
  · exact throw (by nofun) m hm

theorem pop : Stays p F pop := by
  refine get_bind fun m hm => check (by nofun) (fun _ => ?_) m hm
  have hpopped : Machine.At p F { m with sp := m.sp - 1 } := { hm with sp := Nat.le_trans (Nat.sub_le ..) hm.sp }
  intro _ _
  split
  · exact hpopped
  · exact ⟨hpopped, fun _ => by have := hm.sp; omega⟩

theorem top : Stays p F top := by
  refine get_bind fun m hm => check (by nofun) (fun _ => ?_) m hm
  intro m' hm'
  split
  · exact hm'
  · exact ⟨hm', fun _ => by have := hm.sp; omega⟩

theorem setTop (x : UInt64) : Stays p F (setTop x) := by
  refine get_bind fun m hm => ?_
  split
  · exact { hm with }
  · -- the stack has a first slot, also where nothing is in use
    exact ⟨hm, fun _ => by have := hm.sp; unfold stackSize at *; omega⟩

theorem read (a : UInt64) : Stays p F (read a) := by
  refine get_bind fun m hm => ?_
  dsimp only
  split
  · exact hm
  · split
    · split
      · exact hm
      · exact ⟨hm, fun _ => by have := hm.sp; omega⟩
    · exact throw (by nofun) m hm

theorem write (a x : UInt64) : Stays p F (write a x) := by
  refine get_bind fun m hm => ?_
  dsimp only
  split
  · exact { hm with }
  · split
    · split
      · exact { hm with }
      · exact ⟨hm, fun _ => by have := hm.sp; omega⟩
    · exact throw (by nofun) m hm

/-! ## Primitives -/

theorem print (b : Bytes) : Stays p F (print b) := modify fun _ hm => { hm with }

theorem printGlobal (index : UInt64) : Stays p F (printGlobal index) := by
  refine get_bind fun m hm => ?_
  cases m.program.globals[index.toNat]? with
  | some g => exact print g.payload m hm
  | none => exact throw (by nofun) m hm

/-- That a machine stays at work with the same calls is a law of steps. -/
theorem law : Law (Stays p F) where
  pure := pure
  throw := throw
  bind := bind
  push := push
  pop := pop
  top := top
  setTop := setTop
  read := read
  write := write
  print := print
  printGlobal := printGlobal
  take _ _ hm := { hm with }

theorem invoke (primitive : Primitive) : Stays p F (invoke primitive) := by
  refine get_bind fun m hm => check (by nofun) (fun _ => ?_) m hm
  by_cases hsize : stackSize < m.sp
  · intro m' hm'
    simp only [if_pos hsize, run_bind]
    exact ⟨hm', fun _ => Nat.lt_of_lt_of_le hsize hm.sp⟩
  · simp only [if_neg hsize]
    exact law.carryOut primitive

theorem callPrimitive (operand : Int) : Stays p F (callPrimitive operand) := by
  refine get_bind fun m hm => ?_
  split
  · exact throw (by nofun) m hm
  · split
    · exact invoke _ m hm
    · exact throw (by nofun) m hm

/-! ## Calls and branches -/

variable {frame top : Frame} {f : Function}

theorem jump {pc : Nat} (htop : Calls p (top :: F)) (hf : p.functions[top.function]? = some f) (hpc : pc ≤ f.code.size) :
    Keeps p (Machine.At p (top :: F)) (Machine.Intact p) (jump pc) := by
  refine modify fun m hm => ?_
  simp only [hm.frames]
  exact ⟨hm.program, fun _ => htop.jump hf hpc, fun _ => hm.sp⟩

theorem branch (next : Nat) (distance : Int64) (htop : Calls p (top :: F)) (hf : p.functions[top.function]? = some f) :
    Keeps p (Machine.At p (top :: F)) (Machine.Intact p) (branch next f distance) :=
  check (by nofun) fun hrange => jump htop hf (by omega)

/-- A call that is entered begins where the stack pointer is, beneath which its arguments lie. -/
theorem enter (operand : Int) (hF : Calls p F) : Keeps p (Machine.At p F) (Machine.Intact p) (enter operand) := by
  refine get_bind fun m hm => ?_
  split
  · exact throw (by nofun) m hm
  · rename_i g hg
    have hg : p.functions[operand.toNat]? = some g := by
      split at hg
      · cases hg
      · exact hm.program ▸ hg
    refine check (by nofun) (fun hroom => (law.pushZeros _).bind fun _ => modify fun m' hm' => ?_) m hm
    have hsp := hm.sp
    refine ⟨hm'.program, fun _ => ?_, fun _ => hm'.sp⟩
    rw [hm'.frames]
    refine .call ⟨g, hg, Nat.zero_le _, Nat.sub_le ..⟩ hF fun {f} hf => ?_
    cases hg.symm.trans hf
    change m.sp - (g.header.params.toNat + g.header.returns.toNat) + g.header.returns.toNat ≤ p.reach
    omega

/-- The return of the outermost call halts the machine. -/
theorem leave (htop : Calls p (top :: F)) (hf : p.functions[top.function]? = some f) (hbase : frame.argBase = top.argBase) :
    Keeps p (Machine.At p (top :: F)) (Machine.Intact p) (leave frame f) := by
  refine modify fun m hm => ?_
  simp only [hm.frames, hm.running, List.tail_cons, Bool.false_or]
  cases htop with
  | entry => exact ⟨hm.program, nofun, nofun⟩
  | call hframe hF hreturns => exact ⟨hm.program, fun _ => hF, fun _ => hbase ▸ hreturns hf⟩

/-- Every instruction keeps a machine whole, and most of them leave the calls alone. -/
theorem execute {next : Nat} (i : Instruction) (htop : Calls p (top :: F)) (hf : p.functions[top.function]? = some f)
    (hbase : frame.argBase = top.argBase) :
    Keeps p (Machine.At p (top :: F)) (Machine.Intact p) (execute frame f next i) := by
  have hkeeps {x : Exec Unit} (hx : Stays p (top :: F) x) :
      Keeps p (Machine.At p (top :: F)) (Machine.Intact p) x :=
    fun m hm => (hx m hm).mono (fun _ h => h) fun _ hm' => hm'.intact htop
  by_cases hplain : i.op.isPlain = true
  · exact hkeeps (law.execute hplain frame f next)
  unfold Exec.execute
  cases hop : i.op with
  | popN =>
    refine get_bind fun m hm => check (by nofun) (fun _ => modify fun m' hm' => ?_) m hm
    exact hm'.intact htop |>.lower (Nat.sub_le ..)
  | globA => exact get_bind fun m hm => check (by nofun) (fun _ => hkeeps (push _)) m hm
  | br => exact branch _ _ htop hf
  | brFalse | brTrue => exact pop.bind fun _ => ite (branch _ _ htop hf) (hkeeps (pure ()))
  | call => exact enter _ htop
  | ret => exact leave htop hf hbase
  | callName => exact hkeeps (callPrimitive _)
  | _ => exact absurd (congrArg Opcode.isPlain hop) hplain

end Keeps

end Exec

/-! ## Steps and runs -/

namespace Machine

variable {p : Program} {m : Machine}

/-- A step keeps a machine whole. If it fails, the machine is still at work. -/
theorem Intact.step (h : m.Intact p) : Exec.Ends p (fun m => m.Intact p ∧ m.halted = false) (Intact p) m.step := by
  unfold Machine.step
  by_cases hhalted : m.halted = true
  · rw [if_pos hhalted]
    exact h
  have hrunning : m.halted = false := by simpa using hhalted
  have hcalls := h.calls hrunning
  rw [if_neg hhalted]
  cases hframes : m.frames with
  | nil => exact absurd hframes hcalls.ne_nil
  | cons frame F =>
    rw [hframes] at hcalls
    obtain ⟨f, hf, -, -⟩ := hcalls.stands frame List.mem_cons_self
    change Exec.Ends p _ _ ((Exec.advance frame).run m)
    rw [Exec.advance, Exec.run_get_bind]
    simp only [h.program, hf]
    cases hi : f.code[frame.pc]? with
    | none =>
      -- past the end of its code only the entry routine halts the machine; another call stays where it is
      refine Exec.Keeps.ite (fun _ _ => ?_) (Exec.Keeps.throw (by nofun)) m ⟨h, hrunning⟩
      exact ⟨rfl, nofun, nofun⟩
    | some i =>
      have hnext : frame.pc + 1 ≤ f.code.size := (Array.getElem?_eq_some_iff.1 hi).1
      have hcalls := hcalls.jump hf hnext
      have hjump : (Exec.jump (frame.pc + 1)).run m = (.ok (), { m with frames := frame.next :: F }) := by
        change (Except.ok (), _) = _
        simp only [hframes]
      simp only [Exec.run_bind, hjump]
      have hmoved : At p (frame.next :: F) { m with frames := frame.next :: F } :=
        ⟨h.program, hrunning, rfl, h.sp hrunning⟩
      exact (Exec.Keeps.execute i hcalls hf rfl _ hmoved).mono (fun _ hm' => ⟨hm'.intact hcalls, hm'.running⟩) fun _ hm' => hm'

/-- A fault in a machine at work is an error of its own, a breakdown apart. -/
theorem Intact.eq_beyondStack_of_runError (h : m.Intact p) (hrunning : m.halted = false) (hbreak : m.runError e = .breakdown) :
    e = .beyondStack := by
  unfold Machine.runError at hbreak
  split at hbreak
  · rfl
  · cases hbreak
  · exact absurd ‹m.frames = []› (h.calls hrunning).ne_nil

/-- What each step keeps, a run keeps. -/
theorem Intact.run (h : m.Intact p) (limit : Int) (budget : Nat) :
    (m.run limit budget).2.Intact p ∧ ((m.run limit budget).1 = .failed .breakdown → stackSize < p.reach) := by
  induction budget generalizing m with
  | zero =>
    rw [Machine.run]
    exact ⟨h, by split <;> nofun⟩
  | succ budget ih =>
    rw [Machine.run]
    split
    · exact ⟨h, nofun⟩
    · split
      · exact ⟨h, nofun⟩
      · have hends := h.step
        rcases hstep : m.step with ⟨e | a, m'⟩ <;> rw [hstep] at hends
        · obtain ⟨⟨hm', hrunning⟩, hbreak⟩ := hends
          refine ⟨⟨hm'.program, nofun, nofun⟩, fun heq => hbreak ?_⟩
          exact hm'.eq_beyondStack_of_runError hrunning (RunResult.failed.inj heq)
        · exact ih ⟨hends.program, hends.calls, hends.sp⟩

/-- The machines that a program can be driven to, from its start on an input by steps and runs in any order. -/
inductive Visits (p : Program) (input : Bytes) : Machine → Prop where
  | start : Visits p input (start p input)
  | step {m : Machine} (h : Visits p input m) : Visits p input m.step.2
  | run {m : Machine} (limit : Int) (budget : Nat) (h : Visits p input m) : Visits p input (m.run limit budget).2

theorem intact_start (p : Program) (input : Bytes) : (start p input).Intact p := by
  refine ⟨rfl, fun hrunning => ?_, fun _ => Nat.le_max_right ..⟩
  have hentry : p.functions.isEmpty = false := hrunning
  have hsize : 0 < p.functions.size := by
    rw [Array.isEmpty_eq_false_iff] at hentry
    exact Array.size_pos_iff.2 hentry
  simp only [start, hentry]
  exact .entry ⟨p.functions[0], Array.getElem?_eq_getElem hsize, Nat.zero_le _, Nat.le_refl _⟩

theorem Visits.intact {input : Bytes} (h : Visits p input m) : m.Intact p := by
  induction h with
  | start => exact intact_start p input
  | @step m h ih =>
    have hends := ih.step
    revert hends
    rcases m.step with ⟨e | a, m'⟩
    · exact fun hends => hends.1.1
    · exact fun hm' => hm'
  | run limit budget h ih => exact (ih.run limit budget).1

/-- Whatever the program, a machine at work has a call, and each of its calls is one of a function of the program, stands within
the code of that function and has its arguments before its locals. If no more locals of the entry routine are declared than the
stack has slots, the stack pointer stays within the stack, and neither a step nor a run breaks the machine down. -/
theorem whole_of_visits {input : Bytes} (h : Visits p input m) :
    (m.halted = false → m.frames ≠ [] ∧ ∀ frame ∈ m.frames, frame.Stands p) ∧
    (p.entryLocals ≤ stackSize →
      (m.halted = false → m.sp ≤ stackSize) ∧ m.step.1 ≠ .error .beyondStack ∧
        ∀ limit budget, (m.run limit budget).1 ≠ .failed .breakdown) := by
  have hm := h.intact
  refine ⟨fun hrunning => ⟨(hm.calls hrunning).ne_nil, (hm.calls hrunning).stands⟩, fun hlocals => ?_⟩
  have hreach : p.reach ≤ stackSize := Nat.max_le.2 ⟨Nat.le_refl _, hlocals⟩
  refine ⟨fun hrunning => Nat.le_trans (hm.sp hrunning) hreach, fun hbreak => ?_, fun limit budget hbreak => ?_⟩
  · have hends := hm.step
    rcases hstep : m.step with ⟨e | a, m'⟩ <;> rw [hstep] at hends hbreak
    · exact Nat.not_lt.2 hreach (hends.2 (Except.error.inj hbreak))
    · cases hbreak
  · exact Nat.not_lt.2 hreach ((hm.run limit budget).2 hbreak)

-- The bound is the least: with one local more the first slot that is popped lies beyond the stack.
example : (start { functions := #[{ header := { locals := 65537 }, code := #[⟨.pop, 0, none⟩] }] } []).step.1 =
  .error .beyondStack := by
  rfl

/-- A routine that no compiler makes: it loads from no address, goes on after that fault, and calls itself on what the stack
holds. -/
def unruly : Program :=
  { functions := #[{ header := { returns := 2, locals := 1 }, code := #[⟨.stackAlloc, 3, none⟩,
    ⟨.load, 0, none⟩, ⟨.call, 0, none⟩] }] }

theorem whole_unruly :
    (start unruly []).step.2.step.1 = .error (.badAddress 0) ∧
    ∃ m, m = (start unruly []).step.2.step.2.step.2 ∧ m.halted = false ∧ m.frames.length = 2 ∧
      (∀ frame ∈ m.frames, frame.Stands unruly) ∧
      m.sp ≤ stackSize ∧ m.step.1 ≠ .error .beyondStack ∧ ∀ limit budget, (m.run limit budget).1 ≠ .failed .breakdown := by
  have h : Visits unruly [] (start unruly []).step.2.step.2.step.2 := .step (.step (.step .start))
  have hrunning : (start unruly []).step.2.step.2.step.2.halted = false := by decide
  have ⟨hframes, hstack⟩ := whole_of_visits h
  have ⟨hsp, hstep, hrun⟩ := hstack (by decide)
  exact ⟨rfl, _, rfl, hrunning, by decide, (hframes hrunning).2, hsp hrunning, hstep, hrun⟩

end Machine

end OnePass

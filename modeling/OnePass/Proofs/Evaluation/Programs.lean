import OnePass.Proofs.Evaluation.Calls
import OnePass.Proofs.Machine.Output
import OnePass.Proofs.Machine.Resumption
import OnePass.Proofs.Safety.Run

/-!
# Programs do what their trees mean

The entry routine gives the globals their initial values and calls the main function, as the evaluation of the tree does
(`Source.Meant.simulates`). So a compiled program writes what its tree means, leaves the same values in the globals and ends in
the same way, unless its stack overflows (`compile_preserves_meaning`).
-/

namespace OnePass

variable {m : Machine} {number : Nat} {N N' : Scope} {outputs : List Output} {f : MachineFault} {mem : Memory}

/-! ## The entry routine -/

/-- The entry routine at work. -/
def Setting.entry : Setting where
  function := 0
  lower := []
  callers := []
  returns := .void
  params := []
  locals := []

section

variable {A : Source} {P : List PoolEntry} {p : Program} {W : World} {s : Setting} {f : Function} {pc : Nat}
  {m : Memory} {G : Array UInt64}
variable {returns : ValueType}

/-- Calling the main function, and dropping its result. -/
theorem Setting.call_main {k : Nat} (hW : W.Fits A P p) (hs : s.Of p f) (hfunction : A.HasFunction k number [] returns)
    (hcode : f.HasCode pc (mainCode returns number)) (hm : s.Fits A P m G) :
    (s.view m G [] pc).Evaluates A P p W.fuel (fun _ => s.Stands A P [] (pc + (mainCode returns number).length))
      ((do let _ ← W.call k [] : Evaluation Unit).run m) := by
  have hargs : (s.view m G ([] ++ List.replicate returns.slots 0) (pc + 1)).Evaluates A P p W.fuel
      (s.GivesAll A P ([] ++ List.replicate returns.slots 0) [] (pc + 1 + ([] : List Instruction).length))
      ((pure [] : Evaluation (List Datum)).run m) :=
    .ok ⟨G, by rw [List.map_nil, List.append_nil]; rfl, ⟨rfl, by simp⟩, hm⟩
  have hcall := Setting.call hs hcode.left hargs fun hi hargs hm => hW.call hfunction hs hi hargs hm
  rw [pure_bind] at hcall
  refine hcall.bind ?_
  rintro a m' v ⟨G', slots, rfl, ha, hm'⟩
  rw [mainCode, List.length_append, ← Nat.add_assoc]
  by_cases hvoid : returns = .void
  · subst hvoid
    cases ha
    exact .ok ⟨G', rfl, hm'⟩
  · have hpop := hcode.right
    rw [if_neg hvoid] at hpop ⊢
    have hoperand : (Instruction.withNat .popN returns.slots).operand.toInt = slots.length := by
      rw [ha.length_eq]
      exact toInt_withNat (Nat.lt_of_le_of_lt (by unfold ValueType.slots; split <;> decide) (show 1 < placeLimit by decide))
    refine Setting.step hs hpop.head ?_ (.ok ⟨G', rfl, hm'⟩)
    rw [Setting.view, Setting.view, List.append_nil]
    exact .execute_popN rfl hoperand

/-- The entry routine does what going through the definitions does. -/
theorem Source.Meant.simulates {done ds : Source} {main slot : Nat} (hds : ds.Emits P N number outputs N')
    (h : A.Meant P p done N)
    (hA : A = done ++ ds) (hsmall : A.Small P p) (hnumber : number = done.functions + 1) (hW : W.Fits A P p) (hs : s.Of p f)
    (hmain : N'.lookup Analysis.mainName = some (.function [] returns main slot))
    (hcode : f.HasCode pc (entryOf outputs ++ mainCode returns main)) (hm : s.Fits A P m G) :
    (s.view m G [] pc).Evaluates A P p W.fuel
      (fun _ => s.Stands A P [] (pc + (entryOf outputs ++ mainCode returns main).length))
      ((Source.exec W (Source.environment 0 done) done.length ds).run m) := by
  induction hds generalizing done pc m G with
  | nil =>
    obtain ⟨r, hr, hfunction⟩ := (h.means s).lookup hmain
    cases r with
    | function k =>
      rw [Source.exec, hr]
      exact Setting.call_main hW hs hfunction hcode hm
    | _ => exact hfunction.elim
  | @cons N N' number d ds output outputs entry hd hnew hds ih =>
    subst hnumber
    have hcons := h.cons hA hsmall hd hnew
    have hlater {pc : Nat} {m : Memory} {G : Array UInt64} (hcode : f.HasCode pc (entryOf outputs ++ mainCode returns main))
        (hm : s.Fits A P m G) := ih hcons (by simp [hA]) (Source.next_snoc done d) hmain hcode hm
    have hlength : (done ++ [d]).length = done.length + 1 := List.length_append
    rw [Source.environment_append, Nat.zero_add, hlength] at hlater
    cases hd with
    | function =>
      rw [Source.exec]
      exact hlater hcode hm
    | @«global» d slot code hslot hd =>
      have hfits := (h.cons hA hsmall (.global hslot hd) hnew).means s
      rw [Source.environment_append, Nat.zero_add] at hfits
      rw [Source.exec]
      rw [Source.entryOf_entry, List.append_assoc] at hcode ⊢
      refine (Setting.declaration hW hs (h.means s) hd hfits.2.1.2 hcode.left hm).bind fun _ m' v ⟨G', hv, hm'⟩ => ?_
      subst hv
      rw [List.length_append, ← Nat.add_assoc]
      exact hlater hcode.right hm'

end

/-! ## The start -/

section

variable {A : Source} {P : List PoolEntry} {p : Program}

/-- A global variable can be stored. -/
theorem Source.Emits.isStored {x : Bytes} {τ : ValueType} (h : A.Emits P N number outputs N') (hτ : A.typeOf? x = some τ) :
    τ.IsStored := by
  obtain ⟨d, hmem, htype⟩ := List.exists_of_findSome?_eq_some hτ
  obtain ⟨pre, post, rfl⟩ := List.append_of_mem hmem
  obtain ⟨before, output, after, N1, entry, -, -, hd, -⟩ := h.exists_output
  cases hd with
  | function => cases htype
  | «global» _ hd =>
    obtain ⟨-, hsome⟩ := Option.ite_none_right_eq_some.1 htype
    cases hsome
    exact TypeName.isStored_type hd.type_ne

namespace Source.Sized

/-- At the start all globals are zero. -/
theorem inSlots_initial (h : A.Sized P p) (input : Bytes) : (A.initial input).InSlots A P (Array.replicate p.globals.size 0) := by
  obtain ⟨outputs, N, returns, number, slot, hA, -, -⟩ := h.makes.functions
  have hsize : p.globals.size = P.length := by rw [h.makes.globals, List.size_toArray, List.length_map]
  refine ⟨by rw [Array.size_replicate, hsize], fun {slot const x τ} hslot hτ => ?_⟩
  obtain ⟨hzero, hslots⟩ := (hA.isStored hτ).hasType_zero
  have hx : (A.initial input).globals x = τ.zero := by
    change ((A.typeOf? x).map ValueType.zero).getD .void = τ.zero
    rw [hτ]
    rfl
  rw [hx, hslots, Array.getElem?_replicate, if_pos (hsize ▸ (List.getElem?_eq_some_iff.1 hslot).1)]
  exact ⟨hzero, rfl⟩

/-- The entry routine does what evaluating the program does, with any fuel, and comes to its end if the evaluation does. -/
theorem simulates (h : A.Sized P p) (fuel : Nat) (input : Bytes) : ∃ f, Setting.entry.Of p f ∧
    (Setting.entry.view (A.initial input) (Array.replicate p.globals.size 0) [] 0).Evaluates A P p fuel
      (fun _ => Setting.entry.Stands A P [] f.code.size) (A.evaluate (numberOf P) p.text? fuel input) := by
  obtain ⟨outputs, N, returns, number, slot, hA, hmain, hp⟩ := h.makes.functions
  have hof : Setting.entry.Of p ⟨{}, (entryOf outputs ++ mainCode returns number).toArray⟩ := ⟨by rw [hp]; rfl, rfl, rfl, rfl⟩
  refine ⟨_, hof, ?_⟩
  have hcode : Function.HasCode ⟨{}, (entryOf outputs ++ mainCode returns number).toArray⟩ 0
      (entryOf outputs ++ mainCode returns number) := by
    intro j i hi
    rw [Nat.zero_add, List.getElem?_toArray, hi]
  have hsimulates := Source.Meant.nil.simulates hA rfl h.small rfl (h.fits fuel) hof hmain hcode
    ⟨⟨rfl, nofun⟩, ⟨rfl, nofun⟩, h.inSlots_initial input⟩
  rwa [Nat.zero_add, ← List.size_toArray] at hsimulates

end Source.Sized

end

/-! ## Endings -/

/-- How a program ends. -/
inductive Ending where
  | normal
  | fault (f : MachineFault)
  deriving DecidableEq, Repr

/-- How a run has ended, if it has. -/
def RunResult.ending? : RunResult → Option Ending
  | finished => some .normal
  | failed (.fault _ _ f) => some (.fault f)
  | _ => none

/-- What an evaluation gives that ends so. -/
def Ending.result : Ending → Except Halt Unit
  | normal => .ok ()
  | fault f => .error (.fault f)

namespace Machine

/-- The machine, left to run, ends so, and is this machine then. -/
def Ends (m : Machine) (e : Ending) (m' : Machine) : Prop := ∃ budget r, m.run 0 budget = (r, m') ∧ r.ending? = some e

/-- The machine, left to run, never ends. -/
def Endless (m : Machine) : Prop := ∀ budget, (m.run 0 budget).1 = .running

/-- A run that still goes on was not over before. -/
theorem run_running {m' : Machine} {budget less : Nat} (h : m.run 0 budget = (.running, m')) (hle : less ≤ budget) :
    ∃ m1, m.run 0 less = (.running, m1) ∧ m1.run 0 (budget - less) = (.running, m') := by
  have hadd := m.run_add 0 less (budget - less)
  rw [Nat.add_sub_cancel' hle, h] at hadd
  by_cases hless : (m.run 0 less).1 = .running
  · rw [if_pos hless] at hadd
    exact ⟨(m.run 0 less).2, Prod.ext hless rfl, hadd.symm⟩
  · rw [if_neg hless] at hadd
    exact absurd (congrArg Prod.fst hadd).symm hless

/-- A machine ends in one way. -/
theorem Ends.unique {m1 m2 : Machine} {e1 e2 : Ending} (h1 : m.Ends e1 m1) (h2 : m.Ends e2 m2) : e1 = e2 ∧ m1 = m2 := by
  obtain ⟨n1, r1, hrun1, he1⟩ := h1
  obtain ⟨n2, r2, hrun2, he2⟩ := h2
  have hstays {n : Nat} {r : RunResult} {e : Ending} {m' : Machine} (hrun : m.run 0 n = (r, m'))
    (he : r.ending? = some e) (more : Nat) :
      m.run 0 (n + more) = (r, m') := by
    refine run_of_returned hrun ?_ more
    rintro rfl
    cases he
  have hsame := hstays hrun1 he1 n2
  rw [Nat.add_comm, hstays hrun2 he2 n1] at hsame
  cases hsame
  rw [he1] at he2
  cases he2
  exact ⟨rfl, rfl⟩

end Machine

section

variable {A : Source} {P : List PoolEntry} {p : Program} {u : View} {m : Machine}

theorem View.Fails.ends {Q : Array UInt64 → Console → Prop} (h : u.Fails p f Q) (hm : m.Shows p u) :
    ∃ m', m.Ends (.fault f) m' ∧ Q m'.globals m'.console := by
  obtain ⟨n, m', function, pc, hrun, hQ⟩ := h m hm
  exact ⟨m', ⟨n, _, hrun, rfl⟩, hQ⟩

/-- At the end of the entry routine the machine halts. -/
theorem Setting.Stands.ends {f : Function} (h : Setting.entry.Stands A P [] f.code.size mem u) (hf : Setting.entry.Of p f)
    (hm : m.Shows p u) : ∃ m', m.run 0 1 = (.finished, m') ∧ mem.InSlots A P m'.globals ∧ m'.console = mem.console := by
  obtain ⟨G, rfl, hmem⟩ := h
  have hend : f.code[f.code.size]? = none := Array.getElem?_eq_none (Nat.le_refl _)
  refine ⟨{ m with halted := true, steps := m.steps + 1 }, ?_, ?_, hm.console⟩
  · rw [Machine.run_succ hm.running, hm.step_halt hf.function hend]
    rfl
  · rw [hm.globals]
    exact hmem.globals

/-- If the evaluation ends, the machine ends likewise. -/
theorem View.Follows.ends {fuel : Nat} {f : Function} {e : Ending} {mem : Memory}
    (h : u.Follows p (Memory.InSlots A P) fuel (fun _ => Setting.entry.Stands A P [] f.code.size) (e.result, mem))
    (hf : Setting.entry.Of p f)
    (hm : m.Shows p u) : ∃ m', m.Ends e m' ∧ mem.InSlots A P m'.globals ∧ m'.console = mem.console := by
  cases e with
  | normal =>
    obtain ⟨n, v, hgoes, hstands⟩ := h
    obtain ⟨m1, hm1, hrun⟩ := hgoes m hm
    obtain ⟨m', hrun', hend⟩ := hstands.ends hf hm1
    exact ⟨m', ⟨n + 1, .finished, by rw [hrun, hrun'], rfl⟩, hend⟩
  | fault e =>
    have hfails : u.Fails p e fun G C => mem.InSlots A P G ∧ C = mem.console := h
    exact hfails.ends hm

/-- If the fuel is used up, the machine is still running after so many steps. -/
theorem View.Follows.running {α : Type} {R : Memory → Array UInt64 → Prop} {fuel : Nat}
    {post : α → Memory → View → Prop} {mem : Memory} (h : u.Follows p R fuel post (.error .timeout, mem)) (hm : m.Shows p u) :
    ∃ budget m', fuel ≤ budget ∧ m.run 0 budget = (.running, m') ∧ m'.console = mem.console := by
  obtain ⟨n, v, hle, hgoes, hconsole⟩ := h
  obtain ⟨m', hm', hrun⟩ := hgoes m hm
  refine ⟨n, m', hle, ?_, hm'.console.trans hconsole⟩
  rw [← Nat.add_zero n, hrun, Machine.run, hm'.running]
  rfl

end

/-! ## Agreement -/

/-- The machine has the console of the memory, and the value of each global variable in the slot for it. -/
structure Source.Shows (A : Source) (p : Program) (mem : Memory) (m : Machine) : Prop where
  console : m.console = mem.console
  global {d : Declaration} (hd : .global d ∈ A) :
    ∃ slot, (∀ n : Nat, p.globals[n]? = some { const := d.isConst, name := d.name } ↔ n = slot) ∧
      (mem.globals d.name).HasType d.type.type ∧ m.globals[slot]? = some (mem.globals d.name).slot

/-- By these numbers the program finds the literal texts of the tree among its globals. -/
def Source.Refers (A : Source) (p : Program) (literal : Bytes → Int64) : Prop :=
  ∀ (quote : Quote) (content : Bytes), .text quote content ∈ A.yield →
    p.globals[(literal content).toUInt64.toNat]? = some { const := true, value := some content }

section

variable (A : Source) (literal : Bytes → Int64) (p : Program) (input : Bytes)

/-- The evaluation ends so if it has enough fuel, with this memory. -/
def Source.Ends (e : Ending) (mem : Memory) : Prop := ∃ fuel, A.evaluate literal p.text? fuel input = (e.result, mem)

/-- The evaluation uses up all fuel. -/
def Source.Endless : Prop := ∀ fuel, (A.evaluate literal p.text? fuel input).1 = .error .timeout

/-- On an input the program does what its tree means. -/
structure Source.Agrees : Prop where
  /-- The tree has a meaning: its evaluation ends or is endless. -/
  meaningful : (∃ e mem, A.Ends literal p input e mem) ∨ A.Endless literal p input
  /-- If the evaluation ends, the program ends in the same way, with the same output and the same values of globals. -/
  ends {e : Ending} {mem : Memory} (h : A.Ends literal p input e mem) : ∃ m, (Machine.start p input).Ends e m ∧ A.Shows p mem m
  /-- If the program ends, so does the evaluation. -/
  ended {e : Ending} {m : Machine} (h : (Machine.start p input).Ends e m) : ∃ mem, A.Ends literal p input e mem ∧ A.Shows p mem m
  /-- The only faults are divisions by zero and those of primitives. -/
  fault {f : MachineFault} {mem : Memory} (h : A.Ends literal p input (.fault f) mem) :
    f = .divideByZero ∨ (∃ primitive e, f = .input primitive e) ∨ ∃ n, f = .noText n
  /-- The program is endless if the evaluation is. -/
  endless : (Machine.start p input).Endless ↔ A.Endless literal p input
  /-- What an endless evaluation has written when its fuel is used up, the program has written at some time. -/
  written (h : A.Endless literal p input) (fuel : Nat) :
    ∃ budget, ((Machine.start p input).run 0 budget).2.console = (A.evaluate literal p.text? fuel input).2.console
  /-- What an endless program has written at any time, the evaluation writes with enough fuel. -/
  writes (h : A.Endless literal p input) (budget : Nat) :
    ∃ fuel, ((Machine.start p input).run 0 budget).2.console.Precedes (A.evaluate literal p.text? fuel input).2.console

end

namespace Source.Sized

variable {A : Source} {P : List PoolEntry} {p : Program} {input : Bytes} (h : A.Sized P p)

include h

theorem shows (hslots : mem.InSlots A P m.globals) (hconsole : m.console = mem.console) : A.Shows p mem m := by
  refine ⟨hconsole, fun {d} hd => ?_⟩
  obtain ⟨outputs, N, returns, number, slot, hA, -, -⟩ := h.makes.functions
  obtain ⟨pre, post, hsplit⟩ := List.append_of_mem hd
  have hemits := hA
  rw [hsplit] at hemits
  obtain ⟨before, output, after, N1, entry, -, hpre, hd, hnew⟩ := hemits.exists_output
  have hmeant : A.Meant P p pre N1 := Source.Meant.nil.of_emits hpre hsplit h.small rfl
  rw [Nat.add_comm] at hd
  have hmeans := (hmeant.cons hsplit h.small hd hnew).means .entry
  rw [Source.environment_append] at hmeans
  cases hd with
  | @«global» _ slot code hslot hd =>
    obtain ⟨-, ⟨-, htype, -⟩, -⟩ := hmeans
    refine ⟨slot, fun n => ?_, hslots.get hslot htype⟩
    rw [h.makes.globals]
    exact DistinctVariables.getElem?_iff (hA.distinctVariables h.makes.pool) hslot n

theorem refers : A.Refers p (numberOf P) := by
  intro quote content htext
  obtain ⟨outputs, N, returns, number, slot, hA, -, -⟩ := h.makes.functions
  have hmem := hA.texts htext
  obtain ⟨slot, hslot⟩ := Option.isSome_iff_exists.1 (List.isSome_idxOf?.2 hmem)
  have hget := getElem?_of_idxOf? hslot
  have hlt := Nat.lt_trans (List.getElem?_eq_some_iff.1 hget).1 h.small.pool
  have hnumber : (numberOf P content).toUInt64.toNat = slot := by
    rw [numberOf, hslot]
    exact UInt64.toNat_ofNat_of_lt' (Nat.lt_trans hlt (by decide))
  rw [hnumber, h.makes.globals, List.getElem?_toArray, List.getElem?_map, hget]
  rfl

variable (hover : ∀ m, ¬ (Machine.start p input).Ends (.fault .stackOverflow) m)

include hover

/-- If it does not overflow its stack, the machine follows the evaluation. -/
theorem follows (fuel : Nat) :
    ∃ f u, Setting.entry.Of p f ∧ (Machine.start p input).Shows p u ∧
      View.Follows p (Memory.InSlots A P) u fuel (fun _ => Setting.entry.Stands A P [] f.code.size)
        (A.evaluate (numberOf P) p.text? fuel input) := by
  obtain ⟨f, hf, hsimulates⟩ := h.simulates fuel input
  have hm := Machine.Shows.start hf.function hf.locals input
  refine ⟨f, _, hf, hm, hsimulates.resolve_left fun hoverflows => ?_⟩
  obtain ⟨m, hm, -⟩ := View.Fails.ends hoverflows hm
  exact hover m hm

/-- The evaluation ends, or it is out of fuel; it is never stuck. -/
theorem evaluate_cases (fuel : Nat) :
    (∃ e mem, A.evaluate (numberOf P) p.text? fuel input = (Ending.result e, mem)) ∨
      ∃ mem, A.evaluate (numberOf P) p.text? fuel input = (.error .timeout, mem) := by
  obtain ⟨f, u, -, -, hfollows⟩ := h.follows hover fuel
  revert hfollows
  rcases A.evaluate (numberOf P) p.text? fuel input with ⟨(e | _ | _) | _, mem⟩
  · exact fun _ => .inl ⟨.fault e, mem, rfl⟩
  · exact fun _ => .inr ⟨mem, rfl⟩
  · exact False.elim
  · exact fun _ => .inl ⟨.normal, mem, rfl⟩

theorem ends {e : Ending} {mem : Memory} (he : A.Ends (numberOf P) p input e mem) :
    ∃ m, (Machine.start p input).Ends e m ∧ A.Shows p mem m := by
  obtain ⟨fuel, heval⟩ := he
  obtain ⟨f, u, hf, hm, hfollows⟩ := h.follows hover fuel
  rw [heval] at hfollows
  obtain ⟨m, hends, hslots, hconsole⟩ := hfollows.ends hf hm
  exact ⟨m, hends, h.shows hslots hconsole⟩

theorem running {fuel : Nat} {mem : Memory} (heval : A.evaluate (numberOf P) p.text? fuel input = (.error .timeout, mem)) :
    ∃ budget m, fuel ≤ budget ∧ (Machine.start p input).run 0 budget = (.running, m) ∧ m.console = mem.console := by
  obtain ⟨f, u, hf, hm, hfollows⟩ := h.follows hover fuel
  rw [heval] at hfollows
  exact hfollows.running hm

/-- If the machine ends within so many steps, so much fuel is enough. -/
theorem ended {e : Ending} (he : (Machine.start p input).Ends e m) :
    ∃ mem, A.Ends (numberOf P) p input e mem ∧ A.Shows p mem m := by
  obtain ⟨budget, r, hrun, hr⟩ := id he
  rcases h.evaluate_cases hover budget with ⟨e', mem, heval⟩ | ⟨mem, heval⟩
  · obtain ⟨m', hends, hshows⟩ := h.ends hover ⟨budget, heval⟩
    obtain ⟨rfl, rfl⟩ := he.unique hends
    exact ⟨mem, ⟨budget, heval⟩, hshows⟩
  · obtain ⟨more, m', hle, hrunning, -⟩ := h.running hover heval
    obtain ⟨m1, hrunning, -⟩ := Machine.run_running hrunning hle
    rw [hrun] at hrunning
    cases hrunning
    cases hr

/-- The faults of a program, unless it overflows its stack. -/
theorem fault_cases (he : (Machine.start p input).Ends (.fault f) m) :
    f = .divideByZero ∨ (∃ primitive e, f = .input primitive e) ∨ ∃ n, f = .noText n := by
  obtain ⟨shape, hsound⟩ := h.makes.exists_sound (Nat.lt_trans h.yield (by decide))
  obtain ⟨v, hm, hv⟩ := hsound.start input
  obtain ⟨budget, r, hrun, hr⟩ := id he
  have hsafe := hsound.run (fun k => ?_) 0 budget hm hv
  · rw [hrun] at hsafe
    cases r with
    | failed error =>
      cases hsafe with
      | stepLimit => cases hr
      | stackOverflow =>
        cases hr
        exact absurd he (hover m)
      | divideByZero =>
        cases hr
        exact .inl rfl
      | @input _ _ e primitive =>
        cases hr
        exact .inr (.inl ⟨primitive, e, rfl⟩)
      | @noText _ _ n =>
        cases hr
        exact .inr (.inr ⟨n, rfl⟩)
    | _ => cases hr
  · have := A.length_locals_declared_le p k
    have := h.yield
    omega

/-- Unless it overflows its stack, the program does what its tree means. -/
theorem agrees : A.Agrees (numberOf P) p input where
  meaningful := by
    by_cases hendless : A.Endless (numberOf P) p input
    · exact .inr hendless
    · obtain ⟨fuel, hfuel⟩ := Classical.not_forall.1 hendless
      rcases h.evaluate_cases hover fuel with ⟨e, mem, heval⟩ | ⟨mem, heval⟩
      · exact .inl ⟨e, mem, fuel, heval⟩
      · rw [heval] at hfuel
        exact absurd rfl hfuel
  ends := h.ends hover
  ended := h.ended hover
  fault he := by
    obtain ⟨m, hm, -⟩ := h.ends hover he
    exact h.fault_cases hover hm
  endless := by
    constructor
    · intro hendless fuel
      rcases h.evaluate_cases hover fuel with ⟨e, mem, heval⟩ | ⟨mem, heval⟩
      · obtain ⟨m, ⟨budget, r, hrun, hr⟩, -⟩ := h.ends hover ⟨fuel, heval⟩
        have hrunning := hendless budget
        rw [hrun] at hrunning
        cases hrunning
        cases hr
      · rw [heval]
    · intro hendless budget
      obtain ⟨more, m, hle, hrun, -⟩ := h.running hover (Prod.ext (hendless budget) rfl)
      obtain ⟨m1, hrun, -⟩ := Machine.run_running hrun hle
      rw [hrun]
  written hendless fuel := by
    obtain ⟨budget, m, -, hrun, hconsole⟩ := h.running hover (Prod.ext (hendless fuel) rfl)
    exact ⟨budget, by rw [hrun]; exact hconsole⟩
  writes hendless budget := by
    obtain ⟨more, m, hle, hrun, hconsole⟩ := h.running hover (Prod.ext (hendless budget) rfl)
    obtain ⟨m1, hrun1, hmore⟩ := Machine.run_running hrun hle
    refine ⟨budget, ?_⟩
    rw [hrun1, ← hconsole]
    have hprecedes := m1.precedes_run 0 (more - budget)
    rwa [hmore] at hprecedes

end Source.Sized

/-- A compiled program does what its syntax tree means. The tree is evaluated as it is written: operands from left to right,
arguments by value, statements with their usual meaning, with cells of its own for each call. On every input the program writes
the same, leaves the same values in its globals and ends in the same way, or never, unless it overflows its stack. What number
stands for a literal text, and what text is printed for a number, is up to the globals of the program. -/
theorem compile_preserves_meaning {source : Bytes} {p : Program} (hsize : source.length < 2 ^ 28) (h : compile source = .ok p) :
    (∃ A : Source, A.IsTreeOf source) ∧ ∀ A : Source, A.IsTreeOf source → ∃ literal, A.Refers p literal ∧
      ∀ input, (∀ m, ¬ (Machine.start p input).Ends (.fault .stackOverflow) m) → A.Agrees literal p input := by
  refine ⟨Source.exists_isTreeOf h, fun A hA => ?_⟩
  obtain ⟨P, hmakes⟩ := hA.exists_makes h
  have hsized : A.Sized P p := ⟨hmakes, Nat.lt_of_le_of_lt hA.length_yield_le hsize⟩
  exact ⟨numberOf P, hsized.refers, fun input hover => hsized.agrees hover⟩

theorem exists_ends_factorials : ∃ p m, compile factorials = .ok p ∧ (Machine.start p []).Ends .normal m ∧
    m.console.output.toList = Bytes.ofString "621" := by
  have hend : (compile factorials).toOption.any (fun p =>
      ((Machine.start p []).run 0 160).1 == .finished &&
        ((Machine.start p []).run 0 160).2.console.output.toList == Bytes.ofString "621") = true := by
    decide +kernel
  obtain ⟨p, hp⟩ := exists_compile_factorials
  rw [hp] at hend
  simp only [Except.toOption, Option.any_some, Bool.and_eq_true, beq_iff_eq] at hend
  rcases hrun : (Machine.start p []).run 0 160 with ⟨r, m⟩
  rw [hrun] at hend
  obtain ⟨hfinished, houtput⟩ := hend
  subst hfinished
  exact ⟨p, m, hp, ⟨160, .finished, hrun, rfl⟩, houtput⟩

theorem compile_preserves_meaning_factorials : ∃ p, compile factorials = .ok p ∧ ∃ A literal mem, Source.IsTreeOf A factorials ∧
    A.Refers p literal ∧ A.Agrees literal p [] ∧ A.Ends literal p [] .normal mem ∧
      mem.console.output.toList = Bytes.ofString "621" := by
  obtain ⟨p, m, hp, hm, houtput⟩ := exists_ends_factorials
  obtain ⟨⟨A, hA⟩, hmeans⟩ := compile_preserves_meaning accepts_factorials.1 hp
  obtain ⟨literal, hrefers, hagrees⟩ := hmeans A hA
  have hagrees := hagrees [] fun m' hover => absurd (hm.unique hover).1 nofun
  obtain ⟨mem, hends, hshows⟩ := hagrees.ended hm
  exact ⟨p, hp, A, literal, mem, hA, hrefers, hagrees, hends, hshows.console ▸ houtput⟩

end OnePass

import OnePass.Proofs.Globals.Addresses

/-!
# Globals in the course of a run

A run is looked at together with the machines it has passed (`Machine.Passed`), of which those count that are about to load from a
global or to store to one. From step to step, the initializations before the place of the entry routine have been executed, and a
constant has been stored to by its initialization only (`Schedule.Observed`). So a constant never changes once it has its value,
and no global is read before its initial value is there (`compile_initializes_globals`).
-/

namespace OnePass

/-! ## Loads and stores -/

/-- The machine is about to execute this instruction, at this place of the function with this number. -/
structure Machine.Executes (m : Machine) (k place : Nat) (i : Instruction) : Prop where
  running : m.halted = false
  frames : ∃ frame F, m.frames = frame :: F ∧ frame.function = k ∧ frame.pc = place
  instruction : ∃ f, m.program.functions[k]? = some f ∧ f.code[place]? = some i

/-- The slot so far beneath the top of the stack is the address of the global. -/
def Machine.Addresses (m : Machine) (depth n : Nat) : Prop :=
  depth < m.sp ∧ ∃ a, m.stack[m.sp - 1 - depth]? = some a ∧ Address.region a = Address.globalRegion ∧ Address.index a = n

/-- The machine is about to load from the global. -/
def Machine.Loads (m : Machine) (k place n : Nat) : Prop := ∃ i, m.Executes k place i ∧ i.op = .load ∧ m.Addresses 0 n

/-- The machine is about to store to the global; the value lies above the address. -/
def Machine.Stores (m : Machine) (k place n : Nat) : Prop := ∃ i, m.Executes k place i ∧ i.op = .store ∧ m.Addresses 1 n

/-- The machines that a run of the program has passed on its way to this one, the latest first. -/
inductive Machine.Passed (p : Program) (input : Bytes) : List Machine → Machine → Prop where
  | start : Passed p input [] (.start p input)
  | step {past : List Machine} {m m' : Machine} (h : Passed p input past m) (hstep : m.step = (.ok (), m')) (steps : Nat) :
    Passed p input (m :: past) { m' with steps }

section

variable {p : Program} {D : Nat → Declared} {shape : Nat → Nat → Option Shape} {S : Schedule} {G : Array UInt64} {frame : Frame}
  {F : List Frame} {C : Console} {f : Function} {lower base top : List UInt64} {i : Instruction}
    {takes gives rest : Shape} {m : Machine}
  {u v : View} {k place c n : Nat}

theorem Machine.Shows.addresses_iff (hm : m.Shows p v) {below more : List UInt64} {a : UInt64}
    (hslots : v.slots = below ++ a :: more) :
    m.Addresses more.length n ↔ Address.region a = Address.globalRegion ∧ Address.index a = n := by
  have hlength : v.slots.length = below.length + (more.length + 1) := by rw [hslots, List.length_append, List.length_cons]
  have hplace : m.sp - 1 - more.length = below.length := by
    rw [hm.sp]
    omega
  have hget : m.stack[m.sp - 1 - more.length]? = some a := by
    rw [hplace, hm.getElem?_stack (Nat.le_refl _) (by omega), List.take_length, hslots,
      List.getElem?_append_right (Nat.le_refl _), Nat.sub_self]
    rfl
  constructor
  · rintro ⟨-, a', ha', hregion, hindex⟩
    cases hget.symm.trans ha'
    exact ⟨hregion, hindex⟩
  · intro h
    exact ⟨by rw [hm.sp]; omega, a, hget, h⟩

namespace Executing

theorem executes (h : Executing p D shape G frame F f lower base top i takes gives rest)
    (hm : m.Shows p ⟨G, lower ++ base ++ top, frame :: F, C⟩) : m.Executes frame.function frame.pc i :=
  ⟨hm.running, ⟨frame, F, hm.frames, rfl, rfl⟩, f, hm.program ▸ h.function, h.instruction⟩

/-- A store with the address of a global beneath its value. -/
theorem stores {x : UInt64} (h : Executing p D shape G frame F f lower base ([Address.ofGlobal n] ++ [x]) i takes gives rest)
    (hm : m.Shows p ⟨G, lower ++ base ++ ([Address.ofGlobal n] ++ [x]), frame :: F, C⟩) (hop : i.op = .store)
    (hn : n < p.globals.size) :
    m.Stores frame.function frame.pc n := by
  have hsmall := Nat.lt_trans hn h.sound.globals
  exact ⟨i, h.executes hm, hop, (hm.addresses_iff rfl).2 ⟨Address.region_ofGlobal hsmall, Address.index_ofGlobal hsmall⟩⟩

end Executing

/-- What a machine in a safe view is about to execute finds its operands on the stack. -/
theorem Machine.Executes.exists_executing (hp : p.Sound D shape) (hm : m.Shows p v) (hv : v.Safe p D shape)
    (h : m.Executes k c i) :
    ∃ frame F f lower base top takes gives rest, v.slots = lower ++ base ++ top ∧ v.frames = frame :: F ∧ frame.function = k ∧
      frame.pc = c ∧ Executing p D shape v.globals frame F f lower base top i takes gives rest := by
  obtain ⟨hG, frame, F, lower, operands, σ, hframes, hslots, hbased, hoperands, hσ⟩ := hv
  obtain ⟨frame', F', hframes', rfl, rfl⟩ := h.frames
  rw [hm.frames, hframes] at hframes'
  cases hframes'
  obtain ⟨f, hf, hi⟩ := h.instruction
  rw [hm.program] at hf
  obtain ⟨takes, gives, rest, rfl, hsteps⟩ := (hp.shaped hf).suits hi _ hσ
  obtain ⟨base, top, rfl, hbase, htop⟩ := hoperands.split
  exact ⟨frame, F, f, lower, base, top, takes, gives, rest, by rw [hslots, List.append_assoc], hframes, rfl, rfl,
    ⟨⟨hp, hG, hbased, hf⟩, hi, hσ, hsteps, hbase, htop⟩⟩

/-- An operand that is the address of a global, as the machine has it, is that global's. -/
theorem Machine.Addresses.eq_ofGlobal {a : Kind} {first : Nat} {more : List UInt64} {x : UInt64} (h : m.Addresses more.length n)
    (hp : p.Sound D shape) (hm : m.Shows p v) (hslots : v.slots = lower ++ base ++ x :: more)
    (hholds : a.Holds p.globals.size first lower.length x) (ha : a.IsAddress) : n < p.globals.size ∧ x = Address.ofGlobal n := by
  obtain ⟨hregion, hindex⟩ := (hm.addresses_iff hslots).1 h
  have hholds : (∃ n < p.globals.size, x = Address.ofGlobal n) ∨ ∃ n, first ≤ n ∧ n < lower.length ∧ x = Address.ofStack n := by
    rcases ha with rfl | rfl <;> exact hholds
  rcases hholds with ⟨j, hj, rfl⟩ | ⟨j, -, hj, rfl⟩
  · obtain rfl : j = n := (Address.index_ofGlobal (Nat.lt_trans hj hp.globals)).symm.trans hindex
    exact ⟨hj, rfl⟩
  · have hlength := hm.length_le
    rw [hslots, List.append_assoc, List.length_append] at hlength
    rw [Address.region_ofStack (by unfold stackSize at hlength; omega)] at hregion
    exact absurd hregion (by decide)

/-- Only a store changes a global. -/
theorem View.Works.exists_stores (hm : m.Shows p u) (h : u.Works p D shape v) (hchange : v.globals[n]? ≠ u.globals[n]?) :
    ∃ k c, m.Stores k c n := by
  cases h with
  | stay h _ _ _ _ _ hsets =>
    rcases hsets with rfl | ⟨hop, j, x, rfl, rfl⟩
    · exact absurd rfl hchange
    · rw [Array.getElem?_modify] at hchange
      split at hchange
      · rename_i hj
        subst hj
        have hn : j < p.globals.size := by
          rw [← h.globals]
          refine Nat.lt_of_not_le fun hge => hchange ?_
          rw [Array.getElem?_eq_none hge]
          rfl
        exact ⟨_, _, h.stores hm hop hn⟩
      · exact absurd rfl hchange
  | call | ret => exact absurd rfl hchange

/-! ## What a run does to globals -/

namespace Schedule.Stages

theorem eq_of_entry (h : S.Stages place (frame :: F)) (hentry : frame.function = 0) : frame.pc = place ∧ F = [] := by
  cases h with
  | entry _ hpc => exact ⟨hpc, rfl⟩
  | call hfunction => exact absurd hentry hfunction

theorem eq_of_length (h : S.Stages place (frame :: F)) (hlength : (frame :: F).length = 1) :
    frame.function = 0 ∧ frame.pc = place := by
  cases h with
  | entry hfunction hpc => exact ⟨hfunction, hpc⟩
  | call _ _ h => exact absurd (List.length_eq_zero_iff.1 (Nat.succ.inj hlength)) h.ne_nil

/-- What the innermost call may read has its value. -/
theorem done {home : Home} (h : S.Stages place (frame :: F)) (hreads : (S.access frame.function frame.pc).reads home)
    (hn : home.IsGlobal n) : S.Done n place := by
  cases h with
  | entry hfunction hpc =>
    rw [hfunction] at hreads
    exact hpc ▸ hreads n hn
  | call hfunction hopens _ =>
    obtain ⟨j, hj⟩ := Nat.exists_eq_succ_of_ne_zero hfunction
    rw [hj] at hreads hopens
    exact Schedule.Done.mono (hreads n hn) hopens

end Schedule.Stages

namespace View.Kept

theorem head {slots : List UInt64} (hkept : v.Kept p S shape place) (hframes : v.frames = frame :: F) (hslots : v.slots = slots) :
    frame.Kept p S shape slots ∧ S.Stages place (frame :: F) :=
  ⟨hslots ▸ hkept.frames frame (by rw [hframes]; exact List.mem_cons_self), hframes ▸ hkept.stages⟩

/-- A store to a constant is the end of its initialization. -/
theorem inits_of_stores (hS : p.Follows S) (hp : p.Sound D shape) (hkept : v.Kept p S shape place) (hm : m.Shows p v)
    (hv : v.Safe p D shape) (hconst : S.const n) (h : m.Stores k c n) :
    k = 0 ∧ c = place ∧ v.frames.length = 1 ∧ ∃ start, S.inits n start c := by
  obtain ⟨i, hexecutes, hop, haddress⟩ := h
  obtain ⟨frame, F, f, lower, base, top, takes, gives, rest, hslots, hframes, rfl, rfl, h⟩ := hexecutes.exists_executing hp hm hv
  obtain ⟨a, b, rfl, rfl, ha⟩ := h.steps.acts.of_store hop
  obtain ⟨address, x, rfl, hholds, -⟩ := h.taken.exists_two
  obtain ⟨hn, rfl⟩ := haddress.eq_ofGlobal hp hm hslots hholds ha.isAddress
  obtain ⟨hframe, hstages⟩ := hkept.head hframes hslots
  cases hentry : frame.function with
  | succ j =>
    have hawaits := hframe.store h ha.isAddress hn
    rw [hentry] at hawaits
    exact absurd hconst hawaits
  | zero =>
    obtain ⟨-, -, j, start, y, htop, hj, hinits⟩ := hframe.store_entry hS h hop hentry
    obtain ⟨hpc, rfl⟩ := hstages.eq_of_entry hentry
    have hindex := congrArg Address.index (List.cons.inj htop).1
    rw [Address.index_ofGlobal (Nat.lt_trans hn hp.globals), Address.index_ofGlobal (Nat.lt_trans hj hp.globals)] at hindex
    exact ⟨rfl, hpc, by rw [hframes]; rfl, start, hindex ▸ hinits⟩

/-- A load from a global comes after its initialization. -/
theorem done_of_loads (hS : p.Follows S) (hp : p.Sound D shape) (hkept : v.Kept p S shape place) (hm : m.Shows p v)
    (hv : v.Safe p D shape) (h : m.Loads k c n) : S.Done n place := by
  obtain ⟨i, hexecutes, hop, haddress⟩ := h
  obtain ⟨frame, F, f, lower, base, top, takes, gives, rest, hslots, hframes, rfl, rfl, h⟩ := hexecutes.exists_executing hp hm hv
  obtain ⟨a, b, rfl, rfl, ha⟩ := h.steps.acts.of_load hop
  obtain ⟨address, rfl, hholds⟩ := h.taken.exists_one
  obtain ⟨hn, rfl⟩ := haddress.eq_ofGlobal hp hm hslots hholds ha.isAddress
  obtain ⟨hframe, hstages⟩ := hkept.head hframes hslots
  obtain ⟨home, hhome, hreads⟩ := hframe.load hS h ha.isAddress hop hn
  exact hstages.done hreads hhome

/-- Where the entry routine steps over the end of an initialization, it stores to the global. -/
theorem stores_of_inits (hS : p.Follows S) (hkept : u.Kept p S shape place) (hm : m.Shows p u) (h : u.Works p D shape v)
    (hlength : u.frames.length = 1) {start : Nat} (hinits : S.inits n start place) : m.Stores 0 place n := by
  cases h with
  | stay h =>
    obtain ⟨hframe, hstages⟩ := hkept.head rfl rfl
    obtain ⟨hentry, rfl⟩ := hstages.eq_of_length hlength
    have hop := h.op_of_inits hS hentry hinits
    obtain ⟨-, -, n', first, x, rfl, hn, hinits'⟩ := hframe.store_entry hS h hop hentry
    have hstores := h.stores hm hop hn
    obtain ⟨rfl, -, -⟩ := hS.apart hinits hinits' (hS.store hinits').1 (Nat.le_refl _)
    rwa [hentry] at hstores
  | call h hcall =>
    obtain ⟨-, hstages⟩ := hkept.head rfl rfl
    obtain ⟨hentry, rfl⟩ := hstages.eq_of_length hlength
    rw [h.op_of_inits hS hentry hinits] at hcall
    cases hcall
  | ret => cases hlength

end View.Kept

/-- What the machines that a run has passed have done, where the entry routine stands at this place. -/
structure Schedule.Observed (S : Schedule) (past : List Machine) (place : Nat) : Prop where
  done {n start stop : Nat} (h : S.inits n start stop) (hstop : stop < place) : ∃ m ∈ past, m.Stores 0 stop n
  const {n : Nat} (h : S.const n) {m : Machine} (hm : m ∈ past) {k c : Nat} (hstores : m.Stores k c n) :
    c < place ∧ ∃ start, S.inits n start c

/-- The run is over, or at a view that the machines it has passed lead to. -/
def Schedule.Accounts (S : Schedule) (p : Program) (D : Nat → Declared) (shape : Nat → Nat → Option Shape) (past : List Machine)
    (m : Machine) : Prop :=
  m.halted = true ∨ ∃ v place, m.Shows p v ∧ v.Safe p D shape ∧ v.Kept p S shape place ∧ S.Observed past place

theorem Schedule.Observed.step {past : List Machine} (hS : p.Follows S) (hp : p.Sound D shape) (hpast : S.Observed past place)
    (hm : m.Shows p u) (hu : u.Safe p D shape) (hkept : u.Kept p S shape place) (h : u.Works p D shape v) :
    S.Observed (m :: past) (Stages.next u.frames place) where
  done {n start stop} hinits hstop := by
    rcases Nat.lt_or_ge stop place with hlt | hge
    · obtain ⟨m', hm', hstores⟩ := hpast.done hinits hlt
      exact ⟨m', List.mem_cons_of_mem _ hm', hstores⟩
    · unfold Stages.next at hstop
      split at hstop
      · rename_i hlength
        obtain rfl : stop = place := by omega
        exact ⟨m, List.mem_cons_self, hkept.stores_of_inits hS hm h hlength hinits⟩
      · omega
  const {n} hconst {m'} hm' {k c} hstores := by
    rcases List.mem_cons.1 hm' with rfl | hm'
    · obtain ⟨-, rfl, hlength, hinits⟩ := hkept.inits_of_stores hS hp hm hu hconst hstores
      rw [Stages.next, if_pos hlength]
      exact ⟨Nat.lt_succ_self _, hinits⟩
    · obtain ⟨hlt, hinits⟩ := hpast.const hconst hm' hstores
      exact ⟨Nat.lt_of_lt_of_le hlt (Stages.le_next ..), hinits⟩

namespace Schedule.Accounts

variable {past : List Machine} {input : Bytes}

theorem start (hp : p.Sound D shape) : S.Accounts p D shape [] (.start p input) := by
  obtain ⟨v, hm, hv⟩ := hp.start input
  obtain ⟨f, hf, -⟩ := hp.entry.2
  have hframes : v.frames = [{ function := 0 }] := by
    have hrunning : p.functions.isEmpty = false := hm.running
    rw [← hm.frames]
    change (if p.functions.isEmpty then [] else [({ function := 0 } : Frame)]) = _
    rw [hrunning]
    rfl
  refine .inr ⟨v, 0, hm, hv, ⟨fun frame hframe => ?_, hframes ▸ .entry rfl rfl⟩,
    ⟨fun _ hstop => absurd hstop (Nat.not_lt_zero _), nofun⟩⟩
  rw [hframes] at hframe
  obtain rfl := List.mem_singleton.1 hframe
  exact .of_empty (hp.shaped hf).start

section

variable (hS : p.Follows S) (hp : p.Sound D shape)

include hS hp

theorem step (h : S.Accounts p D shape past m) {m' : Machine} (hstep : m.step = (.ok (), m'))
    (steps : Nat) : S.Accounts p D shape (m :: past) { m' with steps } := by
  rcases h with hhalted | ⟨v, place, hm, hv, hkept, hpast⟩
  · rw [Machine.step, if_pos hhalted] at hstep
    cases hstep
    exact .inl hhalted
  · rcases hp.step hm hv with ⟨hhalt, -, -⟩ | ⟨r, m'', v', hstep', hm', houtcome⟩
    · rw [hhalt] at hstep
      cases hstep
      exact .inl rfl
    · rw [hstep'] at hstep
      cases hstep
      have hworks := houtcome.works rfl
      exact .inr ⟨v', _, hm'.count steps, houtcome.safe rfl, hkept.works hS hworks, hpast.step hS hp hm hv hkept hworks⟩

theorem of_passed (h : Machine.Passed p input past m) : S.Accounts p D shape past m := by
  induction h with
  | start => exact start hp
  | step h hstep steps ih => exact ih.step hS hp hstep steps

/-- A constant is stored to once. -/
theorem once (h : S.Accounts p D shape past m) (hconst : S.const n) (hstores : m.Stores k c n) :
    k = 0 ∧ (∃ start, S.inits n start c) ∧ ∀ m' ∈ past, ∀ k' c', ¬ m'.Stores k' c' n := by
  rcases h with hhalted | ⟨v, place, hm, hv, hkept, hpast⟩
  · obtain ⟨i, hexecutes, -⟩ := hstores
    rw [hexecutes.running] at hhalted
    cases hhalted
  · obtain ⟨rfl, rfl, -, start, hinits⟩ := hkept.inits_of_stores hS hp hm hv hconst hstores
    refine ⟨rfl, ⟨start, hinits⟩, fun m' hm' k' c' hstores' => ?_⟩
    obtain ⟨hlt, start', hinits'⟩ := hpast.const hconst hm' hstores'
    exact absurd (hS.once hinits hinits') (Nat.ne_of_lt hlt)

/-- A global that is loaded from has its initial value. -/
theorem exists_stores (h : S.Accounts p D shape past m) {first last : Nat}
    (hinits : S.inits n first last) (hloads : m.Loads k c n) : ∃ m' ∈ past, m'.Stores 0 last n := by
  rcases h with hhalted | ⟨v, place, hm, hv, hkept, hpast⟩
  · obtain ⟨i, hexecutes, -⟩ := hloads
    rw [hexecutes.running] at hhalted
    cases hhalted
  · exact hpast.done hinits (hkept.done_of_loads hS hp hm hv hloads hinits)

end

theorem changes (hp : p.Sound D shape) (h : S.Accounts p D shape past m) {m' : Machine} (hstep : m.step = (.ok (), m'))
    (hchange : m'.globals[n]? ≠ m.globals[n]?) : ∃ k c, m.Stores k c n := by
  rcases h with hhalted | ⟨v, place, hm, hv, -, -⟩
  · rw [Machine.step, if_pos hhalted] at hstep
    cases hstep
    exact absurd rfl hchange
  · rcases hp.step hm hv with ⟨hhalt, -, -⟩ | ⟨r, m'', v', hstep', hm', houtcome⟩
    · rw [hhalt] at hstep
      cases hstep
      exact absurd rfl hchange
    · rw [hstep'] at hstep
      cases hstep
      rw [hm'.globals, hm.globals] at hchange
      exact (houtcome.works rfl).exists_stores hm hchange

end Schedule.Accounts

end

/-! ## Compiled programs -/

theorem Declaration.isSome_value? (d : Declaration) (h : d.isConst = true) : d.value?.isSome = true := by
  cases d with
  | «variable» => cases h
  | constant => rfl

namespace Source

/-- The place of the entry routine at which its code for these definitions ends. -/
def lastPlace? (A : Source) : Option Nat := (A.outputs.run start).map fun r => (entryOf r.1).length - 1

/-- In every run of a program, the global in this slot is used as its declaration asks for, which stands behind these definitions. -/
structure Initializes (pre : Source) (d : Declaration) (p : Program) (slot : Nat) : Prop where
  /-- The variable has this slot and no other. -/
  unique (n : Nat) : p.globals[n]? = some { const := d.isConst, name := d.name } ↔ n = slot
  /-- A constant is stored to at most once, by the entry routine, where the code of its declaration ends. -/
  once {input : Bytes} {past : List Machine} {m : Machine} (h : Machine.Passed p input past m)
    (hconst : d.isConst = true) {k place : Nat} (hstores : m.Stores k place slot) :
    k = 0 ∧ lastPlace? (pre ++ [.global d]) = some place ∧ ∀ m' ∈ past, ∀ k' place', ¬ m'.Stores k' place' slot
  /-- A variable with an initial value, and so every constant, is not loaded from before the entry routine has stored the value. -/
  first {input : Bytes} {past : List Machine} {m : Machine} (h : Machine.Passed p input past m)
    (hvalue : d.value?.isSome = true) {k c : Nat} (hloads : m.Loads k c slot) :
    ∃ place, lastPlace? (pre ++ [.global d]) = some place ∧ ∃ m' ∈ past, m'.Stores 0 place slot
  /-- Nothing but a store changes it. -/
  changes {input : Bytes} {past : List Machine} {m m' : Machine} (h : Machine.Passed p input past m)
    (hstep : m.step = (.ok (), m')) (hchange : m'.globals[slot]? ≠ m.globals[slot]?) : ∃ k place, m.Stores k place slot

/-- A tree that translates is laid out from its outputs. -/
theorem exists_lays {A : Source} {p : Program} (hg : A.Grouped) (h : A.translate = some p) (hsize : A.yield.length < 2 ^ 60) :
    ∃ P outputs c, A.outputs.run start = some (outputs, c) ∧ A.Makes P p ∧ A.Lays P outputs p := by
  obtain ⟨outputs, c, returns, number, slot, houtputs, hemits, hmain, hpool, hp⟩ := Source.exists_outputs hg h
  have hmakes : A.Makes c.pool p := ⟨hpool, by rw [hp], outputs, c.names, returns, number, slot, hemits, hmain, by rw [hp]⟩
  exact ⟨c.pool, outputs, c, houtputs, hmakes, hpool, hmakes.small hsize, (Source.exists_translate_iff hg).1 ⟨p, h⟩,
    c.names, returns, number, slot, hemits, hmain, by rw [hp]⟩

namespace Lays

variable {P : List PoolEntry} {pre post : Source} {d : Declaration} {outputs : List Output} {c : Context} {p : Program}

/-- A global has a slot, and its initialization ends where its code does. -/
theorem exists_slot (h : Source.Lays (pre ++ .global d :: post) P outputs p)
    (hrun : (Source.outputs (pre ++ .global d :: post)).run start = some (outputs, c)) :
    ∃ slot, P[slot]? = some (.variable d.isConst d.name) ∧
      (d.value?.isSome = true → ∃ first last, (schedule P outputs).inits slot first last ∧
        lastPlace? (pre ++ [.global d]) = some last) := by
  rw [List.append_cons] at hrun
  obtain ⟨front, c1, after, hfront, -, -, rfl⟩ := run_outputs_append hrun
  obtain ⟨before, c2, own, -, hlength, hown, rfl⟩ := run_outputs_append hfront
  obtain ⟨output, c3, -, hown⟩ := Translation.run_bind_some_iff.1 hown
  cases hown
  have houtputs : before ++ [output] ++ after = before ++ output :: after := List.append_assoc ..
  rw [houtputs] at h ⊢
  obtain ⟨N, returns, number, slot, hA, -, -⟩ := h.functions
  obtain ⟨before', output', after', N1, entry, hsame, hpre, hd, -⟩ := hA.exists_output
  obtain ⟨-, htail⟩ := List.append_inj hsame (hlength.trans hpre.length_eq.symm)
  obtain ⟨rfl, rfl⟩ := List.cons.inj htail
  cases hd with
  | @«global» _ slot code hslot hd =>
    refine ⟨slot, hslot, fun hvalue => ?_⟩
    cases hd with
    | bare _ hnone =>
      rw [hnone] at hvalue
      cases hvalue
    | @value e body _ _ he =>
      refine ⟨_, _, ⟨before, (Home.global slot).address, body, after, rfl,
        toInt_operand_address (Nat.lt_trans (List.getElem?_eq_some_iff.1 hslot).1 h.small.pool), rfl, rfl⟩, ?_⟩
      rw [lastPlace?, hfront, Option.map_some]
      refine congrArg some ?_
      simp only [entryOf_append, entryOf_entry, show entryOf [] = [] from rfl, List.length_append,
        List.length_cons, List.length_nil]
      omega

theorem getElem?_globals (h : Source.Lays (pre ++ .global d :: post) P outputs p) {slot : Nat}
    (hslot : P[slot]? = some (.variable d.isConst d.name)) (n : Nat) :
    p.globals[n]? = some { const := d.isConst, name := d.name } ↔ n = slot := by
  obtain ⟨N, returns, number, main, hA, -, -⟩ := h.functions
  rw [h.small.globals]
  exact DistinctVariables.getElem?_iff (hA.distinctVariables h.pool) hslot n

/-- In the runs of a sound program that is laid out so, a global is used as it is declared. -/
theorem exists_initializes {D : Nat → Declared} {shape : Nat → Nat → Option Shape} (hp : p.Sound D shape)
    (h : Source.Lays (pre ++ .global d :: post) P outputs p)
    (hrun : (Source.outputs (pre ++ .global d :: post)).run start = some (outputs, c)) :
      ∃ slot, Source.Initializes pre d p slot := by
  obtain ⟨slot, hslot, hinits⟩ := h.exists_slot hrun
  have haccounts {input : Bytes} {past : List Machine} {m : Machine} (hpassed : Machine.Passed p input past m) :
      (schedule P outputs).Accounts p D shape past m := .of_passed h.follows hp hpassed
  refine ⟨slot, h.getElem?_globals hslot, fun {input past m} hpassed hconst {k place} hstores => ?_,
    fun {input past m} hpassed hvalue {k c} hloads => ?_, fun hpassed => (haccounts hpassed).changes hp⟩
  · obtain ⟨rfl, ⟨start, hplace⟩, hpast⟩ := (haccounts hpassed).once h.follows hp ⟨d.name, hconst ▸ hslot⟩ hstores
    obtain ⟨first, last, hinits, hlast⟩ := hinits (d.isSome_value? hconst)
    exact ⟨rfl, h.follows.once hplace hinits ▸ hlast, hpast⟩
  · obtain ⟨first, last, hinits, hlast⟩ := hinits hvalue
    exact ⟨last, hlast, (haccounts hpassed).exists_stores h.follows hp hinits hloads⟩

end Lays

end Source

/-- In the runs of a compiled program every global is used as it is declared: a constant is stored to at most once, which its
initializer in the entry routine does, and a global with an initializer is not loaded from before the initializer has stored its
value, whatever is called meanwhile. (No text of `2 ^ 60` bytes fits into memory.) -/
theorem compile_initializes_globals {source : Bytes} {p : Program} (hsize : source.length < 2 ^ 60) (h : compile source = .ok p) :
    (∃ A : Source, A.IsTreeOf source) ∧ ∀ A : Source, A.IsTreeOf source → ∀ (pre post : Source) (d : Declaration),
      A = pre ++ .global d :: post → ∃ slot, Source.Initializes pre d p slot := by
  refine ⟨Source.exists_isTreeOf h, fun A hA pre post d hd => ?_⟩
  have htranslate := Source.toOption_compile hA
  rw [h] at htranslate
  have hyield := Nat.lt_of_le_of_lt hA.length_yield_le hsize
  obtain ⟨P, outputs, c, hrun, hmakes, hlays⟩ := Source.exists_lays hA.grouped htranslate.symm hyield
  obtain ⟨shape, hsound⟩ := hmakes.exists_sound hyield
  subst hd
  exact hlays.exists_initializes hsound hrun

/-- A source with a constant, and a variable whose initial value is computed by a function that reads the constant. -/
def scaling : Bytes := Bytes.ofString
  "const base: int = 3; fn scale(x: int) -> int { return x * base; } let size: int = scale(base); fn main() -> void { putint(size); }"

/-- The constant of the source. -/
def scalingBase : Declaration := .constant (Bytes.ofString "base") .int (.int 3)

/-- The function of the source that reads the constant. -/
def scalingFunction : Definition :=
  .function (Bytes.ofString "scale") [{ const := false, name := Bytes.ofString "x", type := .int }] .int
    (.cons (.return (some (.binary .mul (.name (Bytes.ofString "x")) (.name (Bytes.ofString "base"))))) .nil)

/-- The variable of the source. -/
def scalingSize : Declaration :=
  .variable (Bytes.ofString "size") .int (some (.call (Bytes.ofString "scale") (.cons (.name (Bytes.ofString "base")) .nil)))

/-- The main function of the source. -/
def scalingMain : Definition :=
  .function (Bytes.ofString "main") [] .void
    (.cons (.effect (.call (Bytes.ofString "putint") (.cons (.name (Bytes.ofString "size")) .nil))) .nil)

theorem compile_initializes_globals_scaling : ∃ p, compile scaling = .ok p ∧ (∃ slot, Source.Initializes [] scalingBase p slot) ∧
    ∃ slot, Source.Initializes [.global scalingBase, scalingFunction] scalingSize p slot := by
  have hsome : (compile scaling).toOption.isSome = true := by decide +kernel
  have htree : Source.IsTreeOf [.global scalingBase, scalingFunction, .global scalingSize, scalingMain] scaling := by
    refine ⟨?_, by decide +kernel, by decide +kernel⟩
    simp [Source.Grouped, scalingBase, scalingFunction, scalingSize, scalingMain, Definition.Grouped,
      Declaration.Grouped, Declaration.value?,
      Expr.Grouped, Args.Grouped, Stmt.Grouped, Block.Grouped, Expr.level, Expr.endsOpen, Operator.level]
  rcases hp : compile scaling with e | p
  · rw [hp] at hsome
    cases hsome
  · have h := (compile_initializes_globals (by decide +kernel) hp).2 _ htree
    exact ⟨p, rfl, h [] _ scalingBase rfl, h [.global scalingBase, scalingFunction] _ scalingSize rfl⟩

end OnePass

import OnePass.Proofs.Binary.Portable
import OnePass.Proofs.Machine.Laws

/-!
# Binaries run like the programs they keep

A machine looks at its program in three places only: for the code of functions, for the text to print and for the name of a
primitive. A binary keeps all that, if calls of primitives go by globals with a value, so that a machine on the program of a
binary goes through the same states as one on the program itself (`compile_runs_from_binary`).
-/

namespace OnePass

/-- The machine with another program. -/
abbrev Machine.withProgram (q : Program) (m : Machine) : Machine := { m with program := q }

/-- Nothing but the program differs, which was and is `p` in the first machine and is `q` in the second. -/
def SameBut {α : Type} (p q : Program) (r r' : Except MachineFault α × Machine) : Prop :=
  r.2.program = p ∧ r' = (r.1, r.2.withProgram q)

/-- The program `q` has all of `p` that matters to a machine: the functions, the texts and the names of the primitives called. -/
structure Program.KeptBy (p q : Program) : Prop where
  functions : q.functions = p.functions
  payload (n : Nat) : q.globals[n]?.map Global.payload = p.globals[n]?.map Global.payload
  routine {f : Function} {i : Instruction} (hf : f ∈ p.functions) (hi : i ∈ f.code) (hop : i.op = .callName) :
    q.globals[i.operand.toInt.toNat]?.map Global.value = p.globals[i.operand.toInt.toNat]?.map Global.value

namespace Exec

variable {α β : Type} {p q : Program}

/-- The part of a step does the same for `q` as for `p`, and leaves the program alone. -/
def Agrees (p q : Program) (x : Exec α) : Prop := ∀ m : Machine, m.program = p → SameBut p q (x.run m) (x.run (m.withProgram q))

namespace Agrees

/-! ## Parts of a step, one after another -/

theorem pure (a : α) : Agrees p q (pure a) := fun _ h => ⟨h, rfl⟩

theorem throw (f : MachineFault) : Agrees p q (throw f : Exec α) := fun _ h => ⟨h, rfl⟩

theorem bind {x : Exec α} {f : α → Exec β} (hx : Agrees p q x) (hf : ∀ a, Agrees p q (f a)) : Agrees p q (x >>= f) := by
  intro m h
  obtain ⟨hprogram, hrun⟩ := hx m h
  rw [run_bind, run_bind, hrun]
  revert hprogram
  rcases x.run m with ⟨_ | a, m'⟩
  · exact fun hprogram => ⟨hprogram, rfl⟩
  · exact hf a m'

/-- A look at the machine. -/
theorem get_bind {f : Machine → Exec β}
    (hf : ∀ m : Machine, m.program = p → SameBut p q ((f m).run m) ((f (m.withProgram q)).run (m.withProgram q))) :
    Agrees p q (get >>= f) := by
  intro m h
  rw [run_get_bind, run_get_bind]
  exact hf m h

theorem update {g : Machine → Machine} (hg : ∀ m : Machine, (g m).program = m.program ∧
    g (m.withProgram q) = (g m).withProgram q) :
    Agrees p q (modify g) := by
  intro m h
  refine ⟨(hg m).1.trans h, ?_⟩
  change (Except.ok (), g (m.withProgram q)) = _
  rw [(hg m).2]
  rfl

/-- A check whose outcome does not hang on the program, before the rest of a step. -/
theorem check {c : Prop} [Decidable c] {f : MachineFault} {x : Exec α} (hx : Agrees p q x) :
    Agrees p q (if c then (MonadExcept.throw f : Exec Unit) >>= fun _ => x else x) := by
  split
  · exact bind (throw f) fun _ => hx
  · exact hx

/-! ## The stack -/

theorem push (x : UInt64) : Agrees p q (push x) := by
  refine get_bind fun m h => ?_
  dsimp only
  split <;> exact ⟨h, rfl⟩

theorem pop : Agrees p q pop := by
  refine get_bind fun m h => ?_
  dsimp only
  split
  · exact ⟨h, rfl⟩
  · split <;> exact ⟨h, rfl⟩

theorem top : Agrees p q top := by
  refine get_bind fun m h => ?_
  dsimp only
  split
  · exact ⟨h, rfl⟩
  · split <;> exact ⟨h, rfl⟩

theorem setTop (x : UInt64) : Agrees p q (setTop x) := by
  refine get_bind fun m h => ?_
  dsimp only
  split <;> exact ⟨h, rfl⟩

theorem read (a : UInt64) : Agrees p q (read a) := by
  refine get_bind fun m h => ?_
  dsimp only
  split
  · exact ⟨h, rfl⟩
  · split
    · split <;> exact ⟨h, rfl⟩
    · exact ⟨h, rfl⟩

theorem write (a x : UInt64) : Agrees p q (write a x) := by
  refine get_bind fun m h => ?_
  dsimp only
  split
  · exact ⟨h, rfl⟩
  · split
    · split <;> exact ⟨h, rfl⟩
    · exact ⟨h, rfl⟩

theorem jump (pc : Nat) : Agrees p q (jump pc) := by
  refine update fun m => ?_
  rcases m with ⟨_, _, _, _, _ | ⟨_, _⟩, _, _, _⟩ <;> exact ⟨rfl, rfl⟩

theorem branch (next : Nat) (f : Function) (distance : Int64) : Agrees p q (branch next f distance) := check (jump _)

/-! ## Primitives -/

theorem print (b : Bytes) : Agrees p q (print b) := update fun _ => ⟨rfl, rfl⟩

variable (hkept : p.KeptBy q)

include hkept

theorem printGlobal (index : UInt64) : Agrees p q (printGlobal index) := by
  refine get_bind fun m h => ?_
  have hpayload := hkept.payload index.toNat
  simp only [h]
  rcases hp : p.globals[index.toNat]? with _ | g <;> rw [hp] at hpayload
  · rw [Option.map_none, Option.map_eq_none_iff] at hpayload
    rw [hpayload]
    exact ⟨h, rfl⟩
  · obtain ⟨g', hg', hsame⟩ := Option.map_eq_some_iff.1 hpayload
    rw [hg']
    simp only [hsame]
    exact print _ m h

/-- That the program does not matter is a law of steps. -/
theorem law : Law (Agrees p q) where
  pure := pure
  throw _ := throw _
  bind := bind
  push := push
  pop := pop
  top := top
  setTop := setTop
  read := read
  write := write
  print := print
  printGlobal := printGlobal hkept
  take _ _ h := ⟨h, rfl⟩

theorem invoke (primitive : Primitive) : Agrees p q (invoke primitive) :=
  get_bind fun m h => check (check ((law hkept).carryOut primitive)) m h

theorem callPrimitive {operand : Int}
    (hvalue : q.globals[operand.toNat]?.map Global.value = p.globals[operand.toNat]?.map Global.value) :
    Agrees p q (callPrimitive operand) := by
  refine get_bind fun m h => ?_
  simp only [h]
  by_cases hneg : operand < 0
  · simp only [if_pos hneg]
    exact ⟨h, rfl⟩
  · simp only [if_neg hneg]
    rcases hp : p.globals[operand.toNat]? with _ | g <;> rw [hp] at hvalue
    · rw [Option.map_none, Option.map_eq_none_iff] at hvalue
      rw [hvalue]
      exact ⟨h, rfl⟩
    · obtain ⟨g', hg', hsame⟩ := Option.map_eq_some_iff.1 hvalue
      rw [hg']
      simp only [hsame]
      cases Primitive.ofName? (g.value.getD []) with
      | none => exact ⟨h, rfl⟩
      | some primitive => exact invoke hkept primitive m h

/-! ## Instructions -/

theorem enter (operand : Int) : Agrees p q (enter operand) := by
  refine get_bind fun m h => ?_
  simp only [h, hkept.functions]
  split
  · exact ⟨h, rfl⟩
  · rename_i f hf
    by_cases hargs : m.sp < f.header.params.toNat + f.header.returns.toNat
    · simp only [if_pos hargs]
      exact ⟨h, rfl⟩
    · simp only [if_neg hargs]
      refine bind ((law hkept).pushZeros _) (fun _ => update ?_) m h
      exact fun _ => ⟨rfl, rfl⟩

theorem execute {f : Function} {i : Instruction} (hf : f ∈ p.functions) (hi : i ∈ f.code) (frame : Frame) (next : Nat) :
    Agrees p q (execute frame f next i) := by
  by_cases hplain : i.op.isPlain = true
  · exact (law hkept).execute hplain frame f next
  unfold Exec.execute
  cases hop : i.op with
  | popN =>
    refine get_bind fun m h => check (update ?_) m h
    exact fun _ => ⟨rfl, rfl⟩
  | globA => exact get_bind fun m h => check (push _) m h
  | br => exact branch _ _ _
  | brFalse | brTrue =>
    refine bind pop fun _ => ?_
    split
    · exact branch _ _ _
    · exact pure ()
  | call => exact enter hkept _
  | ret => exact update fun _ => ⟨rfl, rfl⟩
  | callName => exact callPrimitive hkept (hkept.routine hf hi hop)
  | _ => exact absurd (congrArg Opcode.isPlain hop) hplain

theorem advance (frame : Frame) : Agrees p q (advance frame) := by
  refine get_bind fun m h => ?_
  simp only [h, hkept.functions]
  rcases hf : p.functions[frame.function]? with _ | f
  · exact ⟨h, rfl⟩
  · rcases hi : f.code[frame.pc]? with _ | i
    · by_cases hlast : m.frames.length = 1
      · simp only [hi, if_pos hlast]
        exact ⟨rfl, rfl⟩
      · simp only [hi, if_neg hlast]
        exact ⟨h, rfl⟩
    · simp only [hi]
      exact bind (jump _) (fun _ => execute hkept (Array.mem_of_getElem? hf) (Array.mem_of_getElem? hi) frame _) m h

end Agrees

end Exec

/-! ## Runs -/

namespace Machine

variable {p q : Program}

theorem step_withProgram (hkept : p.KeptBy q) {m : Machine} (h : m.program = p) : SameBut p q m.step (m.withProgram q).step := by
  unfold Machine.step
  by_cases hhalted : m.halted = true
  · simp only [if_pos hhalted]
    exact ⟨h, rfl⟩
  · simp only [if_neg hhalted]
    rcases hframes : m.frames with _ | ⟨frame, frames⟩
    · exact ⟨h, rfl⟩
    · exact Exec.Agrees.advance hkept frame m h

/-- A run with the other program goes through the same states. -/
theorem run_withProgram (hkept : p.KeptBy q) (limit : Int) (budget : Nat) {m : Machine} (h : m.program = p) :
    (m.withProgram q).run limit budget = ((m.run limit budget).1, (m.run limit budget).2.withProgram q) := by
  induction budget generalizing m with
  | zero => rfl
  | succ budget ih =>
    rw [run, run]
    by_cases hhalted : m.halted = true
    · simp only [if_pos hhalted]
    · simp only [if_neg hhalted]
      by_cases hlimit : 0 < limit ∧ limit ≤ m.steps
      · simp only [if_pos hlimit]
      · simp only [if_neg hlimit]
        obtain ⟨hprogram, hstep⟩ := step_withProgram hkept h
        rw [hstep]
        revert hprogram
        rcases m.step with ⟨f | _, m'⟩
        · exact fun _ => rfl
        · exact fun hprogram => ih (m := { m' with steps := m'.steps + 1 }) hprogram

end Machine

/-! ## Compiled programs -/

section

variable {P : List PoolEntry} {A : Source} {p : Program}

theorem Source.Makes.keptBy_erased (h : A.Makes P p) (hsize : A.yield.length < 2 ^ 28) : p.KeptBy p.erased := by
  refine ⟨rfl, fun n => ?_, fun {f i} hf hi hop => ?_⟩
  · simp only [Program.erased, Array.getElem?_map, Option.map_map]
    rfl
  · obtain ⟨k, hk⟩ := Array.mem_iff_getElem?.1 hf
    obtain ⟨slot, x, hslot, hentry⟩ := (h.portable_code hsize hk i (Array.mem_toList_iff.2 hi)).routine hop
    have hglobal : p.globals[slot]? = some (PoolEntry.primitive x).global := by
      rw [h.globals, List.getElem?_toArray, List.getElem?_map, hentry]
      rfl
    simp only [hslot, Int.toNat_natCast, Program.erased, Array.getElem?_map, hglobal]
    rfl

/-- A machine about to run the program of a binary is like one about to run the program itself. -/
theorem Machine.start_erased (p : Program) (input : Bytes) :
    Machine.start p.erased input = (Machine.start p input).withProgram p.erased := by
  simp [Machine.start, Program.erased]

end

/-- A compiled program can be written into a binary and read back, if no text in it is longer than a binary may have it, and the
program that is read runs like the one compiled: after any number of steps, with any limit on them, a machine is in the same
state, has written the same and has failed in the same way. -/
theorem compile_runs_from_binary {source : Bytes} {p : Program} (hsize : source.length < 2 ^ 28) (h : compile source = .ok p) :
    (∃ A : Source, A.IsTreeOf source) ∧ ∀ A : Source, A.IsTreeOf source → A.ShortTexts →
      ∃ b q, Binary.write p = .ok b ∧ Binary.read b = .ok q ∧ ∀ (input : Bytes) (limit : Int) (budget : Nat),
        (Machine.start q input).run limit budget =
          (((Machine.start p input).run limit budget).1, { ((Machine.start p input).run limit budget).2 with program := q }) := by
  refine ⟨Source.exists_isTreeOf h, fun A hA htexts => ?_⟩
  obtain ⟨P, hmakes⟩ := hA.exists_makes h
  have hyield := Nat.lt_of_le_of_lt hA.length_yield_le hsize
  obtain ⟨b, hwrite, hread⟩ := hmakes.exists_write hyield htexts
  refine ⟨b, p.erased, hwrite, hread, fun input limit budget => ?_⟩
  rw [Machine.start_erased]
  exact Machine.run_withProgram (hmakes.keptBy_erased hyield) limit budget rfl

theorem compile_runs_from_binary_factorials : ∃ (p : Program) (A : Source) (b : Bytes) (q : Program), compile factorials = .ok p ∧
    A.IsTreeOf factorials ∧ A.ShortTexts ∧ Binary.write p = .ok b ∧ Binary.read b = .ok q ∧
    ∀ (input : Bytes) (limit : Int) (budget : Nat), (Machine.start q input).run limit budget =
      (((Machine.start p input).run limit budget).1, { ((Machine.start p input).run limit budget).2 with program := q }) := by
  obtain ⟨p, hp⟩ := exists_compile_factorials
  obtain ⟨⟨A, hA⟩, hruns⟩ := compile_runs_from_binary accepts_factorials.1 hp
  have htexts : A.ShortTexts := hA.shortTexts (by decide +kernel)
  obtain ⟨b, q, hwrite, hread, hrun⟩ := hruns A hA htexts
  exact ⟨p, A, b, q, hp, hA, htexts, hwrite, hread, hrun⟩

end OnePass

import Mathlib.Logic.Relation
import OnePass.Proofs.Machine.Laws

/-!
# What a step can change

Every part of a step is a row of small changes (`Machine.Change`): of the slots, of the globals, of the calls, of what has been
written and of what is still to be read. What each of them leaves alone, a step leaves alone (`Machine.becomes_step`).
-/

namespace OnePass

/-- A small change to a machine. Its program and its count of steps are not among what changes. -/
inductive Machine.Change (m : Machine) : Machine → Prop where
  | slots (stack : Vector UInt64 stackSize) (sp : Nat) : Change m { m with stack, sp }
  | globals (globals : Array UInt64) : Change m { m with globals }
  | calls (frames : List Frame) (sp : Nat) (halted : Bool) : Change m { m with frames, sp, halted }
  | writes (b : Bytes) : Change m { m with console := m.console.write b }
  | reads (input : Bytes) : Change m { m with console := { m.console with input } }

/-- Small changes, one after another, lead from the first machine to the second. -/
abbrev Machine.Becomes : Machine → Machine → Prop := Relation.ReflTransGen Machine.Change

namespace Exec

variable {α β : Type}

/-- All that the part of a step does are small changes, also when it fails. -/
def Changes (x : Exec α) : Prop := ∀ m : Machine, m.Becomes (x.run m).2

namespace Changes

/-! ## Parts of a step, one after another -/

theorem pure (a : α) : Changes (pure a) := fun _ => .refl

theorem throw (e : MachineFault) : Changes (throw e : Exec α) := fun _ => .refl

theorem bind {x : Exec α} {f : α → Exec β} (hx : Changes x) (hf : ∀ a, Changes (f a)) : Changes (x >>= f) := by
  intro m
  have hbecomes := hx m
  rw [run_bind]
  revert hbecomes
  rcases x.run m with ⟨e | a, m'⟩
  · exact fun hbecomes => hbecomes
  · exact fun hbecomes => hbecomes.trans (hf a m')

/-- A look at the machine. -/
theorem get_bind {f : Machine → Exec β} (hf : ∀ m : Machine, m.Becomes ((f m).run m).2) : Changes (get >>= f) := by
  intro m
  rw [run_get_bind]
  exact hf m

theorem modify {g : Machine → Machine} (hg : ∀ m : Machine, m.Becomes (g m)) : Changes (modify g) := hg

/-- A check before the rest of a step. -/
theorem check {c : Prop} [Decidable c] {e : MachineFault} {x : Exec α} {m : Machine} (hx : m.Becomes (x.run m).2) :
    m.Becomes ((if c then (MonadExcept.throw e : Exec Unit) >>= fun _ => x else x).run m).2 := by
  split
  · exact .refl
  · exact hx

/-! ## The stack -/

theorem push (x : UInt64) : Changes (push x) := by
  refine get_bind fun m => ?_
  split
  · exact .single (.slots _ _)
  · exact throw _ m

theorem pop : Changes pop := by
  refine get_bind fun m => check ?_
  split <;> exact .single (.slots _ _)

theorem top : Changes top := by
  refine get_bind fun m => check ?_
  split
  · exact pure _ m
  · exact throw _ m

theorem setTop (x : UInt64) : Changes (setTop x) := by
  refine get_bind fun m => ?_
  split
  · exact .single (.slots _ _)
  · exact throw _ m

theorem read (a : UInt64) : Changes (read a) := by
  refine get_bind fun m => ?_
  dsimp only
  split
  · exact pure _ m
  · split
    · split
      · exact pure _ m
      · exact throw _ m
    · exact throw _ m

theorem write (a x : UInt64) : Changes (write a x) := by
  refine get_bind fun m => ?_
  dsimp only
  split
  · exact .single (.globals _)
  · split
    · split
      · exact .single (.slots _ _)
      · exact throw _ m
    · exact throw _ m

/-! ## Primitives -/

theorem print (b : Bytes) : Changes (print b) := modify fun _ => .single (.writes b)

theorem printGlobal (index : UInt64) : Changes (printGlobal index) := by
  refine get_bind fun m => ?_
  cases m.program.globals[index.toNat]? with
  | some g => exact print g.payload m
  | none => exact throw _ m

/-- That nothing but small changes is done is a law of steps. -/
theorem law : Law Changes where
  pure := pure
  throw _ := throw _
  bind := bind
  push := push
  pop := pop
  top := top
  setTop := setTop
  read := read
  write := write
  print := print
  printGlobal := printGlobal
  take _ _ := .single (.reads _)

theorem callPrimitive (operand : Int) : Changes (callPrimitive operand) := by
  refine get_bind fun m => ?_
  split
  · exact throw _ m
  · split
    · exact get_bind (fun m => check (check (law.carryOut _ m))) m
    · exact throw _ m

/-! ## Calls and branches -/

theorem jump (pc : Nat) : Changes (jump pc) := by
  refine modify fun m => ?_
  split
  · exact .single (.calls _ _ _)
  · exact .refl

theorem branch (next : Nat) (f : Function) (distance : Int64) : Changes (branch next f distance) :=
  fun m => check (jump _ m)

theorem enter (operand : Int) : Changes (enter operand) := by
  refine get_bind fun m => ?_
  split
  · exact throw _ m
  · refine check (bind (law.pushZeros _) (fun _ => modify ?_) m)
    exact fun _ => .single (.calls _ _ _)

/-- An instruction does nothing but small changes. -/
theorem execute (frame : Frame) (f : Function) (next : Nat) (i : Instruction) : Changes (execute frame f next i) := by
  by_cases hplain : i.op.isPlain = true
  · exact law.execute hplain frame f next
  unfold Exec.execute
  cases hop : i.op with
  | popN => exact get_bind fun m => check (.single (.slots _ _))
  | globA => exact get_bind fun m => check (push _ m)
  | br => exact branch _ _ _
  | brFalse | brTrue =>
    refine pop.bind fun _ => ?_
    split
    · exact branch _ _ _
    · exact pure ()
  | call => exact enter _
  | ret => exact modify fun _ => .single (.calls _ _ _)
  | callName => exact callPrimitive _
  | _ => exact absurd (congrArg Opcode.isPlain hop) hplain

theorem advance (frame : Frame) : Changes (advance frame) := by
  refine get_bind fun m => ?_
  split
  · exact throw _ m
  · split
    · split
      · exact .single (.calls _ _ _)
      · exact throw _ m
    · exact ((jump _).bind fun _ => execute _ _ _ _) m

end Changes

end Exec

/-- A step does nothing but small changes. -/
theorem Machine.becomes_step (m : Machine) : m.Becomes m.step.2 := by
  unfold step
  split
  · exact .refl
  · split
    · exact .refl
    · exact Exec.Changes.advance _ m

end OnePass

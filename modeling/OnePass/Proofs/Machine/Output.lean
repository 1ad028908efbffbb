import OnePass.Proofs.Machine.Changes

/-!
# What is written stays written

No small change to a machine takes back what has been written on the console. So a machine that runs on only adds to its output
(`Machine.precedes_run`).
-/

namespace OnePass

/-- What has been written on the first console has been written on the second too, before anything else. -/
def Console.Precedes (c c' : Console) : Prop := c.output.toList <+: c'.output.toList

theorem Console.Precedes.refl (c : Console) : c.Precedes c := List.prefix_refl _

theorem Console.precedes_write (c : Console) (b : Bytes) : c.Precedes (c.write b) := by
  change c.output.toList <+: (b.foldl Array.push c.output).toList
  rw [List.foldl_push_eq_append', Array.toList_append]
  exact List.prefix_append ..

/-! ## Steps and runs -/

namespace Machine

theorem Becomes.precedes {m m' : Machine} (h : m.Becomes m') : m.console.Precedes m'.console := by
  induction h with
  | refl => exact .refl m.console
  | tail _ hchange ih =>
    cases hchange with
    | writes b => exact ih.trans (Console.precedes_write _ b)
    | _ => exact ih

/-- A run only adds to the output. -/
theorem precedes_run (m : Machine) (limit : Int) (budget : Nat) : m.console.Precedes (m.run limit budget).2.console := by
  induction budget generalizing m with
  | zero => exact .refl m.console
  | succ budget ih =>
    have hstep := m.becomes_step.precedes
    rw [run]
    split
    · exact .refl m.console
    · split
      · exact .refl m.console
      · revert hstep
        rcases m.step with ⟨e | _, m'⟩
        · exact fun hstep => hstep
        · exact fun hstep => hstep.trans (ih { m' with steps := m'.steps + 1 })

end Machine

end OnePass

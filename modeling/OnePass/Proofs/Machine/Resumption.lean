import Mathlib.Logic.ExistsUnique
import OnePass.Proofs.Machine.Changes

/-!
# Runs that stop at their limit go on

A limit on the counted steps only cuts a run short. What a run does under a limit it does under every looser one
(`run_of_looser`), and a run that has stopped at its limit goes on under a looser one as if it had never stopped
(`run_of_stepLimit`). A run with a limit always returns (`returns_of_limit`), with no more steps counted than that
(`steps_run_le`). Main statement: `run_resumes`.
-/

namespace OnePass

namespace Machine

variable {m m' : Machine} {n limit : Int} {budget : Nat} {outcome : RunResult × Machine}

/-- The run with this limit returns: so it ends, and so it leaves the machine. -/
def Returns (m : Machine) (limit : Int) (outcome : RunResult × Machine) : Prop :=
  outcome.1 ≠ .running ∧ ∃ budget, m.run limit budget = outcome

/-- The second limit allows all steps that the first does; a limit that is not positive is none. -/
def Looser (n limit : Int) : Prop := n ≤ limit ∨ limit ≤ 0

/-- As many steps have been counted as the limit allows. -/
abbrev AtLimit (m : Machine) (limit : Int) : Prop := 0 < limit ∧ limit ≤ m.steps

theorem Looser.not_atLimit (h : Looser n limit) (hn : 0 < n) (hlimit : ¬ m.AtLimit n) : ¬ m.AtLimit limit := by
  unfold Looser at h
  omega

/-! ## Steps -/

theorem Becomes.steps (h : m.Becomes m') : m'.steps = m.steps := by
  induction h with
  | refl => rfl
  | tail _ hchange ih => cases hchange <;> exact ih

/-- Steps are counted by the runs and not by the instructions. -/
theorem steps_step {r : Except MachineFault Unit} (h : m.step = (r, m')) : m'.steps = m.steps := by
  have hsteps := m.becomes_step.steps
  rwa [h] at hsteps

theorem runError_ne_stepLimit (m : Machine) (f : MachineFault) : m.runError f ≠ .stepLimit := by
  unfold runError
  split <;> nofun

/-! ## Turns of a run -/

/-- What a run finds before it goes on: the machine has halted, or the limit is reached, or the next step fails, or it is done. -/
inductive Turn (m : Machine) (limit : Int) : Prop where
  | halted (h : m.halted = true)
  | limit (h : m.halted = false) (hlimit : m.AtLimit limit)
  | fault {f : MachineFault} {m' : Machine} (h : m.halted = false) (hlimit : ¬ m.AtLimit limit) (hstep : m.step = (.error f, m'))
  | step {m' : Machine} (h : m.halted = false) (hlimit : ¬ m.AtLimit limit) (hstep : m.step = (.ok (), m'))

theorem turn (m : Machine) (limit : Int) : m.Turn limit := by
  cases hhalted : m.halted with
  | true => exact .halted hhalted
  | false =>
    by_cases hlimit : m.AtLimit limit
    · exact .limit hhalted hlimit
    · rcases hstep : m.step with ⟨f | _, m'⟩
      · exact .fault hhalted hlimit hstep
      · exact .step hhalted hlimit hstep

theorem run_of_halted (h : m.halted = true) (limit : Int) (budget : Nat) : m.run limit budget = (.finished, m) := by
  cases budget <;> rw [run, if_pos h]

theorem run_of_atLimit (h : m.halted = false) (hlimit : m.AtLimit limit) (budget : Nat) :
    m.run limit (budget + 1) = (.failed .stepLimit, m) := by
  rw [run, if_neg (by simp [h]), if_pos hlimit]

theorem run_of_fault {f : MachineFault} (h : m.halted = false) (hlimit : ¬ m.AtLimit limit)
    (hstep : m.step = (.error f, m')) (budget : Nat) :
    m.run limit (budget + 1) = (.failed (m'.runError f), { m' with halted := true }) := by
  rw [run, if_neg (by simp [h]), if_neg hlimit, hstep]

theorem run_of_step (h : m.halted = false) (hlimit : ¬ m.AtLimit limit) (hstep : m.step = (.ok (), m')) (budget : Nat) :
    m.run limit (budget + 1) = run limit budget { m' with steps := m'.steps + 1 } := by
  rw [run, if_neg (by simp [h]), if_neg hlimit, hstep]

/-- Without a budget there is nothing to see but whether the machine has halted. -/
theorem run_zero (h : m.halted = false) (limit : Int) : m.run limit 0 = (.running, m) := by
  rw [run, if_neg (by simp [h])]

/-! ## Runs that return -/

/-- A run goes on where it was, or is over. -/
theorem run_add (m : Machine) (limit : Int) (budget more : Nat) : m.run limit (budget + more) =
    if (m.run limit budget).1 = .running then (m.run limit budget).2.run limit more else m.run limit budget := by
  induction budget generalizing m with
  | zero =>
    cases hhalted : m.halted with
    | true => rw [run_of_halted hhalted, run_of_halted hhalted, if_neg nofun]
    | false => rw [run_zero hhalted, if_pos rfl, Nat.zero_add]
  | succ budget ih =>
    rw [Nat.add_right_comm]
    cases m.turn limit with
    | halted hhalted => rw [run_of_halted hhalted, run_of_halted hhalted, if_neg nofun]
    | limit hhalted hlimit => rw [run_of_atLimit hhalted hlimit, run_of_atLimit hhalted hlimit, if_neg nofun]
    | fault hhalted hlimit hstep => rw [run_of_fault hhalted hlimit hstep, run_of_fault hhalted hlimit hstep, if_neg nofun]
    | step hhalted hlimit hstep =>
      rw [run_of_step hhalted hlimit hstep, run_of_step hhalted hlimit hstep]
      exact ih _

/-- A run that is over stays over, whatever budget is left. -/
theorem run_of_returned (h : m.run limit budget = outcome) (hover : outcome.1 ≠ .running) (more : Nat) :
    m.run limit (budget + more) = outcome := by
  rw [run_add, h, if_neg hover]

/-- A run returns in one way. -/
theorem Returns.unique {outcome' : RunResult × Machine} (h : m.Returns limit outcome) (h' : m.Returns limit outcome') :
    outcome' = outcome := by
  obtain ⟨hover, budget, hrun⟩ := h
  obtain ⟨hover', budget', hrun'⟩ := h'
  have hlong := run_of_returned hrun hover budget'
  rw [Nat.add_comm] at hlong
  exact (run_of_returned hrun' hover' budget).symm.trans hlong

/-- With a limit there is an end, as each step that is done counts. -/
theorem returns_of_limit (hlimit : 0 < limit) : ∃ outcome, m.Returns limit outcome := by
  obtain ⟨left, hleft⟩ : ∃ left : Nat, limit ≤ m.steps + left := ⟨limit.toNat, by omega⟩
  induction left generalizing m with
  | zero =>
    cases hhalted : m.halted with
    | true => exact ⟨(.finished, m), nofun, 0, run_of_halted hhalted limit 0⟩
    | false => exact ⟨(.failed .stepLimit, m), nofun, 1, run_of_atLimit hhalted ⟨hlimit, hleft⟩ 0⟩
  | succ left ih =>
    cases m.turn limit with
    | halted hhalted => exact ⟨(.finished, m), nofun, 0, run_of_halted hhalted limit 0⟩
    | limit hhalted hreached => exact ⟨(.failed .stepLimit, m), nofun, 1, run_of_atLimit hhalted hreached 0⟩
    | fault hhalted hopen hstep => exact ⟨(.failed _, _), nofun, 1, run_of_fault hhalted hopen hstep 0⟩
    | @step m' hhalted hopen hstep =>
      have hsteps := steps_step hstep
      have hcounted : limit ≤ (m'.steps + 1 : Nat) + left := by omega
      obtain ⟨outcome, hover, budget, hrun⟩ := ih (m := { m' with steps := m'.steps + 1 }) hcounted
      exact ⟨outcome, hover, budget + 1, by rw [run_of_step hhalted hopen hstep, hrun]⟩

/-- A run that starts within its limit stays within it. -/
theorem steps_run_le (hlimit : 0 < limit) (h : m.steps ≤ limit) (budget : Nat) : (m.run limit budget).2.steps ≤ limit := by
  induction budget generalizing m with
  | zero =>
    rw [run]
    exact h
  | succ budget ih =>
    cases m.turn limit with
    | halted hhalted =>
      rw [run_of_halted hhalted]
      exact h
    | limit hhalted hreached =>
      rw [run_of_atLimit hhalted hreached]
      exact h
    | fault hhalted hopen hstep =>
      rw [run_of_fault hhalted hopen hstep]
      simpa only [steps_step hstep] using h
    | @step m' hhalted hopen hstep =>
      rw [run_of_step hhalted hopen hstep]
      refine ih ?_
      have hsteps := steps_step hstep
      simp only
      omega

/-! ## Looser limits -/

/-- What does not end at the limit does not depend on it. -/
theorem run_of_looser (hn : 0 < n) (hlooser : Looser n limit) (h : (m.run n budget).1 ≠ .failed .stepLimit) :
    m.run limit budget = m.run n budget := by
  induction budget generalizing m with
  | zero => rw [run, run]
  | succ budget ih =>
    cases m.turn n with
    | halted hhalted => rw [run_of_halted hhalted, run_of_halted hhalted]
    | limit hhalted hlimit =>
      rw [run_of_atLimit hhalted hlimit] at h
      exact absurd rfl h
    | fault hhalted hlimit hstep =>
      rw [run_of_fault hhalted hlimit hstep, run_of_fault hhalted (hlooser.not_atLimit hn hlimit) hstep]
    | step hhalted hlimit hstep =>
      rw [run_of_step hhalted hlimit hstep] at h
      rw [run_of_step hhalted hlimit hstep, run_of_step hhalted (hlooser.not_atLimit hn hlimit) hstep, ih h]

/-- Under a looser limit a run passes the machine that it stops at under the stricter one, and goes on from there. -/
theorem run_of_stepLimit (hn : 0 < n) (hlooser : Looser n limit) (h : m.run n budget = (.failed .stepLimit, m')) :
    ∃ passed, ∀ more, m.run limit (passed + more) = m'.run limit more := by
  induction budget generalizing m with
  | zero =>
    rw [run] at h
    split at h <;> cases h
  | succ budget ih =>
    cases m.turn n with
    | halted hhalted =>
      rw [run_of_halted hhalted] at h
      cases h
    | limit hhalted hlimit =>
      rw [run_of_atLimit hhalted hlimit] at h
      cases h
      exact ⟨0, fun more => by rw [Nat.zero_add]⟩
    | fault hhalted hlimit hstep =>
      rw [run_of_fault hhalted hlimit hstep] at h
      exact absurd (RunResult.failed.inj (congrArg Prod.fst h)) (runError_ne_stepLimit _ _)
    | step hhalted hlimit hstep =>
      rw [run_of_step hhalted hlimit hstep] at h
      obtain ⟨passed, hpassed⟩ := ih h
      refine ⟨passed + 1, fun more => ?_⟩
      rw [Nat.add_right_comm, run_of_step hhalted (hlooser.not_atLimit hn hlimit) hstep, hpassed]

/-- A run that stopped at its limit ends, run on under a looser one, in the same way and in the same machine as if it had that
limit from the start; it ends in one way if there is a limit. A run that starts within its limit never counts more steps, and one
that finishes within its limit finishes alike under every looser one. -/
theorem run_resumes (m : Machine) {n limit : Int} (hn : 0 < n) (hlooser : n ≤ limit ∨ limit ≤ 0) :
    (∀ m1, m.Returns n (.failed .stepLimit, m1) →
      (∀ outcome, m1.Returns limit outcome ↔ m.Returns limit outcome) ∧ (0 < limit → ∃! outcome, m.Returns limit outcome)) ∧
    (m.steps ≤ n → ∀ budget, (m.run n budget).2.steps ≤ n) ∧
    ∀ m1, m.Returns n (.finished, m1) → m.Returns limit (.finished, m1) := by
  refine ⟨?_, steps_run_le hn, ?_⟩
  · rintro m1 ⟨-, budget, hrun⟩
    obtain ⟨passed, hpassed⟩ := run_of_stepLimit hn hlooser hrun
    refine ⟨fun outcome => ⟨?_, ?_⟩, fun hlimit => ?_⟩
    · rintro ⟨hover, more, hmore⟩
      exact ⟨hover, passed + more, by rw [hpassed, hmore]⟩
    · rintro ⟨hover, more, hmore⟩
      refine ⟨hover, more, ?_⟩
      rw [← hpassed, Nat.add_comm, run_of_returned hmore hover]
    · obtain ⟨outcome, houtcome⟩ := m.returns_of_limit hlimit
      exact ⟨outcome, houtcome, fun _ h => houtcome.unique h⟩
  · rintro m1 ⟨hover, budget, hrun⟩
    refine ⟨hover, budget, ?_⟩
    rw [run_of_looser hn hlooser (by rw [hrun]; nofun), hrun]

/-- A routine that ends three lines. -/
def threeLines : Program where
  globals := #[{ const := true, value := some (Bytes.ofString "putln") }]
  functions := #[{ header := {}, code := #[.withNat .callName 0, .withNat .callName 0, .withNat .callName 0] }]

/-- Stopped after its second line and run on without a limit, the routine ends as if it had not been stopped: with its third line,
and after the fourth step, which finds that it is over. -/
theorem run_resumes_threeLines : ∃ m1 m2,
    (start threeLines []).Returns 2 (.failed .stepLimit, m1) ∧ m1.console.output = #[0x0a, 0x0a] ∧ m1.Returns 0 (.finished, m2) ∧
      (start threeLines []).Returns 0 (.finished, m2) ∧ m2.console.output = #[0x0a, 0x0a, 0x0a] ∧ m2.steps = 4 := by
  have hstopped : (start threeLines []).run 2 3 = (.failed .stepLimit, ((start threeLines []).run 2 3).2) := by
    refine Prod.ext ?_ rfl
    decide +kernel
  have hreturns : (start threeLines []).Returns 2 (.failed .stepLimit, ((start threeLines []).run 2 3).2) := ⟨nofun, 3, hstopped⟩
  have hwhole : (start threeLines []).Returns 0 (.finished, ((start threeLines []).run 0 4).2) :=
    ⟨nofun, 4, Prod.ext (by decide +kernel) rfl⟩
  have hresumes := run_resumes (start threeLines []) (show (0 : Int) < 2 by decide) (.inr (show (0 : Int) ≤ 0 by decide))
  have hresumed := ((hresumes.1 _ hreturns).1 _).2 hwhole
  exact ⟨_, _, hreturns, by decide +kernel, hresumed, hwhole, by decide +kernel, by decide +kernel⟩

end Machine

end OnePass

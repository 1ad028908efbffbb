import OnePass.Machine.Step

/-!
# Runs of the machine

A run steps a machine until it halts, fails or has counted as many steps as it may. A run that stopped at its limit can go on
later. As a run may be endless, it also takes a budget of steps, at whose end the machine is still running.
-/

namespace OnePass

/-- How a run fails. -/
inductive RunError where
  | stepLimit
  /-- An instruction failed; `pc` is its place in the function, one before the program counter. -/
  | fault (function : Nat) (pc : Int) (fault : MachineFault)
  /-- The machine broke down. -/
  | breakdown
  deriving DecidableEq, Repr

namespace RunError

/-- The class of the error, in words, if it has one. -/
def reason? : RunError → Option Bytes
  | stepLimit => some (Bytes.ofString "step limit reached")
  | fault _ _ f => f.reason?
  | breakdown => none

/-- The wording of the error. -/
def message : RunError → Bytes
  | stepLimit => Bytes.ofString "step limit reached"
  | fault function pc f =>
    Bytes.ofString "function " ++ Bytes.ofNat function ++ Bytes.ofString ", pc " ++ Bytes.ofInt pc ++ Bytes.ofString ": " ++
      f.message
  | breakdown => []

end RunError

/-- How a run ends. -/
inductive RunResult where
  | finished
  | failed (e : RunError)
  /-- The budget is used up. -/
  | running
  deriving DecidableEq, Repr

namespace Machine

/-- What a fault in a machine is, as the error of a run. -/
def runError (m : Machine) (f : MachineFault) : RunError :=
  match f, m.frames with
  | .beyondStack, _ => .breakdown
  | f, frame :: _ => .fault frame.function (frame.pc - 1) f
  | _, [] => .breakdown

/-- Runs a machine with a limit on its counted steps, none if that is not positive, and a budget. A fault halts the machine. -/
def run (limit : Int) : Nat → Machine → RunResult × Machine
  | 0, m => (if m.halted then .finished else .running, m)
  | budget + 1, m =>
    if m.halted then (.finished, m)
    else if 0 < limit ∧ limit ≤ m.steps then (.failed .stepLimit, m)
    else match m.step with
      | (.ok _, m) => run limit budget { m with steps := m.steps + 1 }
      | (.error f, m) => (.failed (m.runError f), { m with halted := true })

end Machine

end OnePass

import OnePass.Proofs.Evaluation.Semantics
import OnePass.Proofs.Machine.Instructions

/-!
# Machines that follow an evaluation

A machine follows an evaluation (`View.Simulates`) if it comes to a view that goes with the result, fails where the evaluation
fails, and runs for at least as many steps as there was fuel where the fuel is used up; or else if it overflows its stack. That is
put together along the parts of an evaluation.
-/

namespace OnePass

namespace View

variable {p : Program} {u v w : View}

/-- From every machine with the view `u`, so many steps lead to one with the view `v`. -/
def Goes (p : Program) (u : View) (n : Nat) (v : View) : Prop :=
  ∀ m : Machine, m.Shows p u → ∃ m' : Machine, m'.Shows p v ∧ ∀ budget, m.run 0 (n + budget) = m'.run 0 budget

/-- Every machine with the view fails with this fault in the end, with these globals and this console. -/
def Fails (p : Program) (u : View) (f : MachineFault) (Q : Array UInt64 → Console → Prop) : Prop :=
  ∀ m : Machine, m.Shows p u →
    ∃ (n : Nat) (m' : Machine) (function : Nat) (pc : Int), m.run 0 n = (.failed (.fault function pc f), m') ∧
      Q m'.globals m'.console

/-- Every machine with the view overflows its stack in the end. -/
def Overflows (p : Program) (u : View) : Prop := u.Fails p .stackOverflow fun _ _ => True

theorem Goes.refl : Goes p u 0 u := fun m hm => ⟨m, hm, fun budget => by rw [Nat.zero_add]⟩

theorem Goes.trans {n n' : Nat} (h : Goes p u n v) (h' : Goes p v n' w) : Goes p u (n + n') w := by
  intro m hm
  obtain ⟨m1, hm1, hrun⟩ := h m hm
  obtain ⟨m2, hm2, hrun'⟩ := h' m1 hm1
  exact ⟨m2, hm2, fun budget => by rw [Nat.add_assoc, hrun, hrun']⟩

theorem Goes.fails {n : Nat} {f : MachineFault} {Q : Array UInt64 → Console → Prop} (h : Goes p u n v) (h' : Fails p v f Q) :
    Fails p u f Q := by
  intro m hm
  obtain ⟨m1, hm1, hrun⟩ := h m hm
  obtain ⟨n', m2, function, pc, hrun', hQ⟩ := h' m1 hm1
  exact ⟨n + n', m2, function, pc, by rw [hrun, hrun'], hQ⟩

end View

/-! ## Steps -/

section

variable {p : Program} {G : Array UInt64} {S : List UInt64} {frame : Frame} {F : List Frame} {C : Console} {f : Function}
  {i : Instruction} {v : View}

/-- How a run without a limit goes on from a machine at work. -/
theorem Machine.run_succ {m : Machine} (h : m.halted = false) (budget : Nat) :
    m.run 0 (budget + 1) = match m.step with
      | (.ok _, m') => run 0 budget { m' with steps := m'.steps + 1 }
      | (.error f, m') => (.failed (m'.runError f), { m' with halted := true }) := by
  rcases hstep : m.step with ⟨e | _, m'⟩
  · simp [run, h, hstep]
  · simp [run, h, hstep]

variable (hf : p.functions[frame.function]? = some f) (hi : f.code[frame.pc]? = some i)

include hf hi

theorem View.Goes.step (h : Exec.Leads (Exec.execute frame f (frame.pc + 1) i) p ⟨G, S, frame.next :: F, C⟩ (.ok ()) v) :
    View.Goes p ⟨G, S, frame :: F, C⟩ 1 v := by
  intro m hm
  obtain ⟨m', hstep, hm'⟩ := hm.step hf hi h
  refine ⟨_, hm'.count (m'.steps + 1), fun budget => ?_⟩
  rw [Nat.add_comm, Machine.run_succ hm.running, hstep]

theorem View.Fails.step {e : MachineFault} {Q : Array UInt64 → Console → Prop}
    (h : Exec.Leads (Exec.execute frame f (frame.pc + 1) i) p ⟨G, S, frame.next :: F, C⟩ (.error e) v)
    (he : e ≠ .beyondStack) (hv : v.frames ≠ []) (hQ : Q v.globals v.console) : View.Fails p ⟨G, S, frame :: F, C⟩ e Q := by
  intro m hm
  obtain ⟨m', hstep, hm'⟩ := hm.step hf hi h
  obtain ⟨top, rest, hframes⟩ := List.exists_cons_of_ne_nil hv
  refine ⟨1, { m' with halted := true }, top.function, top.pc - 1, ?_, ?_⟩
  · rw [Machine.run_succ hm.running, hstep]
    simp only [Machine.runError, hm'.frames, hframes]
  · simpa only [hm'.globals, hm'.console] using hQ

end

/-! ## Evaluations -/

section

variable {α β : Type}

theorem Evaluation.run_bind (x : Evaluation α) (f : α → Evaluation β) (m : Memory) :
    (x >>= f).run m = match x.run m with
      | (.ok a, m') => (f a).run m'
      | (.error h, m') => (.error h, m') := by
  change (match (ExceptT.run x m) with | (r, m') => (ExceptT.bindCont f r) m') = _
  rcases ExceptT.run x m with ⟨_ | a, m'⟩ <;> rfl

theorem Evaluation.run_get_bind (f : Memory → Evaluation β) (m : Memory) : (get >>= f).run m = (f m).run m := by
  rw [run_bind]
  rfl

/-- If this is what an evaluation with so much fuel gives, then a machine with the view `u` does the like: it comes to a view that
goes with the result, it fails with the same fault, or it runs on for so many steps. `R` relates the global variables. -/
def View.Follows (p : Program) (R : Memory → Array UInt64 → Prop) (u : View) (fuel : Nat) (post : α → Memory → View → Prop) :
    Except Halt α × Memory → Prop
  | (.ok a, m) => ∃ n v, u.Goes p n v ∧ post a m v
  | (.error (.fault f), m) => u.Fails p f fun G C => R m G ∧ C = m.console
  | (.error .timeout, m) => ∃ n v, fuel ≤ n ∧ u.Goes p n v ∧ v.console = m.console
  | (.error .stuck, _) => False

/-- A machine with the view follows the evaluation, or overflows its stack. -/
def View.Simulates (p : Program) (R : Memory → Array UInt64 → Prop) (u : View) (fuel : Nat) (post : α → Memory → View → Prop)
    (r : Except Halt α × Memory) : Prop := u.Overflows p ∨ u.Follows p R fuel post r

namespace View.Simulates

variable {p : Program} {R : Memory → Array UInt64 → Prop} {u v : View} {fuel n : Nat} {post : α → Memory → View → Prop}
  {r : Except Halt α × Memory}

theorem ok {a : α} {m : Memory} (h : post a m u) : Simulates p R u fuel post (.ok a, m) := .inr ⟨0, u, .refl, h⟩

theorem timeout {m : Memory} (h : u.console = m.console) : Simulates p R u 0 post (.error .timeout, m) :=
  .inr ⟨0, u, Nat.le_refl 0, .refl, h⟩

/-- What a machine comes to goes on with the evaluation; its steps until then count. -/
theorem of_goes (h : u.Goes p n v) (hv : Simulates p R v fuel post r) : Simulates p R u (n + fuel) post r := by
  refine hv.imp h.fails fun hv => ?_
  rcases r with ⟨(f | _ | _) | a, m⟩
  · exact h.fails (Q := fun G C => R m G ∧ C = m.console) hv
  · obtain ⟨n', w, hle, hgoes, hconsole⟩ := hv
    exact ⟨n + n', w, Nat.add_le_add_left hle n, h.trans hgoes, hconsole⟩
  · exact hv
  · obtain ⟨n', w, hgoes, hpost⟩ := hv
    exact ⟨n + n', w, h.trans hgoes, hpost⟩

theorem mono {less : Nat} {post' : α → Memory → View → Prop} (h : Simulates p R u fuel post r) (hless : less ≤ fuel)
    (hpost : ∀ a m v, post a m v → post' a m v) : Simulates p R u less post' r := by
  refine h.imp id fun h => ?_
  rcases r with ⟨(f | _ | _) | a, m⟩
  · exact h
  · obtain ⟨n, v, hle, hgoes, hconsole⟩ := h
    exact ⟨n, v, Nat.le_trans hless hle, hgoes, hconsole⟩
  · exact h
  · obtain ⟨n, v, hgoes, h⟩ := h
    exact ⟨n, v, hgoes, hpost a m v h⟩

/-- One part of an evaluation after another. -/
theorem bind {x : Evaluation α} {f : α → Evaluation β} {m : Memory} {post' : β → Memory → View → Prop}
    (hx : Simulates p R u fuel post (x.run m)) (hf : ∀ a m' v, post a m' v → Simulates p R v fuel post' ((f a).run m')) :
    Simulates p R u fuel post' ((x >>= f).run m) := by
  rw [Evaluation.run_bind]
  rcases hx with hx | hx
  · exact .inl hx
  · revert hx
    rcases x.run m with ⟨(f | _ | _) | a, m'⟩
    · exact .inr
    · exact .inr
    · exact .inr
    · rintro ⟨n, v, hgoes, hpost⟩
      exact (of_goes hgoes (hf a m' v hpost)).mono (Nat.le_add_left _ _) fun _ _ _ h => h

variable {G : Array UInt64} {S : List UInt64} {frame : Frame} {F : List Frame} {C : Console} {f : Function} {i : Instruction}
  (hf : p.functions[frame.function]? = some f) (hi : f.code[frame.pc]? = some i)

include hf hi

/-- An instruction that does not fail. -/
theorem step (h : Exec.Leads (Exec.execute frame f (frame.pc + 1) i) p ⟨G, S, frame.next :: F, C⟩ (.ok ()) v)
    (hv : Simulates p R v fuel post r) : Simulates p R ⟨G, S, frame :: F, C⟩ (fuel + 1) post r :=
  Nat.add_comm 1 fuel ▸ of_goes (.step hf hi h) hv

/-- An instruction that does not fail, whose step need not count. -/
theorem step' (h : Exec.Leads (Exec.execute frame f (frame.pc + 1) i) p ⟨G, S, frame.next :: F, C⟩ (.ok ()) v)
    (hv : Simulates p R v fuel post r) : Simulates p R ⟨G, S, frame :: F, C⟩ fuel post r :=
  (step hf hi h hv).mono (Nat.le_succ _) fun _ _ _ h => h

/-- An instruction that pushes slots, if there is room for them. -/
theorem push {more : List UInt64}
    (h : Exec.Leads.Pushes (Exec.execute frame f (frame.pc + 1) i) p G (frame.next :: F) C more)
    (hv : Simulates p R ⟨G, S ++ more, frame.next :: F, C⟩ fuel post r) :
    Simulates p R ⟨G, S, frame :: F, C⟩ fuel post r := by
  by_cases hroom : S.length + more.length ≤ stackSize
  · exact step' hf hi (h.ok hroom) hv
  · obtain ⟨part, hpart⟩ := h.overflow (Nat.lt_of_not_le hroom)
    exact .inl (Fails.step hf hi hpart nofun (List.cons_ne_nil _ _) trivial)

/-- An instruction that fails as the evaluation does. -/
theorem fault {e : MachineFault} {m : Memory}
    (h : Exec.Leads (Exec.execute frame f (frame.pc + 1) i) p ⟨G, S, frame.next :: F, C⟩ (.error e) v)
    (he : e ≠ .beyondStack) (hv : v.frames ≠ []) (hR : R m v.globals) (hconsole : v.console = m.console) :
    Simulates p R ⟨G, S, frame :: F, C⟩ fuel post (.error (.fault e), m) := by
  have hfails : Fails p ⟨G, S, frame :: F, C⟩ e fun G C => R m G ∧ C = m.console := Fails.step hf hi h he hv ⟨hR, hconsole⟩
  exact .inr hfails

end View.Simulates

end

end OnePass

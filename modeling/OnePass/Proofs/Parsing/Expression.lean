import OnePass.Proofs.Precedence

/-!
# Expressions that have been read

The tokens of an expression are those of a tree that is grouped by precedence. The tree is found by descent, one stratum at a time
(`Descent.parses_strata`), and compiling an expression on the pending stacks is the same.
-/

namespace OnePass

namespace Analysis

namespace Parses

variable {σ : Type} [TokenSource σ] [Supply σ] {s : AnalysisState σ} {deep : Prop} {d : Nat}

theorem reads_expression (out : Section) (hd : deep → 4 * s.ahead.length + 2 ≤ d) :
    Parses deep (expression out d) s fun _ => Descent.Read 0 := by
  rw [Parses]
  cases hrun : (expression out d).run s with
  | error e =>
    rintro hdeep rfl
    exact ((parts out d s).1 (hd hdeep)).ne_tooDeep trivial hrun
  | ok r =>
    have hmore := (Refines.expression out (Nat.le_max_left d (4 * s.ahead.length + 2))).run_eq (by rw [hrun]; simp)
    rw [hrun, run_expression_eq_comparison out s (Nat.le_max_right _ _) (Nat.le_refl _) (.inl rfl)] at hmore
    exact ((Descent.parses_strata out true _ s).1 False.elim).exists_takes hmore

/-- Where an operand is compiled, its tokens are those of a tree, and so are those of arguments. -/
theorem reads_operand (out : Section) : ∀ (d : Nat) (s : AnalysisState σ), Parses False (operand out d) s
    (fun _ => Descent.Read 4) ∧
    ∀ name count params, Parses False (arguments out name d count params) s fun _ => Descent.ReadArgs
  | 0, _ => ⟨tooDeep id, fun _ _ _ => tooDeep id⟩
  | d + 1, _ => by
    have ih := reads_operand out d
    exact ⟨Descent.parses_operandWith out (fun _ _ => reads_expression out False.elim) (fun s' _ => (ih s').1)
        fun name params s' _ => (ih s').2 name 0 params,
      fun name count params => Descent.parses_argumentWith name count params (fun _ _ => reads_expression out False.elim)
        fun s' _ => (ih s').2 name (count + 1) params⟩

end Parses

end Analysis

end OnePass

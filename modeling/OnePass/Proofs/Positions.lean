import OnePass.Proofs.SideBySide.Program
import OnePass.Proofs.Upkeep.Program

/-!
# Positions

Where a token stands decides nothing in an analysis. It comes back in a diagnostic and nowhere else: if all tokens move, the
program stays, and a diagnostic moves along with the token it blames (`analyze_moved`). So every diagnostic is at one of the
tokens.
-/

namespace OnePass

/-- The relabelling that keeps the names. -/
def Relabelling.moving (g : Pos → Pos) : Relabelling where
  name := id
  pos := g
  Occurs _ := True
  injective _ _ h := h
  occurs_main := trivial
  name_main := rfl
  occurs_primitive _ := trivial
  name_primitive _ := rfl

namespace Relabelling

variable (g : Pos → Pos)

theorem lexeme_moving (kind : TokenKind) (text : Bytes) : (moving g).lexeme kind text = text := ite_self text

/-- A fault speaks of no position. -/
@[simp] theorem fault_moving (f : Fault) : (moving g).fault f = f := by
  cases f <;> simp only [fault, lexeme_moving] <;> rfl

theorem global_moving : (moving g).global = id := by
  funext ⟨const, value, name⟩
  cases value <;> rfl

theorem outcomes_moving {r r' : Except Failure Program} (h : (moving g).Outcomes r r') : r' = r.mapError (moving g).failure := by
  cases h with
  | ok globals functions =>
    rename_i p q
    obtain ⟨IsText, hpools⟩ := globals
    have hglobals : q.globals = p.globals := by
      refine Array.ext_getElem? fun n => ?_
      by_cases hn : IsText n
      · exact hpools.text n hn
      · rw [hpools.named n hn, global_moving, Option.map_id_apply]
    obtain ⟨globals', functions'⟩ := q
    obtain ⟨globals, functions⟩ := p
    cases functions
    cases hglobals
    rfl
  | failed e => rfl

end Relabelling

/-- The token at its new position. -/
def Token.moved (g : Pos → Pos) (t : Token) : Token := { t with pos := g t.pos }

/-- The diagnostic at its new position, with the same fault. -/
def Diagnostic.moved (g : Pos → Pos) (d : Diagnostic) : Diagnostic := { d with pos := g d.pos }

theorem Relabelling.token_moving (g : Pos → Pos) (t : Token) : (moving g).token t = t.moved g := by
  unfold Relabelling.token Token.moved
  rw [lexeme_moving]
  rfl

theorem Relabelling.diagnostic_moving (g : Pos → Pos) (d : Diagnostic) : (moving g).diagnostic d = d.moved g := by
  unfold Relabelling.diagnostic Diagnostic.moved
  rw [fault_moving]
  rfl

/-- The outcome for tokens that have moved. -/
theorem analyze_map_moved (g : Pos → Pos) {tokens : List Token} (h : tokens ≠ []) :
    analyze (Replay.ofTokens (tokens.map (Token.moved g))) =
      (analyze (Replay.ofTokens tokens)).mapError (Relabelling.moving g).failure := by
  have htokens : tokens.map (Token.moved g) = tokens.map (Relabelling.moving g).token :=
    List.map_congr_left fun t _ => (Relabelling.token_moving g t).symm
  rw [htokens]
  apply Relabelling.outcomes_moving
  apply Relabelling.analyze_tokens
  · exact fun _ _ _ => trivial
  · exact fun hnil => absurd hnil h

/-- A diagnostic is at one of the tokens. It would otherwise move if everything but the tokens did. -/
theorem exists_token_of_analyze {tokens : List Token} (h : tokens ≠ []) {d : Diagnostic}
    (hd : analyze (Replay.ofTokens tokens) = .error (.diagnostic d)) : ∃ t ∈ tokens, t.pos = d.pos := by
  by_contra hnone
  obtain ⟨first, rest, rfl⟩ := List.exists_cons_of_ne_nil h
  let g (p : Pos) : Pos := if p = d.pos then first.pos else p
  have hkept : (first :: rest).map (Token.moved g) = first :: rest := by
    refine (List.map_congr_left fun t ht => ?_).trans (List.map_id _)
    have hne : t.pos ≠ d.pos := fun heq => hnone ⟨t, ht, heq⟩
    simp [Token.moved, g, hne]
  have hmoved := analyze_map_moved g h
  rw [hkept, hd] at hmoved
  have hpos : d.pos = g d.pos := by
    injection hmoved with hmoved
    injection hmoved with hmoved
    exact congrArg Diagnostic.pos hmoved
  exact hnone ⟨first, List.mem_cons_self, by rw [hpos]; simp [g]⟩

/-- Positions decide nothing: with every token moved, an analysis comes to the same program, or it fails with the same fault at
the new place of the old one, which is the place of a token. -/
theorem analyze_moved (g : Pos → Pos) {tokens : List Token} (h : tokens ≠ []) :
    (∃ p, analyze (Replay.ofTokens tokens) = .ok p ∧ analyze (Replay.ofTokens (tokens.map (Token.moved g))) = .ok p) ∨
    ∃ d, analyze (Replay.ofTokens tokens) = .error (.diagnostic d) ∧
      analyze (Replay.ofTokens (tokens.map (Token.moved g))) = .error (.diagnostic (d.moved g)) ∧
        ∃ t ∈ tokens, t.pos = d.pos := by
  rw [analyze_map_moved g h]
  cases hr : analyze (Replay.ofTokens tokens) with
  | ok p => exact .inl ⟨p, rfl, rfl⟩
  | error e =>
    obtain ⟨d, rfl, -⟩ := analyze_fails _ hr
    refine .inr ⟨d, rfl, ?_, exists_token_of_analyze h hr⟩
    rw [← Relabelling.diagnostic_moving]
    rfl

/-- Ten lines down, the stray break is blamed ten lines down. -/
theorem analyze_moved_strayBreak : let tokens := (lex (Bytes.ofString "fn main() -> void\n{ break; }")).1
    tokens ≠ [] ∧ analyze (Replay.ofTokens (tokens.map (Token.moved fun p => ⟨p.line + 10, p.col⟩))) =
      .error (.diagnostic ⟨⟨12, 3⟩, .strayBreak⟩) := by
  intro tokens
  have hne : tokens ≠ [] := by decide +kernel
  have hstray : analyze (Replay.ofTokens tokens) = .error (.diagnostic ⟨⟨2, 3⟩, .strayBreak⟩) := by decide +kernel
  refine ⟨hne, ?_⟩
  rcases analyze_moved (fun p => ⟨p.line + 10, p.col⟩) hne with ⟨p, hp, -⟩ | ⟨d, hd, hmoved, -⟩
  · cases hp.symm.trans hstray
  · cases hd.symm.trans hstray
    exact hmoved

end OnePass

import OnePass.Proofs.LazyLexing

/-!
# Tokens that an analysis takes

A source may keep a record of the tokens that are taken from it (`Recorded`). The record shows that every function, declaration,
statement, block, expression and operand that is compiled has taken a token at least, and no end token. So an analysis comes to an
end, and how deep its parts may nest decides nothing.
-/

namespace OnePass

/-- A source with a record of the tokens that were taken from it. -/
structure Recorded (σ : Type) where
  source : σ
  taken : List Token := []

namespace Recorded

variable {σ : Type} [TokenSource σ]

omit [TokenSource σ] in
/-- The record once a token is taken, or a fault is met in its place. -/
def note (taken : List Token) : Except Diagnostic Token → List Token
  | .ok token => taken ++ [token]
  | .error _ => taken

instance : TokenSource (Recorded σ) where
  peek r := ((TokenSource.peek r.source).1, { r with source := (TokenSource.peek r.source).2 })
  next r := ((TokenSource.next r.source).1, ⟨(TokenSource.next r.source).2, note r.taken (TokenSource.next r.source).1⟩)
  remaining r := TokenSource.remaining r.source

instance [Supply σ] : Supply (Recorded σ) where
  ahead r := Supply.ahead r.source
  stop r := Supply.stop r.source
  kind_ne_eof r := Supply.kind_ne_eof r.source
  kind_stop r := Supply.kind_stop r.source
  peek_fst r := Supply.peek_fst r.source
  next_fst r := Supply.next_fst r.source
  ahead_peek r := Supply.ahead_peek r.source
  stop_peek r := Supply.stop_peek r.source
  ahead_next r := Supply.ahead_next r.source
  stop_next r := Supply.stop_next r.source
  peek_peek r := congrArg (Recorded.mk · r.taken) (Supply.peek_peek r.source)
  next_peek r := by
    have htoken : (TokenSource.next (TokenSource.peek r.source).2).1 = (TokenSource.next r.source).1 := by
      rw [Supply.next_fst, Supply.next_fst, Supply.ahead_peek, Supply.stop_peek]
    exact congrArg₂ Recorded.mk (Supply.next_peek r.source) (congrArg (note r.taken) htoken)
  length_ahead r := Supply.length_ahead r.source

theorem taken_of_passes {r r' : Recorded σ} {ts : List Token} (h : Passes r ts r') : r'.taken = r.taken ++ ts := by
  induction h with
  | refl => rw [List.append_nil]
  | peek _ ih => exact ih
  | @next _ now _ _ ht ih =>
    change note now.taken (TokenSource.next now.source).1 = _
    rw [show (TokenSource.next now.source).1 = _ from ht, ← List.append_assoc, ← ih]
    rfl

/-- A list of tokens that is replayed and recorded. -/
def ofTokens (tokens : List Token) : Recorded Replay := { source := .ofTokens tokens }

/-- A record changes nothing for the analysis that draws on it. -/
def pace : Pace (Recorded Replay) Replay (Relabelling.moving id) where
  Level r r' := r' = r.source
  Stops _ := False
  peek := by
    rintro r _ rfl
    exact .inr ⟨_, _, rfl, rfl, ⟨(Relabelling.token_moving id _).symm, fun _ => trivial⟩, rfl⟩
  next := by
    rintro r _ rfl
    exact .inr ⟨_, _, rfl, rfl, ⟨(Relabelling.token_moving id _).symm, fun _ => trivial⟩, rfl⟩

/-- With any depth from the bound on, and with a record or without, the analysis of a list of tokens has the same outcome. -/
theorem run'_program (tokens : List Token) {depth : Nat} (h : depthBound tokens.length ≤ depth) :
    (Analysis.program depth).run' { source := ofTokens tokens } = analyze (Replay.ofTokens tokens) := by
  rcases pace.run'_program (s := ofTokens tokens) rfl h (Nat.le_refl _) with ⟨x, hx, -⟩ | houtcomes
  · exact hx.elim
  · exact (Relabelling.eq_of_outcomes_id houtcomes).symm

end Recorded

namespace Analysis

open AnalysisState

variable {σ α : Type} {m : Analysis (Recorded σ) α} {s : AnalysisState (Recorded σ)}

/-- Where the part succeeds, it has taken a token at least, and no end token. -/
def Advances (m : Analysis (Recorded σ) α) (s : AnalysisState (Recorded σ)) : Prop :=
  ∀ a s', m.run s = .ok (a, s') → ∃ ts, s'.source.taken = s.source.taken ++ ts ∧ ts ≠ [] ∧ ∀ t ∈ ts, t.kind ≠ .eof

variable [TokenSource σ] [Supply σ]

theorem Advances.of_parses {Q : α → List Terminal → AnalysisState (Recorded σ) → Prop} (h : Parses False m s Q)
    (hQ : ∀ a ys s', Q a ys s' → ys ≠ []) : Advances m s := by
  intro a s' hrun
  obtain ⟨_, htakes, hys⟩ := h.exists_takes hrun
  obtain ⟨ts, rfl, hkind, hpasses⟩ := htakes.passes
  exact ⟨ts, Recorded.taken_of_passes hpasses, fun hts => hQ a _ s' hys (by rw [hts, List.map_nil]), hkind⟩

theorem advances_function (depth : Nat) (s : AnalysisState (Recorded σ)) : Advances (function depth) s := by
  refine .of_parses (.function False.elim) ?_
  rintro _ _ _ ⟨D, -, rfl⟩
  exact D.yield_ne_nil

theorem advances_declaration (depth : Nat) {t : Token} (ht : s.front = .ok t) (hk : t.kind = .let ∨ t.kind = .const) :
    Advances (declaration depth) s := by
  refine .of_parses (.declaration ht hk False.elim) ?_
  rintro _ _ _ ⟨D, -, rfl⟩
  simp [Declaration.yield]

theorem advances_statement (returns : ValueType) (depth : Nat) (s : AnalysisState (Recorded σ)) :
    Advances (statement returns depth) s := by
  refine .of_parses ((Parses.all_statements returns depth).statement False.elim) ?_
  rintro _ _ _ ⟨st, -, rfl⟩
  exact st.yield_ne_nil

theorem advances_block (returns : ValueType) (inner : Bool) (depth : Nat) (s : AnalysisState (Recorded σ)) :
    Advances (block returns inner depth) s := by
  refine .of_parses ((Parses.all_statements returns depth).block inner False.elim) ?_
  rintro _ _ _ ⟨b, -, rfl⟩
  exact List.cons_ne_nil _ _

theorem advances_of_reads {part : Analysis (Recorded σ) ValueType} {k : Nat} (h : Parses False part s fun _ => Descent.Read k) :
    Advances part s := by
  refine .of_parses h ?_
  rintro _ _ _ ⟨e, -, -, rfl, -⟩
  exact e.yield_ne_nil

end Analysis

open Analysis

/-- An analysis makes progress, whatever the tokens are and wherever it stands: no function, declaration, statement, block,
expression or operand is compiled without a token being taken, and none takes an end token; a declaration is compiled only where
its first word is in front. So the analysis ends: it never nests deeper than its bound on the depth, and beyond that the bound
decides nothing. -/
theorem analyze_makes_progress (tokens : List Token) :
    (∀ (s : AnalysisState (Recorded Replay)) (depth : Nat), Advances (function depth) s ∧
      (∀ t, s.front = .ok t → t.kind = .let ∨ t.kind = .const → Advances (declaration depth) s) ∧
      ∀ returns out inner, Advances (statement returns depth) s ∧ Advances (block returns inner depth) s ∧
        Advances (expression out depth) s ∧ Advances (operand out depth) s) ∧
    (∀ depth, depthBound tokens.length ≤ depth →
      (program depth).run' { source := Recorded.ofTokens tokens } = analyze (Replay.ofTokens tokens)) ∧
    analyze (Replay.ofTokens tokens) ≠ .error (.breach .tooDeep) := by
  refine ⟨fun s depth => ⟨advances_function depth s, fun t ht hk => advances_declaration depth ht hk,
    fun returns out inner => ?_⟩, fun depth => Recorded.run'_program tokens, analyze_ne_tooDeep _⟩
  exact ⟨advances_statement returns depth s, advances_block returns inner depth s,
    advances_of_reads (.reads_expression out False.elim), advances_of_reads (Parses.reads_operand out depth s).1⟩

/-- A global variable is declared, and no end token follows. -/
theorem analyze_makes_progress_global :
    let tokens : List Token := [.let, .identifier, .colon, .int, .semicolon].map fun kind => { kind, lexeme := [], pos := ⟨1, 1⟩ }
    ∃ s', (declaration 27).run { source := Recorded.ofTokens tokens } = .ok ((), s') ∧
      (∃ ts, s'.source.taken = [] ++ ts ∧ ts ≠ [] ∧ ∀ t ∈ ts, t.kind ≠ .eof) ∧
      (program 29).run' { source := Recorded.ofTokens tokens } = analyze (Replay.ofTokens tokens) := by
  intro tokens
  obtain ⟨hparts, hdepth, -⟩ := analyze_makes_progress tokens
  obtain ⟨s', hrun⟩ : ∃ s', (declaration 27).run { source := Recorded.ofTokens tokens } = .ok ((), s') := ⟨_, rfl⟩
  exact ⟨s', hrun, (hparts _ 27).2.1 _ rfl (.inl rfl) () s' hrun, hdepth 29 (by decide)⟩

end OnePass

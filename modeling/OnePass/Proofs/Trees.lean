import OnePass.Compile
import OnePass.Proofs.Agreement.Program
import OnePass.Proofs.Emission.Derivation
import OnePass.Proofs.Parsing.Program

/-!
# The syntax tree of a source

A tree is that of a source text if the tokens of the text, which must have no lexical fault, are read off it (`Source.IsTreeOf`).
Every source that compiles has a tree (`exists_isTreeOf`), and its program is made from any tree it has by the rules of emission
(`IsTreeOf.exists_makes`). A tree has no more terminals than its source has bytes.
-/

namespace OnePass

variable {source : Bytes} {A : Source}

/-- The tree is that of the source: its terminals are the tokens of the source, and its operators are grouped by precedence. -/
structure Source.IsTreeOf (A : Source) (source : Bytes) : Prop where
  grouped : A.Grouped
  lexes : (lex source).2 = none
  tokens : (lex source).1.map Token.terminal = A.yield ++ [.mark .eof]

/-- The tokens of a text without a lexical fault are those before its end, and the end token. -/
theorem Lexer.lex_eq_inner (h : (lex source).2 = none) :
    ∃ e, (lex source).1 = inner (.ofSource source) ++ [e] ∧ e.kind = .eof ∧ ∃ t, stopFrom (.ofSource source) = .ok t := by
  obtain ⟨ts, e, hts, he, hne⟩ := lexFrom_none h
  have hinner : inner (.ofSource source) = ts := by
    rw [inner, hts, List.takeWhile_append_of_pos]
    · simp [Replay.isInner, he]
    · intro t ht
      simpa [Replay.isInner] using hne t ht
  refine ⟨e, by rw [hinner]; exact hts, he, ?_⟩
  rw [stopFrom]
  change (lexFrom (.ofSource source)).2 = none at h
  rcases hlex : lexFrom (.ofSource source) with ⟨tokens, _ | d⟩
  · exact ⟨_, rfl⟩
  · rw [hlex] at h
    cases h

theorem Lexer.lexes_of_stopFrom {t : Token} (h : stopFrom (.ofSource source) = .ok t) : (lex source).2 = none := by
  rw [stopFrom] at h
  change (lexFrom (.ofSource source)).2 = none
  rcases hlex : lexFrom (.ofSource source) with ⟨tokens, _ | d⟩
  · rfl
  · rw [hlex] at h
    cases h

namespace Source

theorem isTreeOf_iff : A.IsTreeOf source ↔
    A.Grouped ∧ (Supply.ahead (Lexer.ofSource source)).map Token.terminal = A.yield ∧ ∃ t, Supply.stop
      (Lexer.ofSource source) = .ok t := by
  rw [Lexer.ahead_ofSource, Lexer.stop_ofSource]
  have hend {e : Token} (he : e.kind = .eof) : e.terminal = .mark .eof := by rw [Token.terminal, he]
  constructor
  · intro h
    obtain ⟨e, htokens, he, hstop⟩ := Lexer.lex_eq_inner h.lexes
    have hyield := h.tokens
    rw [htokens, List.map_append, List.map_singleton, hend he] at hyield
    exact ⟨h.grouped, List.append_cancel_right hyield, hstop⟩
  · rintro ⟨hgrouped, hyield, t, ht⟩
    have hlexes := Lexer.lexes_of_stopFrom ht
    obtain ⟨e, htokens, he, -⟩ := Lexer.lex_eq_inner hlexes
    refine ⟨hgrouped, hlexes, ?_⟩
    rw [htokens, List.map_append, List.map_singleton, hend he, hyield]

/-- Every source that compiles has a tree. -/
theorem exists_isTreeOf {p : Program} (h : compile source = .ok p) : ∃ A : Source, A.IsTreeOf source := by
  rw [compile] at h
  rcases hanalyze : analyze (Lexer.ofSource source) with e | q
  · rw [hanalyze] at h
    cases h
  · obtain ⟨A, hA⟩ := analyze_reads hanalyze
    exact ⟨A, isTreeOf_iff.2 hA⟩

/-- A source compiles to the translation of its tree. -/
theorem toOption_compile (h : A.IsTreeOf source) : (compile source).toOption = A.translate := by
  obtain ⟨hgrouped, hyield, hstop⟩ := isTreeOf_iff.1 h
  rw [← analyze_toOption hgrouped hyield hstop, compile]
  cases analyze (Lexer.ofSource source) <;> rfl

/-- A source compiles to what its tree makes. -/
theorem IsTreeOf.exists_makes {A : Source} {source : Bytes} {p : Program} (hA : A.IsTreeOf source) (h : compile source = .ok p) :
    ∃ P, A.Makes P p := by
  have htranslate := toOption_compile hA
  rw [h] at htranslate
  exact Source.exists_makes hA.grouped htranslate.symm

end Source

/-- A source with a global variable, a recursive function and a loop. -/
def factorials : Bytes := Bytes.ofString
  "let n: int = 3; fn fact(k: int) -> int { if k < 2 { return 1; } return k * fact(k - 1); } fn main() -> void { while n > 0 { putint(fact(n)); n = n - 1; } }"

/-- It is short, and it is accepted. -/
theorem accepts_factorials : factorials.length < 2 ^ 28 ∧ (compile factorials).toOption.isSome = true := by decide +kernel

theorem exists_compile_factorials : ∃ p, compile factorials = .ok p := by
  have hsome := accepts_factorials.2
  rcases hp : compile factorials with e | p
  · rw [hp] at hsome
    cases hsome
  · exact ⟨p, rfl⟩

/-! ## Sizes -/

theorem Utf8.length_piecesAfter_le (b : Bytes) (skip : Nat) : (piecesAfter skip b).length ≤ b.length := by
  induction b generalizing skip with
  | nil => cases skip <;> simp [piecesAfter]
  | cons lead rest ih =>
    cases skip with
    | zero =>
      rw [piecesAfter, List.length_cons, List.length_cons]
      exact Nat.succ_le_succ (ih _)
    | succ skip =>
      rw [piecesAfter]
      exact Nat.le_succ_of_le (ih skip)

theorem Source.IsTreeOf.length_yield_le (h : A.IsTreeOf source) : A.yield.length ≤ source.length := by
  obtain ⟨-, hyield, -⟩ := isTreeOf_iff.1 h
  rw [← hyield, List.length_map, Lexer.ahead_ofSource]
  refine Nat.le_trans (Lexer.length_inner _) ?_
  change (Utf8.chars source).length ≤ source.length
  rw [Utf8.chars, List.length_map]
  exact Utf8.length_piecesAfter_le source 0

end OnePass

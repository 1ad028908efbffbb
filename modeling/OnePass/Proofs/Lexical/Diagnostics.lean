import OnePass.Proofs.Lexical.Lines
import OnePass.Proofs.Lexical.Tiling

/-!
# Where reports point

A report on a source text points at one of its landmarks (`Landmark`): the first character of a token, the first character of what
lexing stopped at, or the end. A landmark is placed by the characters before it, the quoted line is found by the bytes, and the
two agree on every byte string. Main statement: `compile_points_into_source`.
-/

namespace OnePass

variable {source : Bytes} {d : Diagnostic}

/-- The places of a text that a report may point at. -/
inductive Landmark (source : Bytes) : Pos → Prop where
  /-- The first character of a token, behind the gap before it. -/
  | token {before after : List Char} {tile : Lexer.Tile} (htext : Utf8.chars source = before ++ (tile.text ++ after))
    (hfits : tile.Fits before after) (htoken : tile.token ∈ (lex source).1) : Landmark source (.behind (before ++ tile.gap))
  /-- The first character of the malformed token that lexing stopped at. -/
  | malformed {before gap rest : List Char} {c : Char} {fault : Fault} (htext : Utf8.chars source = before ++ (gap ++ c :: rest))
    (hgap : Lexer.Gap gap (c :: rest)) (hscan : Lexer.scan c rest = .error fault)
    (hlex : (lex source).2 = some ⟨.behind (before ++ gap), fault⟩) : Landmark source (.behind (before ++ gap))
  /-- The end of the text. -/
  | ending (hlex : (lex source).2 = none) : Landmark source (.behind (Utf8.chars source))

namespace Lexer

/-- A tile of a row is in its place in the text. -/
theorem Row.exists_fits {before rest : List Char} {tiles : List Tile} (h : Row before tiles rest)
    {tile : Tile} (htile : tile ∈ tiles) :
    ∃ before' after, before ++ (rowText tiles ++ rest) = before' ++ (tile.text ++ after) ∧ tile.Fits before' after := by
  induction tiles generalizing before with
  | nil => cases htile
  | cons first tiles ih =>
    obtain ⟨hfits, hrow⟩ := h
    rcases List.mem_cons.1 htile with rfl | htile
    · exact ⟨before, rowText tiles ++ rest, by simp [rowText], hfits⟩
    · obtain ⟨before', after, htext, hfits'⟩ := ih hrow htile
      exact ⟨before', after, by rw [← htext]; simp [rowText], hfits'⟩

/-- The tiles of a text, and what lexing ends with behind them. -/
theorem lex_row (source : Bytes) :
    ∃ tiles rest ending, Utf8.chars source = rowText tiles ++ rest ∧ Row [] tiles rest ∧ Ending (rowText tiles) rest ending ∧
      lex source = (tiles.map Tile.token ++ ending.1, ending.2) := by
  have hpos : (Cursor.ofSource source).pos = .behind [] := rfl
  exact lexFrom_row hpos

/-- A token that is read stands at a landmark. -/
theorem landmark_of_mem {t : Token} (h : t ∈ (lex source).1) : Landmark source t.pos := by
  obtain ⟨tiles, rest, ending, htext, hrow, hending, hlex⟩ := lex_row source
  have hmem := h
  rw [hlex] at hmem
  rcases List.mem_append.1 hmem with hmem | hmem
  · obtain ⟨tile, htile, rfl⟩ := List.mem_map.1 hmem
    obtain ⟨before, after, hplace, hfits⟩ := hrow.exists_fits htile
    rw [List.nil_append, ← htext] at hplace
    rw [hfits.pos]
    exact .token hplace hfits h
  · cases hending with
    | malformed hgap hscan => cases hmem
    | done hgap =>
      rw [List.mem_singleton.1 hmem, ← htext]
      exact .ending (congrArg Prod.snd hlex)

/-- The fault that lexing stops at is at a landmark. -/
theorem landmark_of_fault (h : (lex source).2 = some d) : Landmark source d.pos := by
  obtain ⟨tiles, rest, ending, htext, hrow, hending, hlex⟩ := lex_row source
  have hfault := h
  rw [hlex] at hfault
  cases hending with
  | done hgap => cases hfault
  | malformed hgap hscan =>
    cases hfault
    exact .malformed htext hgap hscan h

end Lexer

/-- A place in the text is behind some of its characters. -/
theorem Landmark.exists_behind {pos : Pos} (h : Landmark source pos) :
    ∃ before after, Utf8.chars source = before ++ after ∧ pos = .behind before := by
  cases h with
  | @token before after tile htext _ _ =>
    exact ⟨before ++ tile.gap, tile.span ++ after, by simpa [Lexer.Tile.text] using htext, rfl⟩
  | @malformed before gap rest c _ htext _ _ _ => exact ⟨before ++ gap, c :: rest, by rw [htext, List.append_assoc], rfl⟩
  | ending _ => exact ⟨Utf8.chars source, [], (List.append_nil _).symm, rfl⟩

/-- The line of a landmark is a line of the bytes. -/
theorem Landmark.exists_isLine {source : Bytes} {pos : Pos} (h : Landmark source pos) :
    1 ≤ pos.line ∧ pos.line ≤ source.count 0x0a + 1 ∧ ∃ bytes, Text.IsLine source pos.line bytes := by
  obtain ⟨before, after, htext, rfl⟩ := h.exists_behind
  obtain ⟨front, back, rfl, rfl, -⟩ := Utf8.exists_of_chars_eq_append htext
  have hline : (Pos.behind (Utf8.chars front)).line = front.count 0x0a + 1 := by
    rw [Utf8.count_newline, Pos.behind, Int.add_comm]
  have hcount : (front ++ back).count 0x0a = front.count 0x0a + back.count 0x0a := List.count_append
  rw [hline]
  exact ⟨by omega, by omega, Text.exists_isLine front back⟩

/-- An analysis of a text blames one of its landmarks. -/
theorem landmark_of_analyze (h : analyze (Lexer.ofSource source) = .error (.diagnostic d)) : Landmark source d.pos := by
  cases hlex : (lex source).2 with
  | none =>
    obtain ⟨tokens, pos, htokens, hlexer, hreplay⟩ := Lexer.exists_feeds hlex
    have hne : (lex source).1 ≠ [] := by simp [htokens]
    rw [(Feed.ofLexer _).analyze_eq (Feed.ofReplay pos) hlexer hreplay] at h
    obtain ⟨t, ht, hpos⟩ := exists_token_of_analyze hne h
    rw [← hpos]
    exact Lexer.landmark_of_mem ht
  | some fault =>
    obtain ⟨hinner, hstop⟩ := Lexer.inner_of_fault hlex
    have hlexer : (Feed.ofLexer (.error fault)).Has (Lexer.ofSource source) (lex source).1 := ⟨hinner, hstop⟩
    rcases (Feed.ofLexer (.error fault)).analyze_fault hlexer with hfault | hmore
    · cases h.symm.trans hfault
      exact Lexer.landmark_of_fault hlex
    · -- whatever stands behind the tokens that were read is not to blame
      let elsewhere : Token := Lexer.endToken ⟨d.pos.line + 1, d.pos.col⟩
      obtain ⟨t, ht, hpos⟩ := exists_token_of_analyze (by simp) ((hmore [elsewhere]).trans h)
      rcases List.mem_append.1 ht with ht | ht
      · rw [← hpos]
        exact Lexer.landmark_of_mem ht
      · rw [List.mem_singleton.1 ht] at hpos
        have hline : d.pos.line + 1 = d.pos.line := congrArg Pos.line hpos
        omega

/-- A source text that does not compile is reported at one of its landmarks, on one of its lines, and the report quotes the bytes
of that line without the blanks at its ends. -/
theorem compile_points_into_source {source : Bytes} {e : CompileError} (h : compile source = .error e) :
    ∃ report, e = .report report ∧ 1 ≤ report.pos.line ∧ report.pos.line ≤ source.count 0x0a + 1 ∧ Landmark source report.pos ∧
      ∃ bytes, Text.IsLine source report.pos.line bytes ∧ Text.Trimmed bytes report.snippet := by
  cases hanalyze : analyze (Lexer.ofSource source) with
  | ok p =>
    rw [compile, hanalyze] at h
    cases h
  | error failure =>
    obtain ⟨d, rfl, -⟩ := analyze_fails _ hanalyze
    rw [compile_of_analyze hanalyze] at h
    cases h
    have hmark := landmark_of_analyze hanalyze
    obtain ⟨hfirst, hlast, bytes, hline⟩ := hmark.exists_isLine
    exact ⟨_, rfl, hfirst, hlast, hmark, bytes, hline, Text.trimmed_line hline⟩

/-- The second line has no end, a tab before it, and a stray byte and a carriage return in its comment. -/
def brokenOff : Bytes := Bytes.ofString "// \r\n\t fn main() -> void \x7b break; \x7d // " ++ [0xff, 0x0d]

/-- The stray break is blamed, and its line quoted up to the stray byte. -/
theorem compile_points_into_source_brokenOff :
    ∃ report, compile brokenOff = .error (.report report) ∧ report.pos = ⟨2, 23⟩ ∧
      report.snippet = Bytes.ofString "fn main() -> void \x7b break; \x7d // " ++ [0xff] ∧ Landmark brokenOff report.pos ∧
      ∃ bytes, Text.IsLine brokenOff report.pos.line bytes ∧ Text.Trimmed bytes report.snippet := by
  have hfails : compile brokenOff = .error (.report ((⟨⟨2, 23⟩, .strayBreak⟩ : Diagnostic).report
      (Bytes.ofString "fn main() -> void \x7b break; \x7d // " ++ [0xff]))) := by decide +kernel
  obtain ⟨report, hreport, -, -, hmark, hline⟩ := compile_points_into_source hfails
  cases hreport
  exact ⟨_, hfails, rfl, rfl, hmark, hline⟩

end OnePass

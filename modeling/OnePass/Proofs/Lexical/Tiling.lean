import Mathlib.Data.List.Basic
import OnePass.Proofs.LazyLexing
import OnePass.Proofs.Lexical.Spelling

/-!
# Tokens tile the text

A text that is lexed without a fault is a row of tiles, each a gap and the span that spells a token, and a last gap. A gap is
blanks and line comments (`Gap`). A token is placed by what stands before its span: one line further for each end of a line there,
one column further for each character since the last of them (`Pos.behind`). Main statement: `lex_tiles`.
-/

namespace OnePass

/-! ## Positions -/

/-- The position behind a text. -/
def Pos.behind (before : List Char) : Pos :=
  ⟨1 + before.count '\n', 1 + (before.reverse.takeWhile (· ≠ '\n')).length⟩

theorem Pos.behind_snoc (before : List Char) (c : Char) : Pos.behind (before ++ [c]) = (Pos.behind before).step c := by
  by_cases hc : c = '\n'
  · subst hc
    simp [behind, step]
    omega
  · simp [behind, step, hc]
    omega

theorem Pos.behind_append (before cs : List Char) : Pos.behind (before ++ cs) = (Pos.behind before).after cs := by
  induction cs generalizing before with
  | nil => rw [List.append_nil]; rfl
  | cons c cs ih =>
    rw [List.append_cons, ih, behind_snoc]
    rfl

namespace Lexer

variable {before : List Char} {cursor : Cursor}

/-! ## Gaps -/

/-- A comment goes up to here: a line or the whole text ends. -/
def EndsLine (cs : List Char) : Prop := ∀ c ∈ cs.head?, c = '\n'

/-- Blanks and line comments, where these characters follow. -/
inductive Gap : List Char → List Char → Prop where
  | nil {after : List Char} : Gap [] after
  | blank {c : Char} {gap after : List Char} (hc : Text.isBlank c = true) (h : Gap gap after) : Gap (c :: gap) after
  | comment {body gap after : List Char} (hbody : '\n' ∉ body) (hend : EndsLine (gap ++ after)) (h : Gap gap after) :
    Gap ('/' :: '/' :: (body ++ gap)) after

/-- What is skipped is a gap, and inside of a comment the comment's rest before it. -/
theorem skipGap_splits (comment : Bool) (pos : Pos) (cs : List Char) :
    ∃ body gap, cs = body ++ (gap ++ (skipGap comment pos cs).2) ∧ (skipGap comment pos cs).1 = pos.after
      (body ++ gap) ∧ '\n' ∉ body ∧
      Gap gap (skipGap comment pos cs).2 ∧
      if comment then EndsLine (gap ++ (skipGap comment pos cs).2) else body = [] := by
  fun_induction skipGap comment pos cs with
  | case1 comment pos =>
    refine ⟨[], [], rfl, rfl, List.not_mem_nil, .nil, ?_⟩
    split
    · exact fun c hc => by cases hc
    · rfl
  | case2 pos c rest ih =>
    obtain ⟨body, gap, hrest, hpos, hbody, hgap, hend⟩ := ih
    by_cases hc : c = '\n'
    · -- the line's end is a blank of its own
      subst hc
      obtain rfl : body = [] := by simpa using hend
      refine ⟨[], '\n' :: gap, congrArg ('\n' :: ·) hrest, hpos, hbody, .blank (by decide) hgap, fun d hd => ?_⟩
      cases hd
      rfl
    · refine ⟨c :: body, gap, congrArg (c :: ·) hrest, hpos, ?_, hgap, by simpa [hc] using hend⟩
      simpa [Ne.symm hc] using hbody
  | case3 pos c rest hc ih =>
    obtain ⟨body, gap, hrest, hpos, -, hgap, rfl⟩ := ih
    exact ⟨[], c :: gap, congrArg (c :: ·) hrest, hpos, List.not_mem_nil, .blank hc hgap, rfl⟩
  | case4 pos c rest _ hslash ih =>
    obtain ⟨body, gap, hrest, hpos, hbody, hgap, hend⟩ := ih
    obtain ⟨rfl, hslash⟩ := hslash
    rw [hrest] at hslash
    cases body with
    | nil =>
      -- the second slash does not end the line
      exact absurd (hend '/' hslash) (by decide)
    | cons d body =>
      cases hslash
      refine ⟨[], '/' :: '/' :: (body ++ gap), ?_, hpos, List.not_mem_nil, .comment ?_ hend hgap, rfl⟩
      · simpa using hrest
      · exact fun hmem => hbody (List.mem_cons_of_mem _ hmem)
  | case5 pos c rest => exact ⟨[], [], rfl, rfl, List.not_mem_nil, .nil, rfl⟩

/-! ## Tiles -/

/-- A token in its place: the gap before it, and its span. -/
structure Tile where
  gap : List Char
  span : List Char
  token : Token

/-- The characters of a tile. -/
def Tile.text (tile : Tile) : List Char := tile.gap ++ tile.span

/-- The tile is a gap and a spelled token, rightly placed between these texts. -/
structure Tile.Fits (tile : Tile) (before after : List Char) : Prop where
  gap : Gap tile.gap (tile.span ++ after)
  spelling : tile.token.Spells tile.span after
  pos : tile.token.pos = Pos.behind (before ++ tile.gap)

/-- The characters of a row of tiles. -/
def rowText (tiles : List Tile) : List Char := tiles.flatMap Tile.text

/-- Every tile of the row fits, and a gap ends the text. -/
def Tiled (before : List Char) : List Tile → List Char → Prop
  | [], last => Gap last []
  | tile :: tiles, last => tile.Fits before (rowText tiles ++ last) ∧ Tiled (before ++ tile.text) tiles last

/-- Behind a gap the text ends, or there is a token, or characters that start none. -/
theorem scanToken_eq (hpos : cursor.pos = .behind before) :
    ∃ gap cs, cursor.rest = gap ++ cs ∧ Gap gap cs ∧ scanToken cursor =
      match cs with
      | [] => .ok (endToken (.behind (before ++ gap)), ⟨.behind (before ++ gap), []⟩)
      | c :: rest =>
        match scan c rest with
        | .error fault => .error ⟨.behind (before ++ gap), fault⟩
        | .ok m => .ok (m.token (.behind (before ++ gap)), ⟨.after (.behind (before ++ gap)) m.span, m.rest⟩) := by
  obtain ⟨body, gap, hrest, hskip, -, hgap, rfl⟩ := skipGap_splits false cursor.pos cursor.rest
  rw [hpos, List.nil_append, ← Pos.behind_append, ← hpos] at hskip
  refine ⟨gap, _, hrest, hgap, ?_⟩
  rw [← hskip, scanToken]
  rcases skipGap false cursor.pos cursor.rest with ⟨pos, _ | ⟨c, rest⟩⟩ <;> rfl

/-- Every tile of the row fits, where these characters follow the row. -/
def Row (before : List Char) : List Tile → List Char → Prop
  | [], _ => True
  | tile :: tiles, after => tile.Fits before (rowText tiles ++ after) ∧ Row (before ++ tile.text) tiles after

theorem tiled_of_row {tiles : List Tile} {last : List Char} (h : Row before tiles last) (hlast : Gap last []) :
    Tiled before tiles last := by
  induction tiles generalizing before with
  | nil => exact hlast
  | cons tile tiles ih => exact ⟨h.1, ih h.2⟩

/-- What is left behind the tiles, and the tokens and the fault that are made of it: the end of the text, or a token that cannot
be read. -/
inductive Ending (before : List Char) : List Char → List Token × Option Diagnostic → Prop where
  | done {last : List Char} (hgap : Gap last []) : Ending before last ([endToken (.behind (before ++ last))], none)
  | malformed {gap rest : List Char} {c : Char} {fault : Fault} (hgap : Gap gap (c :: rest))
      (hscan : scan c rest = .error fault) :
    Ending before (gap ++ c :: rest) ([], some ⟨.behind (before ++ gap), fault⟩)

/-- From any place on: the characters ahead are tiles, and then lexing ends. -/
theorem lexFrom_row {before : List Char} {cursor : Cursor} (hpos : cursor.pos = .behind before) :
    ∃ tiles rest ending, cursor.rest = rowText tiles ++ rest ∧ Row before tiles rest ∧
      Ending (before ++ rowText tiles) rest ending ∧
      lexFrom cursor = (tiles.map Tile.token ++ ending.1, ending.2) := by
  obtain ⟨gap, cs, hrest, hgap, hscan⟩ := scanToken_eq hpos
  cases cs with
  | nil =>
    rw [List.append_nil] at hrest
    refine ⟨[], gap, ([endToken (.behind (before ++ gap))], none), hrest, trivial, ?_, lexFrom_eof hscan rfl⟩
    exact (List.append_nil before).symm ▸ .done hgap
  | cons c rest =>
    cases hc : scan c rest with
    | error fault =>
      simp only [hc] at hscan
      refine ⟨[], gap ++ c :: rest, ([], some ⟨.behind (before ++ gap), fault⟩), hrest, trivial, ?_, lexFrom_error hscan⟩
      exact (List.append_nil before).symm ▸ .malformed hgap hc
    | ok m =>
      simp only [hc] at hscan
      obtain ⟨hspells, hspan⟩ := scan_spells hc (.behind (before ++ gap))
      have hkind : (m.token (.behind (before ++ gap))).kind ≠ .eof := kind_scan hc
      have hshorter := scanToken_shorter hscan hkind
      have hafter : (Cursor.mk (.after (.behind (before ++ gap)) m.span) m.rest).pos = .behind (before ++ (gap ++ m.span)) := by
        rw [← List.append_assoc, Pos.behind_append (before ++ gap)]
      obtain ⟨tiles, last, ending, hmore, hrow, hending, hlex⟩ := lexFrom_row hafter
      refine ⟨⟨gap, m.span, m.token (.behind (before ++ gap))⟩ :: tiles, last, ending, ?_, ⟨⟨?_, ?_, rfl⟩, hrow⟩, ?_, ?_⟩
      · rw [hrest, hspan, show m.rest = _ from hmore]
        simp [rowText, Tile.text]
      · rw [← hmore, ← hspan]
        exact hgap
      · rw [← hmore]
        exact hspells
      · rw [List.append_assoc] at hending
        exact hending
      · rw [lexFrom_token hscan hkind, hlex]
        rfl
termination_by cursor.rest.length

/-- Without a fault the characters ahead are tiles and a gap. -/
theorem lexFrom_tiles (hpos : cursor.pos = .behind before) (h : (lexFrom cursor).2 = none) :
    ∃ tiles last, cursor.rest = rowText tiles ++ last ∧ Tiled before tiles last ∧
      (lexFrom cursor).1 = tiles.map Tile.token ++ [endToken (.behind (before ++ cursor.rest))] := by
  obtain ⟨tiles, last, ending, hrest, hrow, hending, hlex⟩ := lexFrom_row hpos
  rw [hlex] at h ⊢
  cases hending with
  | malformed hgap hscan => cases h
  | done hgap => exact ⟨tiles, last, hrest, tiled_of_row hrow hgap, by rw [hrest, List.append_assoc]⟩

end Lexer

open Lexer in
/-- A text that is lexed without a fault is tiled by its tokens, and the end token stands behind all of it. -/
theorem lex_tiles {source : Bytes} {tokens : List Token} (h : lex source = (tokens, none)) :
    ∃ tiles last, Utf8.chars source = rowText tiles ++ last ∧ Tiled [] tiles last ∧
      tokens = tiles.map Tile.token ++ [endToken (.behind (Utf8.chars source))] := by
  have hpos : (Cursor.ofSource source).pos = .behind [] := rfl
  have hnone : (lexFrom (.ofSource source)).2 = none := congrArg Prod.snd h
  obtain ⟨tiles, last, hchars, htiled, htokens⟩ := lexFrom_tiles hpos hnone
  have hlex : (lexFrom (.ofSource source)).1 = tokens := congrArg Prod.fst h
  exact ⟨tiles, last, hchars, htiled, by rw [← hlex, htokens]; rfl⟩

/-- An escape on the second line, a sign of two characters, an exponent, and a comment that the text ends in. -/
def twoLines : Bytes := Bytes.ofString "let x1=\n \"a\\n\"->1.5e3 // end"

theorem lex_tiles_twoLines :
    ∃ tokens, lex twoLines = (tokens, none) ∧
      ∃ tiles last, Utf8.chars twoLines = Lexer.rowText tiles ++ last ∧ Lexer.Tiled [] tiles last ∧
        tokens = tiles.map Lexer.Tile.token ++ [Lexer.endToken (.behind (Utf8.chars twoLines))] := by
  have hnone : (lex twoLines).2 = none := by decide +kernel
  have hlex : lex twoLines = ((lex twoLines).1, none) := Prod.ext rfl hnone
  exact ⟨_, hlex, lex_tiles hlex⟩

end OnePass

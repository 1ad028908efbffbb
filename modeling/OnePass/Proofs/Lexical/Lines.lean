import OnePass.Proofs.Lexical.Pieces
import OnePass.Text.Blank

/-!
# Lines of a text

A line stands between two ends of lines, or at an end of the text, and has a number by the ends of lines before it (`IsLine`). A
text is trimmed when the blanks at both of its ends are gone and nothing else is (`Trimmed`). The quoted text of a line is its
trimmed bytes, whatever these bytes are (`trimmed_line`), and every place in a text is on one of its lines (`exists_isLine`).
-/

namespace OnePass.Text

variable {bytes source : Bytes} {number : Int} {ps : List Utf8.Piece}

/-! ## Lines -/

/-- The bytes are the line of the text with a number, counted from 1. -/
def IsLine (source : Bytes) (number : Int) (bytes : Bytes) : Prop :=
  ∃ above below, source = above ++ (bytes ++ below) ∧ number = above.count 0x0a + 1 ∧ 0x0a ∉ bytes ∧
    (above = [] ∨ above.getLast? = some 0x0a) ∧ (below = [] ∨ below.head? = some 0x0a)

/-- The first piece of a text goes up to its first end of a line. -/
theorem head?_splitOn {below : Bytes} (hbytes : 0x0a ∉ bytes) (hbelow : below = [] ∨ below.head? = some 0x0a) :
    (Bytes.splitOn 0x0a (bytes ++ below)).head? = some bytes := by
  rcases hbelow with rfl | hbelow
  · rw [List.append_nil, Bytes.splitOn_of_notMem hbytes]
    rfl
  · obtain ⟨rest, rfl⟩ := List.head?_eq_some_iff.1 hbelow
    rw [Bytes.splitOn_append, Bytes.splitOn_of_notMem hbytes]
    rfl

/-- A line is found under its number. -/
theorem IsLine.getElem?_splitOn (h : IsLine source number bytes) :
    (Bytes.splitOn 0x0a source)[(number - 1).toNat]? = some bytes := by
  obtain ⟨above, below, rfl, rfl, hbytes, habove, hbelow⟩ := h
  have hfirst := head?_splitOn hbytes hbelow
  have hindex : (((above.count 0x0a : Nat) : Int) + 1 - 1).toNat = above.count 0x0a := by omega
  rw [hindex]
  rcases habove with rfl | habove
  · rw [List.head?_eq_getElem?] at hfirst
    exact hfirst
  · -- the text splits behind the lines above, and there are as many of them as ends of lines
    obtain ⟨lines, rfl⟩ := List.getLast?_eq_some_iff.1 habove
    have hlength : (lines ++ [0x0a]).count 0x0a = (Bytes.splitOn 0x0a lines).length := by
      rw [Bytes.length_splitOn, List.count_append]
      rfl
    rw [List.append_assoc, List.singleton_append, Bytes.splitOn_append, hlength,
      List.getElem?_append_right (Nat.le_refl _), Nat.sub_self, ← List.head?_eq_getElem?, hfirst]

/-- Cuts a text before its first end of a line. -/
theorem exists_first_line (back : Bytes) : ∃ rest below, back = rest ++ below ∧ 0x0a ∉ rest ∧
    (below = [] ∨ below.head? = some 0x0a) := by
  induction back with
  | nil => exact ⟨[], [], rfl, List.not_mem_nil, .inl rfl⟩
  | cons b back ih =>
    by_cases hb : b = 0x0a
    · exact ⟨[], b :: back, rfl, List.not_mem_nil, .inr (by rw [hb]; rfl)⟩
    · obtain ⟨rest, below, rfl, hrest, hbelow⟩ := ih
      exact ⟨b :: rest, below, rfl, by simp [hrest, Ne.symm hb], hbelow⟩

/-- A place in a text is on the line that the ends of lines before it tell. -/
theorem exists_isLine (front back : Bytes) : ∃ bytes, IsLine (front ++ back) (front.count 0x0a + 1) bytes := by
  obtain ⟨above, start, rfl, hstart, habove⟩ := Bytes.exists_last 0x0a front
  obtain ⟨rest, below, rfl, hrest, hbelow⟩ := exists_first_line back
  refine ⟨start ++ rest, above, below, by simp only [List.append_assoc], ?_, ?_, habove, hbelow⟩
  · rw [List.count_append, List.count_eq_zero_of_not_mem hstart, Nat.add_zero]
  · simp [hstart, hrest]

/-! ## Trimming -/

/-- The text without the blanks at its ends, which are all gone. -/
def Trimmed (text inner : Bytes) : Prop :=
  ∃ left right, text = left ++ (inner ++ right) ∧ (∀ c ∈ Utf8.chars left, isBlank c = true) ∧
    (∀ c ∈ Utf8.chars right, isBlank c = true) ∧
    (∀ c ∈ (Utf8.chars inner).head?, isBlank c = false) ∧ ∀ c ∈ (Utf8.chars inner).getLast?, isBlank c = false

/-- A stray byte reads as a character that is no blank. -/
theorem isBlankPiece_eq (p : Utf8.Piece) : isBlankPiece p = isBlank p.toChar := by
  cases p with
  | char c => rfl
  | stray b => rfl

theorem isBlank_of_pieces {b : Bytes} (hb : Utf8.pieces b = ps) (h : ∀ p ∈ ps, isBlankPiece p = true) :
    ∀ c ∈ Utf8.chars b, isBlank c = true := by
  intro c hc
  rw [Utf8.chars, hb] at hc
  obtain ⟨p, hp, rfl⟩ := List.mem_map.1 hc
  rw [← isBlankPiece_eq]
  exact h p hp

theorem isBlank_of_head?_dropWhile {p : Utf8.Piece} (h : (ps.dropWhile isBlankPiece).head? = some p) :
    isBlank p.toChar = false := by
  have hnot := List.head?_dropWhile_not isBlankPiece ps
  rw [h] at hnot
  rw [← isBlankPiece_eq]
  exact hnot

theorem trimmed_trim (text : Bytes) : Trimmed text (trim text) := by
  let blanks := (Utf8.pieces text).takeWhile isBlankPiece
  let rest := (Utf8.pieces text).dropWhile isBlankPiece
  let inner := (rest.reverse.dropWhile isBlankPiece).reverse
  let ending := (rest.reverse.takeWhile isBlankPiece).reverse
  have hrest : rest = inner ++ ending := by
    rw [← List.reverse_append, List.takeWhile_append_dropWhile, List.reverse_reverse]
  have hpieces : Utf8.pieces text = blanks ++ (inner ++ ending) := by
    rw [← hrest, List.takeWhile_append_dropWhile]
  have htext : text = blanks.flatMap Utf8.Piece.bytes ++ (inner.flatMap Utf8.Piece.bytes ++ ending.flatMap Utf8.Piece.bytes) := by
    rw [← List.flatMap_append, ← List.flatMap_append, ← hpieces, Utf8.flatMap_bytes_pieces]
  obtain ⟨hleft, hmore⟩ := Utf8.pieces_of_cut (htext ▸ hpieces) rfl
  obtain ⟨hinner, hright⟩ := Utf8.pieces_of_cut hmore rfl
  refine ⟨_, _, htext, isBlank_of_pieces hleft fun p hp => ?_, isBlank_of_pieces hright fun p hp => ?_,
    fun c hc => ?_, fun c hc => ?_⟩
  · exact List.all_eq_true.1 List.all_takeWhile p hp
  · exact List.all_eq_true.1 List.all_takeWhile p (List.mem_reverse.1 hp)
  · -- what follows the first blanks starts with no blank
    change c ∈ (Utf8.chars (inner.flatMap Utf8.Piece.bytes)).head? at hc
    rw [Utf8.chars, hinner, List.head?_map] at hc
    obtain ⟨p, hp, rfl⟩ := Option.map_eq_some_iff.1 hc
    have hfirst : rest.head? = some p := by rw [hrest, List.head?_append, hp]; rfl
    exact isBlank_of_head?_dropWhile hfirst
  · change c ∈ (Utf8.chars (inner.flatMap Utf8.Piece.bytes)).getLast? at hc
    rw [Utf8.chars, hinner, List.getLast?_map, List.getLast?_reverse] at hc
    obtain ⟨p, hp, rfl⟩ := Option.map_eq_some_iff.1 hc
    exact isBlank_of_head?_dropWhile hp

/-- The quoted text of a line is its bytes without the blanks at its ends. -/
theorem trimmed_line (h : IsLine source number bytes) : Trimmed bytes (line source number) := by
  have hpositive : ¬number < 1 := by
    obtain ⟨above, below, -, rfl, -⟩ := h
    omega
  rw [line, if_neg hpositive, h.getElem?_splitOn]
  exact trimmed_trim bytes

end OnePass.Text

import Mathlib
import OnePass.Proofs.Lexical.Characters

/-!
# Pieces of a byte string

The pieces of a byte string put together are the byte string (`flatMap_bytes_pieces`), and a cut between two pieces leaves all of
them as they are (`pieces_of_cut`). So a place between two characters of a text is a place between two of its bytes
(`exists_of_chars_eq_append`), with as many ends of lines before it in the one as in the other (`count_newline`). A byte string is
valid just if it is the bytes of some characters (`isValid_iff`).
-/

namespace OnePass

namespace Utf8

variable {c : Char} {n x y : Nat} {b lead : UInt8} {back front rest : Bytes}

/-! ## Characters that are read -/

theorem continuation?_eq_some (h : continuation? b = some x) : b.toNat = x + 0x80 ∧ x < 64 := by
  unfold continuation? at h
  split at h
  · rename_i hrange
    simp only [UInt8.le_iff_toNat_le, UInt8.lt_iff_toNat_lt, UInt8.reduceToNat] at hrange
    have hx := Option.some.inj h
    omega
  · cases h

theorem scalar?_eq_some {least value : Nat} (h : scalar? least value = some c) : c.toNat = value ∧ least ≤ value := by
  unfold scalar? at h
  split at h
  · split at h
    · rename_i hleast
      cases h
      exact ⟨by simp [Char.toNat, Char.ofNatAux], hleast⟩
    · cases h
  · cases h

theorem utf8EncodeChar_two (hc : c.toNat = n * 64 + x) (hleast : 0x80 ≤ c.toNat) (hn : n < 32) (hx : x < 64) :
    String.utf8EncodeChar c = [UInt8.ofNat (n + 0xc0), UInt8.ofNat (x + 0x80)] := by
  have hlead : c.toNat / 64 % 32 = n := by omega
  have hlast : c.toNat % 64 = x := by omega
  simp only [String.utf8EncodeChar, Char.toNat_val]
  rw [if_neg (by omega), if_pos (by omega), hlead, hlast]

theorem utf8EncodeChar_three (hc : c.toNat = (n * 64 + x) * 64 + y) (hleast : 0x800 ≤ c.toNat) (hn : n < 16)
    (hx : x < 64) (hy : y < 64) :
    String.utf8EncodeChar c = [UInt8.ofNat (n + 0xe0), UInt8.ofNat (x + 0x80), UInt8.ofNat (y + 0x80)] := by
  have hlead : c.toNat / 4096 % 16 = n := by omega
  have hmiddle : c.toNat / 64 % 64 = x := by omega
  have hlast : c.toNat % 64 = y := by omega
  simp only [String.utf8EncodeChar, Char.toNat_val]
  rw [if_neg (by omega), if_neg (by omega), if_pos (by omega), hlead, hmiddle, hlast]

theorem utf8EncodeChar_four {z : Nat} (hc : c.toNat = ((n * 64 + x) * 64 + y) * 64 + z) (hleast : 0x10000 ≤ c.toNat) (hn : n < 8)
    (hx : x < 64) (hy : y < 64) (hz : z < 64) :
    String.utf8EncodeChar c =
      [UInt8.ofNat (n + 0xf0), UInt8.ofNat (x + 0x80), UInt8.ofNat (y + 0x80), UInt8.ofNat (z + 0x80)] := by
  have hlead : c.toNat / 262144 % 8 = n := by omega
  have hsecond : c.toNat / 4096 % 64 = x := by omega
  have hthird : c.toNat / 64 % 64 = y := by omega
  have hlast : c.toNat % 64 = z := by omega
  simp only [String.utf8EncodeChar, Char.toNat_val]
  rw [if_neg (by omega), if_neg (by omega), if_neg (by omega), hlead, hsecond, hthird, hlast]

/-- A character that is read is spelled by the bytes it was read from. -/
theorem utf8EncodeChar_of_spelled? (h : spelled? lead rest = some (c, n)) :
    ∃ tail more, rest = tail ++ more ∧ tail.length = n ∧ String.utf8EncodeChar c = lead :: tail := by
  unfold spelled? at h
  simp only [UInt8.le_iff_toNat_le, UInt8.lt_iff_toNat_lt, UInt8.reduceToNat, Option.bind_eq_bind, Option.pure_def] at h
  split at h
  · rename_i hlead
    obtain ⟨d, hd, heq⟩ := Option.map_eq_some_iff.1 h
    cases heq
    refine ⟨[], rest, rfl, rfl, ?_⟩
    have hvalue := (scalar?_eq_some hd).1
    simp only [String.utf8EncodeChar, Char.toNat_val]
    rw [if_pos (by omega), hvalue, UInt8.ofNat_toNat]
  split at h
  · rename_i hlow hlead
    split at h
    · rename_i a more
      obtain ⟨x, hx, h⟩ := Option.bind_eq_some_iff.1 h
      obtain ⟨d, hd, h⟩ := Option.bind_eq_some_iff.1 h
      cases h
      obtain ⟨ha, hxlt⟩ := continuation?_eq_some hx
      obtain ⟨hvalue, hleast⟩ := scalar?_eq_some hd
      refine ⟨[a], more, rfl, rfl, ?_⟩
      rw [utf8EncodeChar_two hvalue (hvalue ▸ hleast) (by omega) hxlt, ← ha, Nat.sub_add_cancel hlead.1,
        UInt8.ofNat_toNat, UInt8.ofNat_toNat]
    · cases h
  split at h
  · rename_i hlow hlow' hlead
    split at h
    · rename_i a b more
      obtain ⟨x, hx, h⟩ := Option.bind_eq_some_iff.1 h
      obtain ⟨y, hy, h⟩ := Option.bind_eq_some_iff.1 h
      obtain ⟨d, hd, h⟩ := Option.bind_eq_some_iff.1 h
      cases h
      obtain ⟨ha, hxlt⟩ := continuation?_eq_some hx
      obtain ⟨hb, hylt⟩ := continuation?_eq_some hy
      obtain ⟨hvalue, hleast⟩ := scalar?_eq_some hd
      refine ⟨[a, b], more, rfl, rfl, ?_⟩
      rw [utf8EncodeChar_three hvalue (hvalue ▸ hleast) (by omega) hxlt hylt, ← ha, ← hb, Nat.sub_add_cancel hlead.1]
      simp only [UInt8.ofNat_toNat]
    · cases h
  split at h
  · rename_i hlow hlow' hlow'' hlead
    split at h
    · rename_i a b e more
      obtain ⟨x, hx, h⟩ := Option.bind_eq_some_iff.1 h
      obtain ⟨y, hy, h⟩ := Option.bind_eq_some_iff.1 h
      obtain ⟨z, hz, h⟩ := Option.bind_eq_some_iff.1 h
      obtain ⟨d, hd, h⟩ := Option.bind_eq_some_iff.1 h
      cases h
      obtain ⟨ha, hxlt⟩ := continuation?_eq_some hx
      obtain ⟨hb, hylt⟩ := continuation?_eq_some hy
      obtain ⟨he, hzlt⟩ := continuation?_eq_some hz
      obtain ⟨hvalue, hleast⟩ := scalar?_eq_some hd
      refine ⟨[a, b, e], more, rfl, rfl, ?_⟩
      rw [utf8EncodeChar_four hvalue (hvalue ▸ hleast) (by omega) hxlt hylt hzlt, ← ha, ← hb, ← he, Nat.sub_add_cancel hlead.1]
      simp only [UInt8.ofNat_toNat]
    · cases h
  · cases h

/-! ## Piece by piece -/

theorem pieces_stray (h : spelled? b rest = none) : pieces (b :: rest) = .stray b :: pieces rest := by
  rw [pieces, piecesAfter, first, h]
  rfl

/-- A byte string is empty, or it starts with a character or with a stray byte. -/
theorem pieces_induction {motive : Bytes → Prop} (nil : motive [])
    (char : ∀ c rest, motive rest → motive (String.utf8EncodeChar c ++ rest))
    (stray : ∀ b rest, spelled? b rest = none → motive rest → motive (b :: rest)) (b : Bytes) : motive b := by
  match b with
  | [] => exact nil
  | lead :: rest =>
    cases hread : spelled? lead rest with
    | none => exact stray lead rest hread (pieces_induction nil char stray rest)
    | some found =>
      obtain ⟨c, n⟩ := found
      obtain ⟨tail, more, hrest, -, hspelling⟩ := utf8EncodeChar_of_spelled? hread
      have hshorter : more.length ≤ rest.length := by simp [hrest]
      have hmore := char c more (pieces_induction nil char stray more)
      rwa [hspelling, List.cons_append, ← hrest] at hmore
termination_by b.length
decreasing_by all_goals simp only [List.length_cons]; omega

/-- The pieces of a byte string are all of it. -/
theorem flatMap_bytes_pieces (b : Bytes) : (pieces b).flatMap Piece.bytes = b := by
  induction b using pieces_induction with
  | nil => rfl
  | char c rest ih =>
    rw [pieces_utf8EncodeChar_append, List.flatMap_cons, ih]
    rfl
  | stray b rest hread ih =>
    rw [pieces_stray hread, List.flatMap_cons, ih]
    rfl

/-- Where the end is cut off, nothing is read that was not read before. -/
theorem spelled?_eq_none_of_append (h : spelled? lead (front ++ back) = none) : spelled? lead front = none := by
  cases hread : spelled? lead front with
  | none => rfl
  | some found =>
    obtain ⟨c, n⟩ := found
    obtain ⟨tail, more, rfl, -, hspelling⟩ := utf8EncodeChar_of_spelled? hread
    obtain ⟨lead', tail', hspelling', hread'⟩ := spelled?_utf8EncodeChar c (more ++ back)
    rw [hspelling] at hspelling'
    cases hspelling'
    rw [List.append_assoc, hread'] at h
    cases h

/-- A cut between two pieces leaves the pieces before it and those behind it. -/
theorem pieces_of_cut {ps qs : List Piece} (h : pieces (front ++ back) = ps ++ qs) (hfront : ps.flatMap Piece.bytes = front) :
    pieces front = ps ∧ pieces back = qs := by
  induction ps generalizing front with
  | nil =>
    cases hfront
    exact ⟨rfl, h⟩
  | cons p ps ih =>
    subst hfront
    cases p with
    | char c =>
      have hbytes : (Piece.char c :: ps).flatMap Piece.bytes = String.utf8EncodeChar c ++ ps.flatMap Piece.bytes :=
        List.flatMap_cons
      rw [hbytes, List.append_assoc, pieces_utf8EncodeChar_append] at h
      obtain ⟨hps, hqs⟩ := ih (List.cons.inj h).2 rfl
      rw [hbytes, pieces_utf8EncodeChar_append, hps]
      exact ⟨rfl, hqs⟩
    | stray b =>
      have hbytes : (Piece.stray b :: ps).flatMap Piece.bytes = b :: ps.flatMap Piece.bytes := List.flatMap_cons
      rw [hbytes, List.cons_append] at h
      cases hread : spelled? b (ps.flatMap Piece.bytes ++ back) with
      | some found =>
        rw [pieces, piecesAfter, first, hread] at h
        cases h
      | none =>
        rw [pieces_stray hread] at h
        obtain ⟨hps, hqs⟩ := ih (List.cons.inj h).2 rfl
        rw [hbytes, pieces_stray (spelled?_eq_none_of_append hread), hps]
        exact ⟨rfl, hqs⟩

/-- A place between two characters is a place between two bytes. -/
theorem exists_of_chars_eq_append {b : Bytes} {before after : List Char} (h : chars b = before ++ after) :
    ∃ front back, b = front ++ back ∧ chars front = before ∧ chars back = after := by
  obtain ⟨ps, qs, hpieces, hps, hqs⟩ := List.map_eq_append_iff.1 h
  have hb : b = ps.flatMap Piece.bytes ++ qs.flatMap Piece.bytes := by
    rw [← List.flatMap_append, ← hpieces, flatMap_bytes_pieces]
  have hcut : pieces (ps.flatMap Piece.bytes ++ qs.flatMap Piece.bytes) = ps ++ qs := by rw [← hb, hpieces]
  obtain ⟨hfront, hback⟩ := pieces_of_cut hcut rfl
  exact ⟨_, _, hb, by rw [chars, hfront, hps], by rw [chars, hback, hqs]⟩

/-! ## Valid byte strings -/

/-- The byte string is the bytes of some characters. -/
theorem isValid_iff {b : Bytes} : isValid b = true ↔ ∃ cs, b = Bytes.ofChars cs := by
  constructor
  · intro hvalid
    refine ⟨chars b, ?_⟩
    have hbytes : ∀ p ∈ pieces b, p.bytes = String.utf8EncodeChar p.toChar := by
      intro p hp
      have hchar := List.all_eq_true.1 hvalid p hp
      cases p with
      | char c => rfl
      | stray b => cases hchar
    calc b = ((pieces b).map Piece.bytes).flatten := (flatMap_bytes_pieces b).symm
      _ = ((pieces b).map (String.utf8EncodeChar ∘ Piece.toChar)).flatten := by rw [List.map_congr_left hbytes]; rfl
      _ = Bytes.ofChars (chars b) := by rw [← List.map_map]; rfl
  · rintro ⟨cs, rfl⟩
    rw [isValid, pieces_ofChars, List.all_map]
    exact List.all_eq_true.2 fun _ _ => rfl

/-! ## Ends of lines -/

theorem eq_newline_of_mem_utf8EncodeChar (h : 0x0a ∈ String.utf8EncodeChar c) : c = '\n' := by
  have hbyte {n : Nat} (hn : 0x0a = UInt8.ofNat n) (hlt : n < 256) : n = 10 := by
    rw [← UInt8.toNat_ofNat_of_lt' hlt, ← hn]
    rfl
  simp only [String.utf8EncodeChar, Char.toNat_val] at h
  split at h
  · have hten := hbyte (List.mem_singleton.1 h) (by omega)
    rw [← Char.ofNat_toNat c, hten]
  -- in the longer spellings every byte is above the ASCII range
  split at h
  · simp only [List.mem_cons, List.not_mem_nil, or_false] at h
    rcases h with h | h <;> have := hbyte h (by omega) <;> omega
  split at h
  · simp only [List.mem_cons, List.not_mem_nil, or_false] at h
    rcases h with h | h | h <;> have := hbyte h (by omega) <;> omega
  · simp only [List.mem_cons, List.not_mem_nil, or_false] at h
    rcases h with h | h | h | h <;> have := hbyte h (by omega) <;> omega

theorem count_utf8EncodeChar (c : Char) : (String.utf8EncodeChar c).count 0x0a = [c].count '\n' := by
  by_cases hc : c = '\n'
  · subst hc
    decide
  · have hnone : 0x0a ∉ String.utf8EncodeChar c := fun hmem => hc (eq_newline_of_mem_utf8EncodeChar hmem)
    rw [List.count_eq_zero_of_not_mem hnone, List.count_eq_zero_of_not_mem (by simpa using Ne.symm hc)]

/-- A byte string has as many ends of lines as the text that it is read as. -/
theorem count_newline (b : Bytes) : b.count 0x0a = (chars b).count '\n' := by
  induction b using pieces_induction with
  | nil => rfl
  | char c rest ih =>
    have hchars : chars (String.utf8EncodeChar c ++ rest) = [c] ++ chars rest := by rw [chars, pieces_utf8EncodeChar_append]; rfl
    rw [hchars, List.count_append, List.count_append, count_utf8EncodeChar, ih]
  | stray b rest hread ih =>
    have hchars : chars (b :: rest) = replacement :: chars rest := by rw [chars, pieces_stray hread]; rfl
    have hb : b ≠ 0x0a := by
      rintro rfl
      cases hread
    rw [hchars, List.count_cons_of_ne hb, List.count_cons_of_ne (by decide), ih]

end Utf8

end OnePass

import OnePass.Text.Utf8

/-!
# Characters and their bytes

The bytes of a list of characters are read as these characters again (`chars_ofChars`): each character is spelled well, with as
many bytes as it takes and no more.
-/

namespace OnePass.Utf8

theorem scalar?_toNat {least : Nat} {c : Char} (h : least ≤ c.toNat) : scalar? least c.toNat = some c := by
  have hvalid : c.toNat.isValidChar := c.valid
  have hchar := Char.ofNat_toNat c
  rw [Char.ofNat, dif_pos hvalid] at hchar
  rw [scalar?, dif_pos hvalid, if_pos h, hchar]

theorem ofNat_lt_iff {n : Nat} (h : n < 256) (b : UInt8) : UInt8.ofNat n < b ↔ n < b.toNat := by
  rw [UInt8.lt_iff_toNat_lt, UInt8.toNat_ofNat_of_lt' h]

theorem le_ofNat_iff {n : Nat} (h : n < 256) (b : UInt8) : b ≤ UInt8.ofNat n ↔ b.toNat ≤ n := by
  rw [UInt8.le_iff_toNat_le, UInt8.toNat_ofNat_of_lt' h]

/-- A byte that carries six bits. -/
theorem continuation?_ofNat {x : Nat} (h : x < 64) : continuation? (UInt8.ofNat (x + 0x80)) = some x := by
  have hbyte : x + 0x80 < 256 := by omega
  have hrange : 0x80 ≤ UInt8.ofNat (x + 0x80) ∧ UInt8.ofNat (x + 0x80) < 0xc0 := by
    rw [le_ofNat_iff hbyte, ofNat_lt_iff hbyte]
    exact ⟨Nat.le_add_left .., Nat.add_lt_add_right h 0x80⟩
  rw [continuation?, if_pos hrange, UInt8.toNat_ofNat_of_lt' hbyte, Nat.add_sub_cancel]

/-! ## Spellings of one to four bytes -/

section

variable {n x y z : Nat} (rest : Bytes)

theorem spelled?_one (hn : n < 0x80) : spelled? (UInt8.ofNat n) rest = (scalar? 0 n).map (·, 0) := by
  have hlt : n < 256 := by omega
  have hlead : UInt8.ofNat n < 0x80 := (ofNat_lt_iff hlt 0x80).2 hn
  unfold spelled?
  rw [if_pos hlead, UInt8.toNat_ofNat_of_lt' hlt]

theorem spelled?_two (hn : n < 32) (hx : x < 64) :
    spelled? (UInt8.ofNat (n + 0xc0)) (UInt8.ofNat (x + 0x80) :: rest) = (scalar? 0x80 (n * 64 + x)).map (·, 1) := by
  have hlt : n + 0xc0 < 256 := by omega
  simp only [spelled?, ofNat_lt_iff hlt, le_ofNat_iff hlt, UInt8.toNat_ofNat_of_lt' hlt,
    continuation?_ofNat hx, Nat.add_sub_cancel]
  rw [if_neg (by simp), if_pos ⟨Nat.le_add_left .., Nat.add_lt_add_right hn 0xc0⟩, Option.map_eq_bind]
  rfl

theorem spelled?_three (hn : n < 16) (hx : x < 64) (hy : y < 64) :
    spelled? (UInt8.ofNat (n + 0xe0)) (UInt8.ofNat (x + 0x80) :: UInt8.ofNat (y + 0x80) :: rest) =
      (scalar? 0x800 ((n * 64 + x) * 64 + y)).map (·, 2) := by
  have hlt : n + 0xe0 < 256 := by omega
  simp only [spelled?, ofNat_lt_iff hlt, le_ofNat_iff hlt, UInt8.toNat_ofNat_of_lt' hlt,
    continuation?_ofNat hx, continuation?_ofNat hy, Nat.add_sub_cancel]
  rw [if_neg (by simp), if_neg (by simp), if_pos ⟨Nat.le_add_left .., Nat.add_lt_add_right hn 0xe0⟩, Option.map_eq_bind]
  rfl

theorem spelled?_four (hn : n < 8) (hx : x < 64) (hy : y < 64) (hz : z < 64) :
    spelled? (UInt8.ofNat (n + 0xf0)) (UInt8.ofNat (x + 0x80) :: UInt8.ofNat (y + 0x80) :: UInt8.ofNat (z + 0x80) :: rest) =
      (scalar? 0x10000 (((n * 64 + x) * 64 + y) * 64 + z)).map (·, 3) := by
  have hlt : n + 0xf0 < 256 := by omega
  simp only [spelled?, ofNat_lt_iff hlt, le_ofNat_iff hlt, UInt8.toNat_ofNat_of_lt' hlt,
    continuation?_ofNat hx, continuation?_ofNat hy, continuation?_ofNat hz, Nat.add_sub_cancel]
  rw [if_neg (by simp), if_neg (by simp), if_neg (by simp), if_pos ⟨Nat.le_add_left .., Nat.add_lt_add_right hn 0xf0⟩,
    Option.map_eq_bind]
  rfl

end

/-- The spelling of a character is read as this character, whatever follows. -/
theorem spelled?_utf8EncodeChar (c : Char) (rest : Bytes) :
    ∃ lead tail, String.utf8EncodeChar c = lead :: tail ∧ spelled? lead (tail ++ rest) = some (c, tail.length) := by
  have hvalid : c.toNat < 0x110000 := by
    have := c.valid
    simp only [UInt32.isValidChar, Nat.isValidChar, Char.toNat_val] at this
    omega
  unfold String.utf8EncodeChar
  simp only [Char.toNat_val]
  split
  · rename_i hone
    refine ⟨_, [], rfl, ?_⟩
    rw [spelled?_one _ (by omega), scalar?_toNat (Nat.zero_le _)]
    rfl
  split
  · rename_i hone htwo
    refine ⟨_, [_], rfl, ?_⟩
    have hsum : c.toNat / 64 % 32 * 64 + c.toNat % 64 = c.toNat := by omega
    change spelled? _ (_ :: rest) = _
    rw [spelled?_two rest (by omega) (by omega), hsum, scalar?_toNat (by omega)]
    rfl
  split
  · rename_i hone htwo hthree
    refine ⟨_, [_, _], rfl, ?_⟩
    have hsum : (c.toNat / 4096 % 16 * 64 + c.toNat / 64 % 64) * 64 + c.toNat % 64 = c.toNat := by omega
    change spelled? _ (_ :: _ :: rest) = _
    rw [spelled?_three rest (by omega) (by omega) (by omega), hsum, scalar?_toNat (by omega)]
    rfl
  · refine ⟨_, [_, _, _], rfl, ?_⟩
    have hsum : ((c.toNat / 262144 % 8 * 64 + c.toNat / 4096 % 64) * 64 + c.toNat / 64 % 64) * 64 + c.toNat % 64 =
      c.toNat := by omega
    change spelled? _ (_ :: _ :: _ :: rest) = _
    rw [spelled?_four rest (by omega) (by omega) (by omega) (by omega), hsum, scalar?_toNat (by omega)]
    rfl

/-- The pieces behind the rest of a character. -/
theorem piecesAfter_append (tail rest : Bytes) : piecesAfter tail.length (tail ++ rest) = pieces rest := by
  induction tail with
  | nil => rfl
  | cons b tail ih => exact ih

/-- The pieces of a text that starts with the spelling of a character. -/
theorem pieces_utf8EncodeChar_append (c : Char) (rest : Bytes) :
    pieces (String.utf8EncodeChar c ++ rest) = .char c :: pieces rest := by
  obtain ⟨lead, tail, hspelling, hread⟩ := spelled?_utf8EncodeChar c rest
  have hfirst : first lead (tail ++ rest) = (.char c, tail.length) := by rw [first, hread]
  rw [hspelling, List.cons_append, pieces, piecesAfter, hfirst, piecesAfter_append]

theorem pieces_ofChars (cs : List Char) : pieces (Bytes.ofChars cs) = cs.map .char := by
  induction cs with
  | nil => rfl
  | cons c cs ih =>
    rw [Bytes.ofChars, List.flatMap_cons, pieces_utf8EncodeChar_append]
    exact congrArg (.char c :: ·) ih

/-- The bytes of characters are read as these characters. -/
theorem chars_ofChars (cs : List Char) : chars (Bytes.ofChars cs) = cs := by
  rw [chars, pieces_ofChars, List.map_map]
  exact List.map_id cs

end OnePass.Utf8

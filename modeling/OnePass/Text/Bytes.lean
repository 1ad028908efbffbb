/-!
# Byte strings

Every text the project reads or writes is a byte string, since a source file, a token or a console may hold bytes that are no
UTF-8. Here are the numerals and the padding that the project's texts are made of.
-/

namespace OnePass

-- Powers are those of the core library, also where a library of algebra brings its own.
attribute [instance(high), default_instance high + 1] instPowNat

/-- A byte string. -/
abbrev Bytes := List UInt8

namespace Bytes

/-- The UTF-8 bytes of a text. -/
def ofString (s : String) : Bytes := s.toList.flatMap String.utf8EncodeChar

/-- The bytes of a list of characters. -/
def ofChars (cs : List Char) : Bytes := cs.flatMap String.utf8EncodeChar

/-- The decimal numeral of a natural number. -/
def ofNat (n : Nat) : Bytes := ofChars (Nat.toDigits 10 n)

/-- The decimal numeral of an integer, with a minus sign when it is negative. -/
def ofInt : Int → Bytes
  | .ofNat n => ofNat n
  | .negSucc n => 0x2d :: ofNat (n + 1)

/-- The lower-case hexadecimal numeral of a natural number, filled with zeros up to `width` digits. -/
def ofNatHex (width n : Nat) : Bytes :=
  let digits := ofChars (Nat.toDigits 16 n)
  List.replicate (width - digits.length) 0x30 ++ digits

/-- Fills with blanks on the left up to `width` bytes. -/
def padLeft (width : Nat) (b : Bytes) : Bytes := List.replicate (width - b.length) 0x20 ++ b

/-- Joins byte strings with a separator. -/
def join (separator : Bytes) (parts : List Bytes) : Bytes := (parts.intersperse separator).flatten

/-- The pieces between the occurrences of a byte, of which there is always at least one. -/
def splitOn (separator : UInt8) : Bytes → List Bytes
  | [] => [[]]
  | b :: rest =>
    match splitOn separator rest with
    | [] => [[b]]
    | piece :: pieces => if b = separator then [] :: piece :: pieces else (b :: piece) :: pieces

/-- A text always splits into at least one piece. -/
theorem splitOn_ne_nil (separator : UInt8) (b : Bytes) : splitOn separator b ≠ [] := by
  cases b with
  | nil => simp [splitOn]
  | cons b rest =>
    unfold splitOn
    split
    · simp
    · split <;> simp

theorem splitOn_cons_self (separator : UInt8) (rest : Bytes) :
    splitOn separator (separator :: rest) = [] :: splitOn separator rest := by
  rw [splitOn]
  split
  · rename_i hnil
    exact absurd hnil (splitOn_ne_nil separator rest)
  · rename_i hrest
    rw [if_pos rfl, hrest]

theorem splitOn_cons_of_ne {separator b : UInt8} (h : b ≠ separator) (rest : Bytes) :
    splitOn separator (b :: rest) = (splitOn separator rest).modifyHead (b :: ·) := by
  rw [splitOn]
  split
  · rename_i hnil
    exact absurd hnil (splitOn_ne_nil separator rest)
  · rename_i hrest
    rw [if_neg h, hrest]
    rfl

/-- A text without the separator is in one piece. -/
theorem splitOn_of_notMem {separator : UInt8} {b : Bytes} (h : separator ∉ b) : splitOn separator b = [b] := by
  induction b with
  | nil => rfl
  | cons c rest ih =>
    simp only [List.mem_cons, not_or] at h
    rw [splitOn_cons_of_ne (Ne.symm h.1), ih h.2]
    rfl

/-- The pieces of a text that is cut at a separator. -/
theorem splitOn_append (separator : UInt8) (front back : Bytes) :
    splitOn separator (front ++ separator :: back) = splitOn separator front ++ splitOn separator back := by
  induction front with
  | nil => exact splitOn_cons_self separator back
  | cons c rest ih =>
    by_cases hc : c = separator
    · subst hc
      rw [List.cons_append, splitOn_cons_self, splitOn_cons_self, ih]
      rfl
    · obtain ⟨piece, pieces, hrest⟩ := List.exists_cons_of_ne_nil (splitOn_ne_nil separator rest)
      rw [List.cons_append, splitOn_cons_of_ne hc, splitOn_cons_of_ne hc, ih, hrest]
      rfl

/-- There is one piece more than separators. -/
theorem length_splitOn (separator : UInt8) (b : Bytes) : (splitOn separator b).length = b.count separator + 1 := by
  induction b with
  | nil => rfl
  | cons c rest ih =>
    by_cases hc : c = separator
    · subst hc
      rw [splitOn_cons_self, List.length_cons, ih, List.count_cons_self]
    · rw [splitOn_cons_of_ne hc, List.length_modifyHead, ih, List.count_cons_of_ne hc]

/-- Cuts a text behind its last separator. -/
theorem exists_last (separator : UInt8) (b : Bytes) :
    ∃ front last, b = front ++ last ∧ separator ∉ last ∧ (front = [] ∨ front.getLast? = some separator) := by
  induction b with
  | nil => exact ⟨[], [], rfl, List.not_mem_nil, .inl rfl⟩
  | cons c rest ih =>
    obtain ⟨front, last, rfl, hlast, hfront⟩ := ih
    rcases hfront with rfl | hfront
    · by_cases hc : c = separator
      · exact ⟨[c], last, rfl, hlast, .inr (by rw [hc]; rfl)⟩
      · exact ⟨[], c :: last, rfl, by simp [hlast, Ne.symm hc], .inl rfl⟩
    · exact ⟨c :: front, last, rfl, hlast, .inr (by rw [List.getLast?_cons, hfront]; rfl)⟩

end Bytes

end OnePass

import OnePass.Proofs.LazyLexing
import OnePass.Proofs.Lexical.Characters
import OnePass.Proofs.Lexical.Spelling

/-!
# Tokens, printed and lexed

A keyword, a sign, a name, an integer, a string or a character has a spelling (`Printed.spelling`), which the scanners take back
whole wherever a blank or the end of the text follows (`Printed.readsAs`). So a row of such tokens, printed with a blank between
each two, is lexed as the same row, and nothing else (`lex_print`).
-/

namespace OnePass

open Number (isDigit)

/-- What a token says, wherever it stands. -/
def Token.content (t : Token) : TokenKind × Bytes × Int64 × UInt64 := (t.kind, t.lexeme, t.int, t.bits)

namespace Lexer

variable {c : Char} {cs gap mark rest span word : List Char} {n : Nat} {m : Match}

/-! ## Printing -/

/-- A character between quotes of this sort: the end of a line, a backslash and the quote itself are written as escapes. -/
def quoted (quote c : Char) : List Char :=
  if c = '\n' then ['\x5c', 'n'] else if c = '\x5c' ∨ c = quote then ['\x5c', c] else [c]

/-- A token that can be printed. -/
inductive Printed where
  | keyword (word : List Char) (kind : TokenKind) (h : (word, kind) ∈ keywords)
  | sign (mark : List Char) (kind : TokenKind) (h : (mark, kind) ∈ signs)
  | identifier (name : List Char) (hname : IsWord name) (hfree : ∀ kind, (name, kind) ∉ keywords)
  | integer (n : Nat) (h : n < 2 ^ 63)
  | string (text : List Char)
  | character (c : Char) (h : c ≠ '\x00')

namespace Printed

/-- The characters the token is printed as. -/
def spelling : Printed → List Char
  | keyword word _ _ => word
  | sign mark _ _ => mark
  | identifier name _ _ => name
  | integer n _ => Nat.toDigits 10 n
  | string text => '\x22' :: (text.flatMap (quoted '\x22') ++ ['\x22'])
  | character c _ => '\x27' :: (quoted '\x27' c ++ ['\x27'])

/-- The kind of the token. -/
def kind : Printed → TokenKind
  | keyword _ kind _ => kind
  | sign _ kind _ => kind
  | identifier .. => .identifier
  | integer .. => .uintLit
  | string _ => .stringLit
  | character .. => .charLit

/-- The text the token stands for: its spelling, or what stands between its quotes. -/
def text : Printed → List Char
  | keyword word _ _ => word
  | sign mark _ _ => mark
  | identifier name _ _ => name
  | integer n _ => Nat.toDigits 10 n
  | string text => text
  | character c _ => [c]

/-- The value of the token, if it is an integer. -/
def int : Printed → Int64
  | integer n _ => Int64.ofNat n
  | _ => 0

/-- What the token says. -/
def content (t : Printed) : TokenKind × Bytes × Int64 × UInt64 := (t.kind, Bytes.ofChars t.text, t.int, 0)

/-- The token as it is found where these characters follow it. -/
def found (t : Printed) (after : List Char) : Match :=
  { kind := t.kind, lexeme := t.text, span := t.spelling, rest := after, int := t.int }

end Printed

/-- A row of tokens, with a blank between each two. -/
def print (ts : List Printed) : Bytes := Bytes.ofChars ([' '].intercalate (ts.map Printed.spelling))

/-! ## Tokens before a blank -/

/-- A blank follows, or nothing. -/
def Apart (after : List Char) : Prop := ∀ c ∈ after.head?, c = ' '

/-- A token starts with the first of these characters, and is found. -/
def ReadsAs (cs : List Char) (m : Match) : Prop :=
  ∃ c rest, cs = c :: rest ∧ Text.isBlank c = false ∧ ¬ (c = '/' ∧ rest.head? = some '/') ∧ scan c rest = .ok m

variable {after : List Char}

/-- Characters of one sort end where a blank of another follows. -/
theorem span_of_apart {p : Char → Bool} {front : List Char} (hp : p ' ' = false) (hfront : ∀ c ∈ front, p c = true)
    (hafter : Apart after) : (front ++ after).takeWhile p = front ∧ (front ++ after).dropWhile p = after := by
  rw [List.takeWhile_append_of_pos hfront, List.dropWhile_append_of_pos hfront]
  cases after with
  | nil => simp
  | cons c after =>
    obtain rfl : c = ' ' := hafter c rfl
    simp [hp]

theorem not_isBlank_of_visible (h : 0x21 ≤ c.toNat ∧ c.toNat ≤ 0x7e) : Text.isBlank c = false := by
  simp only [Text.isBlank, Bool.or_eq_false_iff, Bool.and_eq_false_imp, decide_eq_true_eq, decide_eq_false_iff_not,
    beq_eq_false_iff_ne]
  omega

theorem isLetter_iff : isLetter c = true ↔ (c.toNat = 95 ∨ 97 ≤ c.toNat ∧ c.toNat ≤ 122) ∨ 65 ≤ c.toNat ∧ c.toNat ≤ 90 := by
  simp only [isLetter, Bool.or_eq_true, Bool.and_eq_true, decide_eq_true_eq, beq_iff_eq, Char.le_def,
    UInt32.le_iff_toNat_le, ← Char.toNat_inj]
  rfl

theorem readsAs_word (hword : IsWord word) (hafter : Apart after) :
    ReadsAs (word ++ after) { kind := wordKind word, lexeme := word, span := word, rest := after } := by
  obtain ⟨c, rest, rfl, hc, hrest⟩ := hword
  have hall : ∀ d ∈ c :: rest, isWordChar d = true := List.forall_mem_cons.2 ⟨by simp [isWordChar, hc], hrest⟩
  obtain ⟨htake, hdrop⟩ := span_of_apart (by decide) hall hafter
  have hrange := isLetter_iff.1 hc
  refine ⟨c, rest ++ after, rfl, not_isBlank_of_visible (by omega), ?_, ?_⟩
  · rintro ⟨rfl, -⟩
    exact absurd hc (by decide)
  · rw [scan, if_pos hc, scanWord, ← List.cons_append, htake, hdrop]

theorem wordKind_keyword {kind : TokenKind} (h : (word, kind) ∈ keywords) : wordKind word = kind := by
  have hkeywords : ∀ entry ∈ keywords, wordKind entry.1 = entry.2 := by simp [keywords, wordKind, List.lookup]
  exact hkeywords _ h

theorem isWord_keyword {kind : TokenKind} (h : (word, kind) ∈ keywords) : IsWord word := by
  have hkeywords : ∀ entry ∈ keywords, entry.1 ≠ [] ∧ ∀ c ∈ entry.1, isLetter c = true := by simp [keywords, isLetter]
  obtain ⟨hne, hletters⟩ := hkeywords _ h
  cases word with
  | nil => exact absurd rfl hne
  | cons c rest =>
    obtain ⟨hc, hrest⟩ := List.forall_mem_cons.1 hletters
    exact ⟨c, rest, rfl, hc, fun d hd => by simp [isWordChar, hrest d hd]⟩

theorem wordKind_identifier {name : List Char} (h : ∀ kind, (name, kind) ∉ keywords) : wordKind name = .identifier := by
  cases hlookup : keywords.lookup name with
  | none =>
    rw [wordKind, hlookup]
    rfl
  | some kind =>
    obtain ⟨before, behind, hentry, -⟩ := List.lookup_eq_some_iff.1 hlookup
    exact absurd (by rw [hentry]; simp) (h kind)

/-! ## Integers -/

theorem isDigit_iff : isDigit c = true ↔ 48 ≤ c.toNat ∧ c.toNat ≤ 57 := by
  simp only [isDigit, Bool.and_eq_true, decide_eq_true_eq, Char.le_def, UInt32.le_iff_toNat_le]
  rfl

theorem not_isLetter_of_isDigit (h : isDigit c = true) : isLetter c = false := by
  have hrange := isDigit_iff.1 h
  rw [Bool.eq_false_iff, ne_eq, isLetter_iff]
  omega

theorem isDigit_of_mem_toDigits {n : Nat} {c : Char} (h : c ∈ Nat.toDigits 10 n) : isDigit c = true := by
  have hdigit := Nat.isDigit_of_mem_toDigits (by decide) (by decide) h
  simpa [isDigit, Char.isDigit, Char.le_def] using hdigit

theorem le_ofDigitChars (cs : List Char) (n : Nat) : n ≤ Nat.ofDigitChars 10 cs n := by
  rw [Nat.ofDigitChars_eq_ofDigitChars_zero]
  exact Nat.le_trans (Nat.le_mul_of_pos_left n (Nat.pow_pos (by decide))) (Nat.le_add_right ..)

/-- Digits are read as the number they are the numeral of, if there is room for it. -/
theorem readDigits_eq (hcs : ∀ c ∈ cs, isDigit c = true) (h : Nat.ofDigitChars 10 cs n < 2 ^ 64) :
    Number.readDigits 10 false n cs = .ok (Nat.ofDigitChars 10 cs n) := by
  induction cs generalizing n with
  | nil => rw [Number.readDigits, Nat.ofDigitChars_nil]
  | cons c cs ih =>
    obtain ⟨hc, hcs⟩ := List.forall_mem_cons.1 hcs
    have hdigit : Number.digit? c = some (c.toNat - '0'.toNat) := by rw [Number.digit?, if_pos hc]
    have hten : c.toNat - '0'.toNat < 10 := by
      have hrange := isDigit_iff.1 hc
      have hzero : '0'.toNat = 48 := rfl
      omega
    rw [Nat.ofDigitChars_cons, Nat.mul_comm] at h ⊢
    have hroom := le_ofDigitChars cs (n * 10 + (c.toNat - '0'.toNat))
    simp only [Number.readDigits, Bool.false_and, Bool.false_eq_true, if_false, hdigit]
    rw [if_neg (by omega), if_neg (by omega), ih hcs h]

theorem readDecimal_toDigits (h : n < 2 ^ 63) : Number.readDecimal (Nat.toDigits 10 n) = .ok (Int64.ofNat n) := by
  have hdigits : ∀ c ∈ Nat.toDigits 10 n, isDigit c = true := fun _ => isDigit_of_mem_toDigits
  have hvalue : Nat.ofDigitChars 10 (Nat.toDigits 10 n) 0 = n := Nat.ofDigitChars_ten_toDigits
  have hread := readDigits_eq hdigits (n := 0) (by rw [hvalue]; omega)
  rw [hvalue] at hread
  cases hcs : Nat.toDigits 10 n with
  | nil => exact absurd hcs Nat.toDigits_ne_nil
  | cons c cs =>
    rw [hcs] at hdigits hread
    have hsign : Number.splitSign (c :: cs) = (false, c :: cs) := by
      have hc := hdigits c List.mem_cons_self
      unfold Number.splitSign
      split
      · rename_i heq
        cases heq
        exact absurd hc (by decide)
      · rename_i heq
        cases heq
        exact absurd hc (by decide)
      · rfl
    rw [Number.readDecimal, hsign]
    change (Number.readDigits 10 false 0 (c :: cs) >>= Number.signed false) = _
    rw [hread]
    exact if_pos h

theorem scanNumber_integer {digits : List Char} {int : Int64} (hdigits : ∀ c ∈ digits, isDigit c = true)
    (hint : Number.readDecimal digits = .ok int) (hafter : Apart after) :
    scanNumber (digits ++ after) = .ok { kind := .uintLit, lexeme := digits, span := digits, rest := after, int } := by
  obtain ⟨htake, hdrop⟩ := span_of_apart (by decide) hdigits hafter
  unfold scanNumber
  rw [htake, hdrop]
  split
  · -- a point would follow
    exact absurd (hafter '.' rfl) (by decide)
  · rw [scanInteger, hint]

theorem readsAs_integer (h : n < 2 ^ 63) (hafter : Apart after) :
    ReadsAs (Nat.toDigits 10 n ++ after)
      { kind := .uintLit, lexeme := Nat.toDigits 10 n, span := Nat.toDigits 10 n, rest := after, int := Int64.ofNat n } := by
  have hdigits : ∀ c ∈ Nat.toDigits 10 n, isDigit c = true := fun _ => isDigit_of_mem_toDigits
  have hnumber := scanNumber_integer hdigits (readDecimal_toDigits h) hafter
  cases hcs : Nat.toDigits 10 n with
  | nil => exact absurd hcs Nat.toDigits_ne_nil
  | cons c cs =>
    rw [hcs] at hdigits hnumber
    have hc := hdigits c List.mem_cons_self
    have hrange := isDigit_iff.1 hc
    refine ⟨c, cs ++ after, rfl, not_isBlank_of_visible (by omega), ?_, ?_⟩
    · rintro ⟨rfl, -⟩
      exact absurd hc (by decide)
    · rw [scan, if_neg (by simp [not_isLetter_of_isDigit hc]), if_pos hc]
      exact hnumber

/-! ## Signs -/

theorem pairKind?_blank (c : Char) : pairKind? c ' ' = none := by
  unfold pairKind?
  split <;> first | rfl | contradiction

theorem scanSign_single {kind : TokenKind} (h : signKind? c = some kind) (hafter : Apart after) :
    scanSign c after = .ok { kind, lexeme := [c], span := [c], rest := after } := by
  cases after with
  | nil => rw [scanSign, scanSingle, h]
  | cons d rest =>
    obtain rfl : d = ' ' := hafter d rfl
    rw [scanSign, pairKind?_blank, scanSingle, h]

theorem scanSign_pair {d : Char} {kind : TokenKind} (h : pairKind? c d = some kind) :
    scanSign c (d :: after) = .ok { kind, lexeme := [c, d], span := [c, d], rest := after } := by
  rw [scanSign, h]

/-- A character that no word, numeral or quoted text starts with. -/
def IsMark (c : Char) : Prop := Text.isBlank c = false ∧ isLetter c = false ∧ isDigit c = false ∧ c ≠ '\x22' ∧ c ≠ '\x27'

instance (c : Char) : Decidable (IsMark c) := inferInstanceAs (Decidable (_ ∧ _))

theorem readsAs_mark (hc : IsMark c) (hslash : ¬ (c = '/' ∧ rest.head? = some '/')) (h : scanSign c rest = .ok m) :
    ReadsAs (c :: rest) m := by
  obtain ⟨hblank, hletter, hdigit, hstring, hcharacter⟩ := hc
  refine ⟨c, rest, rfl, hblank, hslash, ?_⟩
  rw [scan, if_neg (by simp [hletter]), if_neg (by simp [hdigit]), if_neg hstring, if_neg hcharacter, h]

/-- A sign is one mark, or two of which the first is no slash. -/
theorem signs_cases {kind : TokenKind} (h : (mark, kind) ∈ signs) :
    (∃ c, mark = [c] ∧ IsMark c ∧ signKind? c = some kind) ∨
      ∃ c d, mark = [c, d] ∧ IsMark c ∧ c ≠ '/' ∧ pairKind? c d = some kind := by
  have hsigns : ∀ entry ∈ signs, IsMark (entry.1.getD 0 ' ') ∧
      (entry.1.length = 1 ∧ signKind? (entry.1.getD 0 ' ') = some entry.2 ∨
        entry.1.length = 2 ∧ entry.1.getD 0 ' ' ≠ '/' ∧
          pairKind? (entry.1.getD 0 ' ') (entry.1.getD 1 ' ') = some entry.2) := by decide
  obtain ⟨hmark, ⟨hlength, hkind⟩ | ⟨hlength, hslash, hkind⟩⟩ := hsigns _ h
  · obtain ⟨c, rfl⟩ := List.length_eq_one_iff.1 hlength
    exact .inl ⟨c, rfl, hmark, hkind⟩
  · obtain ⟨c, d, rfl⟩ := List.length_eq_two.1 hlength
    exact .inr ⟨c, d, rfl, hmark, hslash, hkind⟩

theorem readsAs_sign {kind : TokenKind} (h : (mark, kind) ∈ signs) (hafter : Apart after) :
    ReadsAs (mark ++ after) { kind, lexeme := mark, span := mark, rest := after } := by
  rcases signs_cases h with ⟨c, rfl, hc, hkind⟩ | ⟨c, d, rfl, hc, hslash, hkind⟩
  · refine readsAs_mark hc ?_ (scanSign_single hkind hafter)
    rintro ⟨-, hslash⟩
    exact absurd (hafter '/' hslash) (by decide)
  · exact readsAs_mark hc (fun hcomment => hslash hcomment.1) (scanSign_pair hkind)

/-! ## Quoted texts -/

/-- Between quotes a character is written as an escape that stands for it, or as itself where it has no other meaning. -/
theorem quoted_cases (quote : Char) (hquote : unescape? quote = some quote) (c : Char) :
    (∃ letter, quoted quote c = ['\x5c', letter] ∧ unescape? letter = some c) ∨
      quoted quote c = [c] ∧ c ≠ quote ∧ c ≠ '\x5c' ∧ c ≠ '\n' := by
  unfold quoted
  split
  · rename_i hc
    exact .inl ⟨'n', rfl, by rw [hc]; rfl⟩
  · rename_i hline
    split
    · rename_i hc
      refine .inl ⟨c, rfl, ?_⟩
      rcases hc with rfl | rfl
      · rfl
      · exact hquote
    · rename_i hc
      rw [not_or] at hc
      exact .inr ⟨rfl, hc.2, hc.1, hline⟩

theorem scanText_escape {letter : Char} {text : List Char} (hc : unescape? letter = some c)
    (h : scanText cs = .ok (text, span, rest)) :
    scanText ('\x5c' :: letter :: cs) = .ok (c :: text, '\x5c' :: letter :: span, rest) := by
  simp only [scanText, hc, h]
  rfl

theorem scanText_plain {text : List Char} (hc : c ≠ '\x22' ∧ c ≠ '\x5c' ∧ c ≠ '\n') (h : scanText cs = .ok (text, span, rest)) :
    scanText (c :: cs) = .ok (c :: text, c :: span, rest) := by
  rw [scanText, h]
  · rfl
  · exact hc.1
  · exact hc.2.2
  · exact fun hescape _ => hc.2.1 hescape
  · exact fun _ _ hescape _ => hc.2.1 hescape

theorem scanText_quoted (text after : List Char) :
    scanText (text.flatMap (quoted '\x22') ++ '\x22' :: after) = .ok (text, text.flatMap (quoted '\x22') ++ ['\x22'], after) := by
  induction text with
  | nil => rfl
  | cons c text ih =>
    rcases quoted_cases '\x22' rfl c with ⟨letter, hquoted, hc⟩ | ⟨hquoted, hc⟩
    · rw [List.flatMap_cons, hquoted]
      exact scanText_escape hc ih
    · rw [List.flatMap_cons, hquoted]
      exact scanText_plain hc ih

theorem readsAs_string (text after : List Char) :
    ReadsAs ('\x22' :: (text.flatMap (quoted '\x22') ++ ['\x22']) ++ after)
      { kind := .stringLit, lexeme := text, span := '\x22' :: (text.flatMap (quoted '\x22') ++ ['\x22']), rest := after } := by
  refine ⟨'\x22', text.flatMap (quoted '\x22') ++ '\x22' :: after, by simp, by decide, by simp, ?_⟩
  change scanString _ = _
  rw [scanString, scanText_quoted]
  rfl

theorem scanCharacter_quoted (h : c ≠ '\x00') (after : List Char) :
    scanCharacter (quoted '\x27' c ++ '\x27' :: after) =
      .ok { kind := .charLit, lexeme := [c], span := '\x27' :: (quoted '\x27' c ++ ['\x27']), rest := after } := by
  rcases quoted_cases '\x27' rfl c with ⟨letter, hquoted, hc⟩ | ⟨hquoted, hquote, hslash, hline⟩
  · rw [hquoted]
    simp only [List.cons_append, List.nil_append, scanCharacter, hc]
    rfl
  · rw [hquoted]
    change scanCharacter (c :: '\x27' :: after) = _
    rw [scanCharacter]
    · rfl
    · exact hquote
    · exact h
    · exact hline
    · exact fun hescape _ => hslash hescape
    · exact fun _ _ hescape _ => hslash hescape

theorem readsAs_character (h : c ≠ '\x00') (after : List Char) :
    ReadsAs ('\x27' :: (quoted '\x27' c ++ ['\x27']) ++ after)
      { kind := .charLit, lexeme := [c], span := '\x27' :: (quoted '\x27' c ++ ['\x27']), rest := after } := by
  exact ⟨'\x27', quoted '\x27' c ++ '\x27' :: after, by simp, by decide, by simp, scanCharacter_quoted h after⟩

/-- The spelling of a token is read as this token, where a blank or nothing follows. -/
theorem Printed.readsAs (t : Printed) (hafter : Apart after) : ReadsAs (t.spelling ++ after) (t.found after) := by
  cases t with
  | keyword word kind h =>
    have hread := readsAs_word (isWord_keyword h) hafter
    rwa [wordKind_keyword h] at hread
  | sign mark kind h => exact readsAs_sign h hafter
  | identifier name hname hfree =>
    have hread := readsAs_word hname hafter
    rwa [wordKind_identifier hfree] at hread
  | integer n h => exact readsAs_integer h hafter
  | string text => exact readsAs_string text after
  | character c h => exact readsAs_character h after

/-! ## Rows of tokens -/

/-- A row of tokens goes on, after its first, with a blank and the rest of the row, or ends. -/
theorem intercalate_cons (word : List Char) (words : List (List Char)) :
    ∃ gap, (gap = [] ∨ gap = [' ']) ∧ [' '].intercalate (word :: words) = word ++ (gap ++ [' '].intercalate words) ∧
      Apart (gap ++ [' '].intercalate words) := by
  cases words with
  | nil => exact ⟨[], .inl rfl, by simp, fun c hc => by cases hc⟩
  | cons next words =>
    refine ⟨[' '], .inr rfl, by rw [List.intercalate_cons_cons, List.append_assoc], fun c hc => ?_⟩
    cases hc
    rfl

theorem scanToken_readsAs (hgap : gap = [] ∨ gap = [' ']) (h : ReadsAs cs m) (pos : Pos) :
    scanToken ⟨pos, gap ++ cs⟩ = .ok (m.token (pos.after gap), ⟨(pos.after gap).after m.span, m.rest⟩) := by
  obtain ⟨c, rest, rfl, hblank, hslash, hscan⟩ := h
  have hskip (pos : Pos) : skipGap false pos (c :: rest) = (pos, c :: rest) := by
    rw [skipGap, if_neg (by simp [hblank]), if_neg hslash]
  have hgap : skipGap false pos (gap ++ c :: rest) = (pos.after gap, c :: rest) := by
    rcases hgap with rfl | rfl
    · exact hskip pos
    · rw [List.singleton_append, skipGap, if_pos (by decide), hskip]
      rfl
  rw [scanToken, hgap]
  dsimp only
  rw [hscan]

/-- From any place on, a row of tokens is lexed as this row. -/
theorem lexFrom_print (hgap : gap = [] ∨ gap = [' ']) (ts : List Printed) (pos : Pos) :
    (lexFrom ⟨pos, gap ++ [' '].intercalate (ts.map Printed.spelling)⟩).1.map Token.content =
      ts.map Printed.content ++ [(.eof, [], 0, 0)] ∧
    (lexFrom ⟨pos, gap ++ [' '].intercalate (ts.map Printed.spelling)⟩).2 = none := by
  induction ts generalizing gap pos with
  | nil =>
    have hend : ∃ after last, scanToken ⟨pos, gap ++ [' '].intercalate []⟩ = .ok (endToken last, after) := by
      rcases hgap with rfl | rfl
      · exact ⟨_, _, rfl⟩
      · exact ⟨_, _, rfl⟩
    obtain ⟨after, last, hscan⟩ := hend
    rw [List.map_nil, lexFrom_eof hscan rfl]
    exact ⟨rfl, rfl⟩
  | cons t ts ih =>
    obtain ⟨gap', hgap', hrow, hafter⟩ := intercalate_cons t.spelling (ts.map Printed.spelling)
    have hread := t.readsAs hafter
    have hscan := scanToken_readsAs hgap hread pos
    obtain ⟨hmore, hnone⟩ := ih hgap' ((pos.after gap).after t.spelling)
    obtain ⟨c, rest, -, -, -, hfound⟩ := hread
    rw [List.map_cons, hrow, lexFrom_token hscan (kind_scan hfound)]
    refine ⟨?_, hnone⟩
    rw [List.map_cons, List.map_cons, List.cons_append]
    exact congrArg (t.content :: ·) hmore

end Lexer

open Lexer in
/-- A row of tokens that is printed with a blank between each two is lexed, without a fault, as the same row and the end token. -/
theorem lex_print (ts : List Printed) :
    (lex (print ts)).1.map Token.content = ts.map Printed.content ++ [(.eof, [], 0, 0)] ∧ (lex (print ts)).2 = none := by
  have hchars : Utf8.chars (print ts) = [' '].intercalate (ts.map Printed.spelling) := Utf8.chars_ofChars _
  have hrow := lexFrom_print (.inl rfl) ts .start
  rw [List.nil_append, ← hchars] at hrow
  exact hrow

/-- Two marks that would be one sign without the blank, and a quote between quotes. -/
example : Lexer.print [.sign ['-'] .minus (by decide), .sign ['>'] .greater (by decide), .character '\x27' (by decide)] =
    [0x2d, 0x20, 0x3e, 0x20, 0x27, 0x5c, 0x27, 0x27] := by decide

end OnePass

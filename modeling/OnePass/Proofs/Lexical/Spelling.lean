import Mathlib.Data.List.Basic
import Mathlib.Data.List.TakeWhile
import OnePass.Token.Lexer

/-!
# How tokens are spelled

The lexical grammar, apart from the scanners: words, numerals, the table of signs, and quoted texts with their escapes. A token is
spelled by a span of characters (`Token.Spells`), and a word, a numeral or a sign has to be the longest that stands in its place
(`Longest`). Every scanner splits its characters into such a span and what follows it (`scan_spells`).
-/

namespace OnePass

open Number (isDigit)

namespace Lexer

/-! ## The grammar -/

/-- A letter or underscore, and then letters, digits and underscores. -/
def IsWord (cs : List Char) : Prop := ∃ c rest, cs = c :: rest ∧ isLetter c = true ∧ ∀ d ∈ rest, isWordChar d = true

/-- One digit or more. -/
def IsDigits (cs : List Char) : Prop := cs ≠ [] ∧ ∀ c ∈ cs, isDigit c = true

/-- A mark, maybe a sign, and digits. -/
def IsExponent (cs : List Char) : Prop :=
  ∃ mark sign digits, cs = mark :: (sign ++ digits) ∧ mark ∈ ['e', 'E'] ∧ sign ∈ [[], ['+'], ['-']] ∧ IsDigits digits

/-- Digits on both sides of a point, and maybe an exponent. -/
def IsFraction (cs : List Char) : Prop :=
  ∃ whole part power, cs = whole ++ '.' :: (part ++ power) ∧ IsDigits whole ∧ IsDigits part ∧ (power = [] ∨ IsExponent power)

/-- The spelling of an integer or of a double. -/
def IsNumeral (cs : List Char) : Prop := IsDigits cs ∨ IsFraction cs

/-- The operators and punctuation marks. -/
def signs : List (List Char × TokenKind) :=
  [(['\x7b'], .lbrace), (['\x7d'], .rbrace), (['('], .lparen), ([')'], .rparen), ([';'], .semicolon),
    ([','], .comma), ([':'], .colon),
    (['+'], .plus), (['-'], .minus), (['-', '>'], .arrow), (['*'], .star), (['/'], .slash), (['!', '='], .notEq), (['<'], .less),
    (['<', '='], .lessEq), (['>'], .greater), (['>', '='], .greaterEq), (['='], .assign), (['=', '='], .equals)]

/-- The spelling of an operator or a punctuation mark. -/
def IsSign (cs : List Char) : Prop := ∃ kind, (cs, kind) ∈ signs

/-- The letters after a backslash, each with the character that the two stand for. -/
def escapes : List (Char × Char) :=
  [('n', '\n'), ('r', '\r'), ('t', '\t'), ('\x5c', '\x5c'), ('\x27', '\x27'), ('\x22', '\x22')]

/-- Between quotes of this sort these characters stand for that text. -/
inductive Decodes (quote : Char) : List Char → List Char → Prop where
  | nil : Decodes quote [] []
  | plain {c : Char} {body text : List Char} (hc : c ≠ quote ∧ c ≠ '\x5c' ∧ c ≠ '\n') (h : Decodes quote body text) :
    Decodes quote (c :: body) (c :: text)
  | escape {letter c : Char} {body text : List Char} (hc : (letter, c) ∈ escapes) (h : Decodes quote body text) :
    Decodes quote ('\x5c' :: letter :: body) (c :: text)

/-- Nothing of this class that starts where the span does goes beyond it. -/
def Longest (Class : List Char → Prop) (span after : List Char) : Prop :=
  ∀ longer, longer <+: span ++ after → Class longer → longer.length ≤ span.length

end Lexer

open Lexer in
/-- The token is spelled by the span, where these characters follow. -/
inductive Token.Spells (t : Token) (span after : List Char) : Prop where
  | word (hspan : IsWord span) (hlongest : Longest IsWord span after) (hkind : t.kind = wordKind span)
    (hlexeme : t.lexeme = Bytes.ofChars span)
  | integer (hspan : IsDigits span) (hlongest : Longest IsNumeral span after) (hkind : t.kind = .uintLit)
    (hlexeme : t.lexeme = Bytes.ofChars span)
  | double (hspan : IsFraction span) (hlongest : Longest IsNumeral span after) (hkind : t.kind = .doubleLit)
    (hlexeme : t.lexeme = Bytes.ofChars span)
  | sign (hspan : (span, t.kind) ∈ signs) (hlongest : Longest IsSign span after) (hlexeme : t.lexeme = Bytes.ofChars span)
  | string {body text : List Char} (hspan : span = '\x22' :: (body ++ ['\x22'])) (hbody : Decodes '\x22' body text)
    (hkind : t.kind = .stringLit) (hlexeme : t.lexeme = Bytes.ofChars text)
  | character {body : List Char} {c : Char} (hspan : span = '\x27' :: (body ++ ['\x27'])) (hbody : Decodes '\x27' body [c])
    (hkind : t.kind = .charLit) (hlexeme : t.lexeme = Bytes.ofChars [c])

namespace Lexer

variable {c d : Char} {cs rest : List Char} {m : Match} {kind : TokenKind}

/-- The match is at the front of these characters, and its span spells its token. -/
def Match.Spelled (m : Match) (cs : List Char) : Prop := ∀ pos, (m.token pos).Spells m.span m.rest ∧ cs = m.span ++ m.rest

/-! ## Prefixes -/

section

variable {p : Char → Bool} {front cs : List Char}

/-- A prefix of such characters is no longer than the longest one. -/
theorem length_le_takeWhile (hfront : ∀ c ∈ front, p c = true) (h : front <+: cs) : front.length ≤ (cs.takeWhile p).length := by
  obtain ⟨more, rfl⟩ := h
  rw [List.takeWhile_append_of_pos hfront, List.length_append]
  exact Nat.le_add_right ..

/-- A prefix that goes on behind its first such characters has all of them. -/
theorem takeWhile_of_prefix (hfront : ∀ d ∈ front, p d = true) (hc : p c = false) (h : front ++ c :: rest <+: cs) :
    cs.takeWhile p = front ∧ c :: rest <+: cs.dropWhile p := by
  obtain ⟨more, rfl⟩ := h
  rw [List.append_assoc, List.takeWhile_append_of_pos hfront, List.dropWhile_append_of_pos hfront, List.cons_append,
    List.takeWhile_cons_of_neg (by simp [hc]), List.dropWhile_cons_of_neg (by simp [hc]), List.append_nil]
  exact ⟨rfl, List.prefix_append (c :: rest) more⟩

end

/-! ## Words -/

theorem scanWord_spells (hc : isLetter c = true) : (scanWord (c :: rest)).Spelled (c :: rest) := by
  have hword : isWordChar c = true := by simp [isWordChar, hc]
  have hspan : (c :: rest).takeWhile isWordChar = c :: rest.takeWhile isWordChar := List.takeWhile_cons_of_pos hword
  refine fun _ => ⟨.word ⟨c, rest.takeWhile isWordChar, hspan, hc, fun d hd => List.mem_takeWhile_imp hd⟩ ?_ rfl rfl,
    List.takeWhile_append_dropWhile.symm⟩
  intro longer hbegins hlonger
  obtain ⟨d, more, rfl, hd, hmore⟩ := hlonger
  have hall : ∀ x ∈ d :: more, isWordChar x = true := List.forall_mem_cons.2 ⟨by simp [isWordChar, hd], hmore⟩
  change d :: more <+: (c :: rest).takeWhile isWordChar ++ (c :: rest).dropWhile isWordChar at hbegins
  rw [List.takeWhile_append_dropWhile] at hbegins
  exact length_le_takeWhile hall hbegins

/-! ## Numerals -/

/-- A fraction at the front of a text takes all the digits there, and the point behind them. -/
theorem IsFraction.of_prefix {longer : List Char} (h : IsFraction longer) (hbegins : longer <+: cs) :
    ∃ part power, longer = cs.takeWhile isDigit ++ '.' :: (part ++ power) ∧ IsDigits part ∧ (power = [] ∨ IsExponent power) ∧
      '.' :: (part ++ power) <+: cs.dropWhile isDigit := by
  obtain ⟨whole, part, power, rfl, hwhole, hpart, hpower⟩ := h
  obtain ⟨hfront, hrest⟩ := takeWhile_of_prefix hwhole.2 (by decide) hbegins
  exact ⟨part, power, by rw [hfront], hpart, hpower, hrest⟩

theorem isDigits_takeWhile (hd : isDigit d = true) : IsDigits ((d :: cs).takeWhile isDigit) := by
  refine ⟨?_, fun c hc => List.mem_takeWhile_imp hc⟩
  rw [List.takeWhile_cons_of_pos hd]
  exact List.cons_ne_nil _ _

theorem scanInteger_spells (hdigits : IsDigits (cs.takeWhile isDigit))
    (hrest : ∀ d tail, cs.dropWhile isDigit = '.' :: d :: tail → isDigit d = false)
    (h : scanInteger (cs.takeWhile isDigit) (cs.dropWhile isDigit) = .ok m) : m.Spelled cs := by
  unfold scanInteger at h
  split at h <;> cases h
  refine fun _ => ⟨.integer hdigits ?_ rfl rfl, List.takeWhile_append_dropWhile.symm⟩
  intro longer hbegins hlonger
  simp only [List.takeWhile_append_dropWhile] at hbegins
  rcases hlonger with hlonger | hlonger
  · exact length_le_takeWhile hlonger.2 hbegins
  · -- a fraction would need a digit behind the point
    obtain ⟨part, power, -, hpart, -, hbehind⟩ := hlonger.of_prefix hbegins
    obtain ⟨d, part, rfl⟩ := List.exists_cons_of_ne_nil hpart.1
    obtain ⟨more, hmore⟩ := hbehind
    have hd := hrest d (part ++ power ++ more) (by rw [← hmore]; simp)
    rw [hpart.2 d List.mem_cons_self] at hd
    cases hd

theorem splitSign_spells (cs : List Char) :
    cs = (splitSign cs).1 ++ (splitSign cs).2 ∧ (splitSign cs).1 ∈ [[], ['+'], ['-']] := by
  unfold splitSign
  split <;> simp

/-- A sign and digits at the front of a text are what is split off there, or less. -/
theorem length_le_splitSign {sign digits : List Char} (hsign : sign ∈ [[], ['+'], ['-']]) (hdigits : IsDigits digits)
    (h : sign ++ digits <+: cs) : sign.length + digits.length ≤ (splitSign cs).1.length +
      ((splitSign cs).2.takeWhile isDigit).length := by
  obtain ⟨more, rfl⟩ := h
  have hlength (rest : List Char) : digits.length ≤ ((digits ++ rest).takeWhile isDigit).length :=
    length_le_takeWhile hdigits.2 (List.prefix_append digits rest)
  simp only [List.mem_cons, List.not_mem_nil, or_false] at hsign
  rcases hsign with rfl | rfl | rfl
  · -- the text starts with a digit, which is no sign
    obtain ⟨d, digits, rfl⟩ := List.exists_cons_of_ne_nil hdigits.1
    have hd : isDigit d = true := hdigits.2 d List.mem_cons_self
    have hsplit : splitSign (d :: (digits ++ more)) = ([], d :: (digits ++ more)) := by
      unfold splitSign
      split
      · rename_i heq
        cases heq
        cases hd
      · rename_i heq
        cases heq
        cases hd
      · rfl
    simpa [hsplit] using hlength more
  · simpa [splitSign] using hlength more
  · simpa [splitSign] using hlength more

/-- An exponent is split off whole. -/
theorem splitExponent_spells {power : List Char} (h : splitExponent cs = .ok (power, rest)) :
    cs = power ++ rest ∧ (power = [] ∨ IsExponent power) ∧ ∀ longer, longer <+: cs → IsExponent longer →
      longer.length ≤ power.length := by
  unfold splitExponent at h
  split at h
  · cases h
    refine ⟨rfl, .inl rfl, fun longer hbegins _ => ?_⟩
    exact hbegins.length_le
  · rename_i mark tail
    obtain ⟨htail, hsign⟩ := splitSign_spells tail
    split at h
    · rename_i hmark
      split at h
      · cases h
      · rename_i hdigits
        cases h
        have hne : (splitSign tail).2.takeWhile isDigit ≠ [] := by simpa using hdigits
        refine ⟨?_, .inr ⟨mark, _, _, rfl, by simpa using hmark, hsign, hne, fun c hc => List.mem_takeWhile_imp hc⟩, ?_⟩
        · change mark :: tail = mark :: ((splitSign tail).1 ++ (splitSign tail).2.takeWhile isDigit ++
            (splitSign tail).2.dropWhile isDigit)
          rw [List.append_assoc, List.takeWhile_append_dropWhile, ← htail]
        · rintro longer hbegins ⟨mark', sign, digits, rfl, -, hsign', hdigits'⟩
          have hlonger := length_le_splitSign hsign' hdigits' (List.cons_prefix_cons.1 hbegins).2
          simp only [List.length_cons, List.length_append]
          omega
    · rename_i hmark
      cases h
      refine ⟨rfl, .inl rfl, ?_⟩
      rintro longer hbegins ⟨mark', sign, digits, rfl, hmark', -, -⟩
      rw [(List.cons_prefix_cons.1 hbegins).1] at hmark'
      exact absurd (by simpa using hmark') hmark

theorem scanFraction_spells {tail : List Char} (hdigits : IsDigits (cs.takeWhile isDigit)) (hd : isDigit d = true)
    (hcs : cs.dropWhile isDigit = '.' :: d :: tail) (h : scanFraction (cs.takeWhile isDigit) (d :: tail) = .ok m) :
      m.Spelled cs := by
  unfold scanFraction at h
  dsimp only at h
  split at h
  · cases h
  rename_i power rest hpower
  obtain ⟨hrest, hexponent, hlongest⟩ := splitExponent_spells hpower
  split at h <;> cases h
  have hspan : cs = cs.takeWhile isDigit ++ '.' :: (d :: tail).takeWhile isDigit ++ power ++ rest := by
    have hall : cs = cs.takeWhile isDigit ++ '.' :: ((d :: tail).takeWhile isDigit ++ (d :: tail).dropWhile isDigit) := by
      rw [List.takeWhile_append_dropWhile, ← hcs, List.takeWhile_append_dropWhile]
    rw [hrest] at hall
    simpa using hall
  refine fun _ => ⟨.double ⟨_, (d :: tail).takeWhile isDigit,
    power, by simp, hdigits, isDigits_takeWhile hd, hexponent⟩ ?_ rfl rfl, hspan⟩
  intro longer hbegins hlonger
  rw [← hspan] at hbegins
  simp only [List.length_append, List.length_cons]
  rcases hlonger with hlonger | hlonger
  · have := length_le_takeWhile hlonger.2 hbegins
    omega
  · obtain ⟨part, power', rfl, hpart, hpower', hbehind⟩ := hlonger.of_prefix hbegins
    rw [hcs] at hbehind
    have hbehind := (List.cons_prefix_cons.1 hbehind).2
    simp only [List.length_append, List.length_cons]
    rcases hpower' with rfl | hpower'
    · rw [List.append_nil] at hbehind
      have := length_le_takeWhile hpart.2 hbehind
      rw [List.length_nil]
      omega
    · have hexponent' := hpower'
      obtain ⟨mark, sign, digits, rfl, hmark, -, -⟩ := hexponent'
      have hmark : isDigit mark = false := by
        simp only [List.mem_cons, List.not_mem_nil, or_false] at hmark
        rcases hmark with rfl | rfl <;> decide
      obtain ⟨hfront, hpowers⟩ := takeWhile_of_prefix hpart.2 hmark hbehind
      have := hlongest _ hpowers hpower'
      rw [hfront]
      omega

theorem scanNumber_spells (hc : isDigit c = true) (h : scanNumber (c :: rest) = .ok m) : m.Spelled (c :: rest) := by
  have hdigits : IsDigits ((c :: rest).takeWhile isDigit) := isDigits_takeWhile hc
  unfold scanNumber at h
  split at h
  · rename_i d tail hcs
    split at h
    · rename_i hd
      exact scanFraction_spells hdigits hd hcs h
    · rename_i hd
      rw [← hcs] at h
      refine scanInteger_spells hdigits (fun d' tail' hcs' => ?_) h
      rw [hcs] at hcs'
      cases hcs'
      simpa using hd
  · rename_i hcs
    refine scanInteger_spells hdigits (fun d tail hpoint => ?_) h
    exact absurd hpoint (hcs d tail)

/-! ## Signs -/

theorem mem_signs_of_signKind? (h : signKind? c = some kind) : ([c], kind) ∈ signs := by
  unfold signKind? at h
  split at h
  case h_15 => cases h
  all_goals
    rename_i hc
    cases h
    rw [← Char.ofNat_toNat c, hc]
    decide

theorem mem_signs_of_pairKind? (h : pairKind? c d = some kind) : ([c, d], kind) ∈ signs := by
  unfold pairKind? at h
  split at h <;> cases h <;> decide

theorem length_le_of_isSign (h : IsSign cs) : cs.length ≤ 2 := by
  have hsigns : ∀ entry ∈ signs, entry.1.length ≤ 2 := by decide
  obtain ⟨kind, hkind⟩ := h
  exact hsigns (cs, kind) hkind

theorem isSome_pairKind?_of_isSign (h : IsSign [c, d]) : (pairKind? c d).isSome = true := by
  have hsigns : ∀ entry ∈ signs, entry.1.length = 2 → (pairKind? (entry.1.getD 0 ' ') (entry.1.getD 1 ' ')).isSome =
    true := by decide
  obtain ⟨kind, hkind⟩ := h
  exact hsigns _ hkind rfl

theorem scanSingle_spells (hpair : ∀ d ∈ rest.head?, pairKind? c d = none) (h : scanSingle c rest = .ok m) :
    m.Spelled (c :: rest) := by
  unfold scanSingle at h
  split at h
  · rename_i kind hkind
    cases h
    refine fun _ => ⟨.sign (mem_signs_of_signKind? hkind) ?_ rfl, rfl⟩
    intro longer hbegins hlonger
    have hlength := length_le_of_isSign hlonger
    by_contra hlt
    -- a longer sign has two characters, the first two of the text
    obtain ⟨a, b, rfl⟩ : ∃ a b, longer = [a, b] := List.length_eq_two.1 (by simp only [List.length_singleton] at hlt; omega)
    obtain ⟨more, hmore⟩ := hbegins
    cases hmore
    have hnone := hpair b rfl
    have hsome := isSome_pairKind?_of_isSign hlonger
    rw [hnone] at hsome
    cases hsome
  · cases h

theorem scanSign_spells (h : scanSign c rest = .ok m) : m.Spelled (c :: rest) := by
  unfold scanSign at h
  split at h
  · exact scanSingle_spells (by simp) h
  · rename_i d rest
    split at h
    · rename_i kind hkind
      cases h
      refine fun _ => ⟨.sign (mem_signs_of_pairKind? hkind) ?_ rfl, rfl⟩
      exact fun longer _ hlonger => length_le_of_isSign hlonger
    · rename_i hnone
      refine scanSingle_spells ?_ h
      rintro d' hd'
      cases hd'
      exact hnone

/-! ## Quoted texts -/

theorem mem_escapes_of_unescape? {v : Char} (h : unescape? c = some v) : (c, v) ∈ escapes := by
  unfold unescape? at h
  split at h
  case h_7 => cases h
  all_goals
    rename_i hc
    cases h
    rw [← Char.ofNat_toNat c, hc]
    decide

theorem scanText_spells {text span : List Char} (h : scanText cs = .ok (text, span, rest)) :
    ∃ body, span = body ++ ['\x22'] ∧ cs = span ++ rest ∧ Decodes '\x22' body text := by
  induction cs using scanText.induct generalizing text span rest with
  | case1 => cases h
  | case2 tail =>
    cases h
    exact ⟨[], rfl, rfl, .nil⟩
  | case3 => cases h
  | case4 => cases h
  | case5 c tail hu =>
    rw [scanText, hu] at h
    cases h
  | case6 c tail v hu ih =>
    rw [scanText, hu] at h
    cases ht : scanText tail with
    | error e =>
      rw [ht] at h
      cases h
    | ok r =>
      obtain ⟨text', span', rest'⟩ := r
      rw [ht] at h
      cases h
      obtain ⟨body, rfl, rfl, hbody⟩ := ih ht
      exact ⟨'\x5c' :: c :: body, rfl, rfl, .escape (mem_escapes_of_unescape? hu) hbody⟩
  | case7 c tail h1 h2 h3 h4 ih =>
    rw [scanText] at h
    · cases ht : scanText tail with
      | error e =>
        rw [ht] at h
        cases h
      | ok r =>
        obtain ⟨text', span', rest'⟩ := r
        rw [ht] at h
        cases h
        obtain ⟨body, rfl, rfl, hbody⟩ := ih ht
        refine ⟨c :: body, rfl, rfl, .plain ⟨h1, ?_, h2⟩ hbody⟩
        -- a backslash with something behind it starts an escape
        rintro rfl
        obtain ⟨d, more, hd⟩ := List.exists_cons_of_ne_nil (show body ++ ['\x22'] ++ rest ≠ [] by simp)
        exact h4 d more rfl hd
    all_goals assumption

theorem scanString_spells (h : scanString cs = .ok m) : m.Spelled ('\x22' :: cs) := by
  unfold scanString at h
  cases ht : scanText cs with
  | error e =>
    rw [ht] at h
    cases h
  | ok r =>
    obtain ⟨text, span, rest⟩ := r
    rw [ht] at h
    cases h
    obtain ⟨body, rfl, rfl, hbody⟩ := scanText_spells ht
    exact fun _ => ⟨.string rfl hbody rfl rfl, rfl⟩

theorem scanClosing_spells {body : List Char} (hbody : Decodes '\x27' body [c]) (h : scanClosing c ('\x27' :: body) cs = .ok m) :
    m.Spelled ('\x27' :: (body ++ cs)) := by
  unfold scanClosing at h
  split at h
  · cases h
    exact fun _ => ⟨.character rfl hbody rfl rfl, by simp⟩
  · cases h

theorem scanCharacter_spells (h : scanCharacter cs = .ok m) : m.Spelled ('\x27' :: cs) := by
  unfold scanCharacter at h
  split at h
  case h_6 c rest =>
    split at h
    · cases h
    · rename_i v hv
      exact scanClosing_spells (.escape (mem_escapes_of_unescape? hv) .nil) h
  case h_7 c rest hquote _ hline halone hescape =>
    refine scanClosing_spells (.plain ⟨hquote, ?_, hline⟩ .nil) h
    rintro rfl
    cases rest with
    | nil => exact halone rfl rfl
    | cons d rest => exact hescape d rest rfl rfl
  all_goals cases h

/-! ## Tokens -/

/-- A scanned token is spelled by the characters that are taken for it. -/
theorem scan_spells (h : scan c rest = .ok m) : m.Spelled (c :: rest) := by
  unfold scan at h
  split at h
  · rename_i hc
    cases h
    exact scanWord_spells hc
  split at h
  · rename_i hc
    exact scanNumber_spells hc h
  split at h
  · rename_i hc
    subst hc
    exact scanString_spells h
  split at h
  · rename_i hc
    subst hc
    exact scanCharacter_spells h
  · exact scanSign_spells h

end Lexer

end OnePass

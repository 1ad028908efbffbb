import OnePass.Token.Scan

/-!
# Every token takes characters off the text

Each scanner leaves a rest no longer than what follows the first character it was given, so reading token after token ends
(`scanToken_shorter`).
-/

namespace OnePass.Lexer

open Number (isDigit)

theorem length_dropWhile_le (p : Char → Bool) (cs : List Char) : (cs.dropWhile p).length ≤ cs.length :=
  (List.dropWhile_sublist p).length_le

theorem skipGap_length_le (comment : Bool) (pos : Pos) (cs : List Char) :
    (skipGap comment pos cs).2.length ≤ cs.length := by
  fun_induction skipGap comment pos cs <;> simp_all <;> omega

theorem scanWord_shorter {c : Char} {rest : List Char} (h : isLetter c = true) :
    (scanWord (c :: rest)).rest.length ≤ rest.length := by
  have hw : isWordChar c = true := by simp [isWordChar, h]
  simpa [scanWord, hw] using length_dropWhile_le isWordChar rest

theorem splitSign_shorter (cs : List Char) : (splitSign cs).2.length ≤ cs.length := by
  unfold splitSign
  split <;> simp

theorem splitExponent_shorter {cs power rest : List Char} (h : splitExponent cs = .ok (power, rest)) :
    rest.length ≤ cs.length := by
  unfold splitExponent at h
  split at h
  · cases h
    simp
  · rename_i mark tail
    have hs := splitSign_shorter tail
    have hd := length_dropWhile_le isDigit (splitSign tail).2
    split at h
    · split at h
      · cases h
      · cases h
        simp only [List.length_cons]
        omega
    · cases h
      simp

theorem scanInteger_rest {digits rest : List Char} {m : Match} (h : scanInteger digits rest = .ok m) :
    m.rest = rest := by
  unfold scanInteger at h
  split at h <;> cases h
  rfl

theorem scanFraction_shorter {whole cs : List Char} {m : Match} (h : scanFraction whole cs = .ok m) :
    m.rest.length ≤ cs.length := by
  have hd := length_dropWhile_le isDigit cs
  simp only [scanFraction] at h
  split at h
  · cases h
  · rename_i power rest hp
    have hx := splitExponent_shorter hp
    split at h <;> cases h
    simp only
    omega

theorem scanNumber_shorter {c : Char} {rest : List Char} {m : Match} (hc : isDigit c = true)
    (h : scanNumber (c :: rest) = .ok m) : m.rest.length ≤ rest.length := by
  have hw := length_dropWhile_le isDigit rest
  have hd : (c :: rest).dropWhile isDigit = rest.dropWhile isDigit := by simp [hc]
  unfold scanNumber at h
  rw [hd] at h
  split at h
  · rename_i d tail heq
    rw [heq] at hw
    split at h
    · have := scanFraction_shorter h
      simp only [List.length_cons] at *
      omega
    · rw [scanInteger_rest h]
      exact hw
  · rw [scanInteger_rest h]
    exact hw

theorem scanText_shorter {cs text span rest : List Char} (h : scanText cs = .ok (text, span, rest)) :
    rest.length ≤ cs.length := by
  induction cs using scanText.induct generalizing text span rest with
  | case1 => cases h
  | case2 tail => simp [scanText] at h; simp [← h.2.2]
  | case3 => cases h
  | case4 => cases h
  | case5 c tail hu => simp [scanText, hu] at h
  | case6 c tail v hu ih =>
    simp only [scanText, hu] at h
    cases ht : scanText tail with
    | error e => simp [ht, bind, Except.bind] at h
    | ok t =>
      simp [ht, bind, Except.bind, pure, Except.pure] at h
      have := ih ht
      simp only [List.length_cons]
      rw [← h.2.2]
      omega
  | case7 c tail h1 h2 h3 h4 ih =>
    rw [scanText] at h
    · cases ht : scanText tail with
      | error e => simp [ht, bind, Except.bind] at h
      | ok t =>
        simp [ht, bind, Except.bind, pure, Except.pure] at h
        have := ih ht
        simp only [List.length_cons]
        rw [← h.2.2]
        omega
    all_goals assumption

theorem scanClosing_shorter {c : Char} {span cs : List Char} {m : Match} (h : scanClosing c span cs = .ok m) :
    m.rest.length ≤ cs.length := by
  unfold scanClosing at h
  split at h
  · cases h
    simp
  · cases h

theorem scanCharacter_shorter {cs : List Char} {m : Match} (h : scanCharacter cs = .ok m) :
    m.rest.length ≤ cs.length := by
  unfold scanCharacter at h
  split at h
  · cases h
  · cases h
  · cases h
  · cases h
  · cases h
  · split at h
    · cases h
    · have hl := scanClosing_shorter h
      simp only [List.length_cons]
      omega
  · have hl := scanClosing_shorter h
    simp only [List.length_cons]
    omega

theorem scanSingle_rest {c : Char} {rest : List Char} {m : Match} (h : scanSingle c rest = .ok m) : m.rest = rest := by
  unfold scanSingle at h
  split at h <;> cases h
  rfl

theorem scanSign_shorter {c : Char} {rest : List Char} {m : Match} (h : scanSign c rest = .ok m) :
    m.rest.length ≤ rest.length := by
  unfold scanSign at h
  split at h
  · exact Nat.le_of_eq (congrArg List.length (scanSingle_rest h))
  · split at h
    · cases h
      simp
    · exact Nat.le_of_eq (congrArg List.length (scanSingle_rest h))

/-- A scanned token takes at least its first character. -/
theorem scan_shorter {c : Char} {rest : List Char} {m : Match} (h : scan c rest = .ok m) :
    m.rest.length ≤ rest.length := by
  unfold scan at h
  split at h
  · rename_i hc
    cases h
    exact scanWord_shorter hc
  · split at h
    · rename_i hc
      exact scanNumber_shorter hc h
    · split at h
      · simp only [scanString] at h
        cases ht : scanText rest with
        | error e => simp [ht, bind, Except.bind] at h
        | ok t =>
          simp [ht, bind, Except.bind, pure, Except.pure] at h
          rw [← h]
          exact scanText_shorter ht
      · split at h
        · exact scanCharacter_shorter h
        · exact scanSign_shorter h

/-- Every token but the end token shortens the text ahead. -/
theorem scanToken_shorter {cursor after : Cursor} {token : Token} (h : scanToken cursor = .ok (token, after))
    (hk : token.kind ≠ .eof) : after.rest.length < cursor.rest.length := by
  have hg := skipGap_length_le false cursor.pos cursor.rest
  unfold scanToken at h
  split at h
  · cases h
    exact absurd rfl hk
  · rename_i pos c rest heq
    rw [heq] at hg
    split at h
    · cases h
    · rename_i m hm
      cases h
      have := scan_shorter hm
      simp only [List.length_cons] at hg
      simp only
      omega

end OnePass.Lexer

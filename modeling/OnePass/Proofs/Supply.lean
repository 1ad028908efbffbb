import OnePass.Token.Source

/-!
# What a source of tokens supplies

A source supplies a list of tokens and then, for ever, its end: the end token, or the fault that reading on ran into. Looking at
the next token changes nothing that can be seen later, and taking it leaves the tokens behind it. A list that is replayed is such
a source (`Replay`), and so is a lexer at work on a text (`Lexer`).
-/

namespace OnePass

/-- The front of a list of tokens with an end. -/
def frontOf (ahead : List Token) (stop : Except Diagnostic Token) : Except Diagnostic Token :=
  match ahead with
  | token :: _ => .ok token
  | [] => stop

/-- A source with a list of tokens before its end. -/
class Supply (σ : Type) [TokenSource σ] where
  /-- The tokens before the end. -/
  ahead : σ → List Token
  /-- The end token, or the fault in its place. -/
  stop : σ → Except Diagnostic Token
  kind_ne_eof : ∀ s : σ, ∀ t ∈ ahead s, t.kind ≠ .eof
  kind_stop : ∀ (s : σ) t, stop s = .ok t → t.kind = .eof
  peek_fst : ∀ s : σ, (TokenSource.peek s).1 = frontOf (ahead s) (stop s)
  next_fst : ∀ s : σ, (TokenSource.next s).1 = frontOf (ahead s) (stop s)
  ahead_peek : ∀ s : σ, ahead (TokenSource.peek s).2 = ahead s
  stop_peek : ∀ s : σ, stop (TokenSource.peek s).2 = stop s
  ahead_next : ∀ (s : σ) t ts, ahead s = t :: ts → ahead (TokenSource.next s).2 = ts
  stop_next : ∀ (s : σ) t ts, ahead s = t :: ts → stop (TokenSource.next s).2 = stop s
  peek_peek : ∀ s : σ, (TokenSource.peek (TokenSource.peek s).2).2 = (TokenSource.peek s).2
  next_peek : ∀ s : σ, (TokenSource.next (TokenSource.peek s).2).2 = (TokenSource.next s).2
  length_ahead : ∀ s : σ, (ahead s).length ≤ TokenSource.remaining s

/-- A source comes from one state to another while just these tokens are taken. -/
inductive Passes {σ : Type} [TokenSource σ] (source : σ) : List Token → σ → Prop
  | refl : Passes source [] source
  | peek {tokens : List Token} {now : σ} (h : Passes source tokens now) : Passes source tokens (TokenSource.peek now).2
  | next {tokens : List Token} {now : σ} {t : Token} (h : Passes source tokens now) (ht : (TokenSource.next now).1 = .ok t) :
    Passes source (tokens ++ [t]) (TokenSource.next now).2

theorem Passes.trans {σ : Type} [TokenSource σ] {source source' source'' : σ} {ts us : List Token} (h : Passes source ts source')
    (h' : Passes source' us source'') : Passes source (ts ++ us) source'' := by
  induction h' with
  | refl => rwa [List.append_nil]
  | peek _ ih => exact ih.peek
  | next _ ht ih =>
    rw [← List.append_assoc]
    exact ih.next ht

/-! ## Lists that are replayed -/

namespace Replay

/-- A token that is not the end token. -/
def isInner (t : Token) : Bool := t.kind ≠ .eof

/-- What stands at the end: the first end token of the list, or the one past its end. -/
def stop (r : Replay) : Token := (r.rest.dropWhile isInner).headD (Lexer.endToken r.last)

theorem kind_stop (r : Replay) : r.stop.kind = .eof := by
  unfold stop
  cases h : r.rest.dropWhile isInner with
  | nil => rfl
  | cons t ts =>
    have := List.head?_dropWhile_not isInner r.rest
    rw [h] at this
    simpa [isInner] using this

theorem peek_fst (r : Replay) : r.peek.1 = frontOf (r.rest.takeWhile isInner) (.ok r.stop) := by
  unfold Replay.peek stop
  cases h : r.rest with
  | nil => rfl
  | cons t ts => cases ht : isInner t <;> simp [ht, frontOf]

instance : Supply Replay where
  ahead r := r.rest.takeWhile isInner
  stop r := .ok r.stop
  kind_ne_eof r t ht := by simpa [isInner] using List.all_eq_true.1 (List.all_takeWhile (l := r.rest)) t ht
  kind_stop r t h := by cases h; exact kind_stop r
  peek_fst := peek_fst
  next_fst := peek_fst
  ahead_peek _ := rfl
  stop_peek _ := rfl
  ahead_next r t ts h := by
    change (r.rest.tail).takeWhile isInner = ts
    cases hr : r.rest with
    | nil => simp [hr] at h
    | cons u us =>
      rw [hr, List.takeWhile_cons] at h
      split at h
      · exact (List.cons.inj h).2
      · cases h
  stop_next r t ts h := by
    change Except.ok ((r.rest.tail.dropWhile isInner).headD (Lexer.endToken r.last)) = .ok r.stop
    unfold stop
    cases hr : r.rest with
    | nil => simp [hr] at h
    | cons u us =>
      rw [hr, List.takeWhile_cons] at h
      split at h
      · rename_i hu
        simp [hu]
      · cases h
  peek_peek _ := rfl
  next_peek _ := rfl
  length_ahead r := (List.takeWhile_sublist isInner).length_le

end Replay

/-! ## Lexers -/

namespace Lexer

variable {after cursor : Cursor} {token : Token} {d : Diagnostic} {l : Lexer}

/-- The tokens of a text before its end. -/
def inner (cursor : Cursor) : List Token := (lexFrom cursor).1.takeWhile Replay.isInner

/-- The end of the tokens of a text. -/
def stopFrom (cursor : Cursor) : Except Diagnostic Token :=
  match lexFrom cursor with
  | (_, some d) => .error d
  | (tokens, none) => .ok (tokens.getLastD (endToken cursor.pos))

theorem lexFrom_error (h : scanToken cursor = .error d) : lexFrom cursor = ([], some d) := by
  rw [lexFrom.eq_def]
  split
  · rename_i d' hd
    rw [h] at hd
    cases hd
    rfl
  · rename_i hd
    rw [h] at hd
    cases hd

theorem lexFrom_eof (h : scanToken cursor = .ok (token, after)) (hk : token.kind = .eof) : lexFrom cursor = ([token], none) := by
  rw [lexFrom.eq_def]
  split
  · rename_i hd
    rw [h] at hd
    cases hd
  · rename_i t a hd
    rw [h] at hd
    cases hd
    simp [hk]

theorem lexFrom_token (h : scanToken cursor = .ok (token, after)) (hk : token.kind ≠ .eof) :
    lexFrom cursor = (token :: (lexFrom after).1, (lexFrom after).2) := by
  rw [lexFrom.eq_def]
  split
  · rename_i hd
    rw [h] at hd
    cases hd
  · rename_i t a hd
    rw [h] at hd
    cases hd
    simp [hk]

/-- A text without a lexical fault has tokens, of which the last is the only end token. -/
theorem lexFrom_none {cursor : Cursor} (h : (lexFrom cursor).2 = none) :
    ∃ ts e, (lexFrom cursor).1 = ts ++ [e] ∧ e.kind = .eof ∧ ∀ t ∈ ts, t.kind ≠ .eof := by
  cases hs : scanToken cursor with
  | error d =>
    rw [lexFrom_error hs] at h
    cases h
  | ok p =>
    obtain ⟨token, after⟩ := p
    by_cases hk : token.kind = .eof
    · exact ⟨[], token, by rw [lexFrom_eof hs hk]; rfl, hk, by simp⟩
    · have hlt := scanToken_shorter hs hk
      rw [lexFrom_token hs hk] at h ⊢
      obtain ⟨ts, e, h1, h2, h3⟩ := lexFrom_none h
      refine ⟨token :: ts, e, by rw [h1]; rfl, h2, ?_⟩
      intro t ht
      rcases List.mem_cons.1 ht with rfl | ht
      · exact hk
      · exact h3 t ht
termination_by cursor.rest.length

theorem stopFrom_error (h : scanToken cursor = .error d) : stopFrom cursor = .error d := by
  rw [stopFrom, lexFrom_error h]

theorem stopFrom_eof (h : scanToken cursor = .ok (token, after)) (hk : token.kind = .eof) : stopFrom cursor = .ok token := by
  rw [stopFrom, lexFrom_eof h hk]
  rfl

theorem stopFrom_token (h : scanToken cursor = .ok (token, after)) (hk : token.kind ≠ .eof) :
    stopFrom cursor = stopFrom after := by
  rw [stopFrom, stopFrom, lexFrom_token h hk]
  cases hf : (lexFrom after).2 with
  | some d =>
    have : lexFrom after = ((lexFrom after).1, some d) := by rw [← hf]
    rw [this]
  | none =>
    obtain ⟨ts, e, h1, -, -⟩ := lexFrom_none hf
    have : lexFrom after = ((lexFrom after).1, none) := by rw [← hf]
    rw [this, h1]
    simp only [← List.cons_append, List.getLastD_concat]

theorem inner_error (h : scanToken cursor = .error d) : inner cursor = [] := by
  rw [inner, lexFrom_error h]
  rfl

theorem inner_eof (h : scanToken cursor = .ok (token, after)) (hk : token.kind = .eof) : inner cursor = [] := by
  rw [inner, lexFrom_eof h hk]
  simp [Replay.isInner, hk]

theorem inner_token (h : scanToken cursor = .ok (token, after)) (hk : token.kind ≠ .eof) :
    inner cursor = token :: inner after := by
  rw [inner, inner, lexFrom_token h hk]
  simp [Replay.isInner, hk]

theorem kind_stopFrom {cursor : Cursor} {t : Token} (h : stopFrom cursor = .ok t) : t.kind = .eof := by
  cases hs : scanToken cursor with
  | error d =>
    rw [stopFrom_error hs] at h
    cases h
  | ok p =>
    obtain ⟨token, after⟩ := p
    by_cases hk : token.kind = .eof
    · rw [stopFrom_eof hs hk] at h
      cases h
      exact hk
    · have := scanToken_shorter hs hk
      exact kind_stopFrom (by rwa [stopFrom_token hs hk] at h)
termination_by cursor.rest.length

theorem length_inner (cursor : Cursor) : (inner cursor).length ≤ cursor.rest.length := by
  cases hs : scanToken cursor with
  | error d => simp [inner_error hs]
  | ok p =>
    obtain ⟨token, after⟩ := p
    by_cases hk : token.kind = .eof
    · simp [inner_eof hs hk]
    · have h1 := scanToken_shorter hs hk
      have h2 := length_inner after
      rw [inner_token hs hk, List.length_cons]
      omega
termination_by cursor.rest.length

/-- The tokens ahead of a lexer before the end. -/
def aheadOf (l : Lexer) : List Token :=
  match l.ahead with
  | none => inner l.cursor
  | some (.error _) => []
  | some (.ok token) => if token.kind = .eof then [] else token :: inner l.cursor

/-- The end of a lexer's tokens. -/
def stopOf (l : Lexer) : Except Diagnostic Token :=
  match l.ahead with
  | none => stopFrom l.cursor
  | some (.error d) => .error d
  | some (.ok token) => if token.kind = .eof then .ok token else stopFrom l.cursor

/-- Looking ahead gives the front token, and is no different the next time. -/
theorem peek_facts (l : Lexer) : l.peek.1 = frontOf l.aheadOf l.stopOf ∧ l.peek.2.aheadOf = l.aheadOf ∧
    l.peek.2.stopOf = l.stopOf ∧ l.peek.2.ahead = some l.peek.1 := by
  obtain ⟨cursor, ahead⟩ := l
  match ahead with
  | some (.error d) => exact ⟨rfl, rfl, rfl, rfl⟩
  | some (.ok token) => refine ⟨?_, rfl, rfl, rfl⟩; by_cases hk : token.kind = .eof <;> simp [peek, aheadOf, stopOf, frontOf, hk]
  | none =>
    cases hs : scanToken cursor with
    | error d => simp [peek, hs, aheadOf, stopOf, inner_error hs, stopFrom_error hs, frontOf]
    | ok p =>
      obtain ⟨token, after⟩ := p
      by_cases hk : token.kind = .eof
      · simp [peek, hs, aheadOf, stopOf, inner_eof hs hk, stopFrom_eof hs hk, frontOf, hk]
      · simp [peek, hs, aheadOf, stopOf, inner_token hs hk, stopFrom_token hs hk, frontOf, hk]

theorem peek_of_ahead {seen : Except Diagnostic Token} (h : l.ahead = some seen) : l.peek = (seen, l) := by
  unfold peek
  rw [h]

theorem peek_peek (l : Lexer) : l.peek.2.peek = l.peek := by rw [peek_of_ahead (peek_facts l).2.2.2]

theorem next_eq (l : Lexer) : l.next = (l.peek.1, match l.peek.1 with
    | .ok token => if token.kind = .eof then l.peek.2 else { l.peek.2 with ahead := none }
    | .error _ => l.peek.2) := by
  unfold next
  split <;> rename_i h <;> rw [h]

/-- Taking a token that is not the end token leaves the tokens behind it. -/
theorem next_facts {t : Token} {ts : List Token} (h : l.aheadOf = t :: ts) :
    l.next.2.aheadOf = ts ∧ l.next.2.stopOf = l.stopOf := by
  obtain ⟨h1, h2, h3, h4⟩ := peek_facts l
  have hf : l.peek.1 = .ok t := by rw [h1, h]; rfl
  rw [hf] at h4
  rw [next_eq, hf]
  by_cases hk : t.kind = .eof
  · rw [h] at h2
    simp [aheadOf, h4, hk] at h2
  · simp only [if_neg hk]
    rw [h] at h2
    rw [← h3]
    simp only [aheadOf, stopOf, h4, if_neg hk] at h2 ⊢
    exact ⟨(List.cons.inj h2).2, trivial⟩

instance : Supply Lexer where
  ahead := aheadOf
  stop := stopOf
  kind_ne_eof l t ht := by
    have hi : ∀ c, ∀ u ∈ inner c, u.kind ≠ .eof := fun c u hu => by
      simpa [Replay.isInner] using List.all_eq_true.1 (List.all_takeWhile (l := (lexFrom c).1)) u hu
    unfold aheadOf at ht
    split at ht
    · exact hi _ t ht
    · cases ht
    · split at ht
      · cases ht
      · rcases List.mem_cons.1 ht with rfl | ht
        · assumption
        · exact hi _ t ht
  kind_stop l t h := by
    unfold stopOf at h
    split at h
    · exact kind_stopFrom h
    · cases h
    · split at h
      · cases h
        assumption
      · exact kind_stopFrom h
  peek_fst l := (peek_facts l).1
  next_fst l := by
    change l.next.1 = _
    rw [next_eq]
    exact (peek_facts l).1
  ahead_peek l := (peek_facts l).2.1
  stop_peek l := (peek_facts l).2.2.1
  ahead_next l t ts h := (next_facts h).1
  stop_next l t ts h := (next_facts h).2
  peek_peek l := congrArg Prod.snd (peek_peek l)
  next_peek l := by
    change l.peek.2.next.2 = l.next.2
    rw [next_eq, next_eq, peek_peek]
  length_ahead l := by
    change l.aheadOf.length ≤ l.cursor.rest.length + l.held
    have := length_inner l.cursor
    obtain ⟨cursor, ahead⟩ := l
    match ahead with
    | none => exact Nat.le_add_right_of_le this
    | some (.error _) => exact Nat.zero_le _
    | some (.ok token) =>
      by_cases hk : token.kind = .eof
      · simp [aheadOf, hk]
      · simpa [aheadOf, held, hk] using this

theorem ahead_ofSource (source : Bytes) : Supply.ahead (Lexer.ofSource source) = inner (.ofSource source) := rfl

theorem stop_ofSource (source : Bytes) : Supply.stop (Lexer.ofSource source) = stopFrom (.ofSource source) := rfl

end Lexer

end OnePass

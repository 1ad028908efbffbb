import OnePass.Compile
import OnePass.Proofs.Lexical.Spelling
import OnePass.Proofs.Parsing.Program
import OnePass.Proofs.Positions

/-!
# Lexing lazily

A lexer at work on a text finds its tokens one at a time, keeps one that has been looked at, and is asked in whatever order suits
its user. Whoever asks cannot tell it from the list of all tokens of the text, replayed: each call is answered by the token that
stands behind those taken so far, and at the end by the end token or the lexical fault, for ever (`Feed`). So an analysis of the
text is one of its tokens, and where the text has a lexical fault the analysis stops there, or failed before it
(`lexer_feeds_lex`).
-/

namespace OnePass

variable {d : Diagnostic} {source : Bytes}

/-! ## The end of a text -/

namespace Lexer

variable {m : Match} {rest : List Char} {c : Char}

theorem wordKind_ne_eof (word : List Char) : wordKind word ≠ .eof := by
  have hkeywords : ∀ entry ∈ keywords, entry.2 ≠ .eof := by decide
  rw [wordKind]
  cases hlookup : keywords.lookup word with
  | none => simp
  | some kind =>
    obtain ⟨before, after, hentry, -⟩ := List.lookup_eq_some_iff.1 hlookup
    exact hkeywords (word, kind) (by rw [hentry]; simp)

/-- No character starts an end token. -/
theorem kind_scan (h : scan c rest = .ok m) : m.kind ≠ .eof := by
  have hsigns : ∀ entry ∈ signs, entry.2 ≠ .eof := by decide
  cases (scan_spells h ⟨0, 0⟩).1 with
  | word _ _ hkind =>
    rw [show m.kind = _ from hkind]
    exact wordKind_ne_eof _
  | sign hspan => exact hsigns _ hspan
  | integer _ _ hkind | double _ _ hkind | string _ _ hkind | character _ _ hkind =>
    rw [show m.kind = _ from hkind]
    nofun

theorem scanToken_eof {cursor after : Cursor} {token : Token} (h : scanToken cursor = .ok (token, after))
    (hk : token.kind = .eof) :
    token = endToken token.pos := by
  unfold scanToken at h
  split at h
  · cases h
    rfl
  · split at h
    · cases h
    · rename_i m hm
      cases h
      exact absurd hk (kind_scan hm)

/-- The tokens of a text without a lexical fault end with the end token. -/
theorem exists_endToken {cursor : Cursor} (h : (lexFrom cursor).2 = none) :
    ∃ pos, (lexFrom cursor).1 = inner cursor ++ [endToken pos] ∧ stopFrom cursor = .ok (endToken pos) := by
  cases hs : scanToken cursor with
  | error d =>
    rw [lexFrom_error hs] at h
    cases h
  | ok r =>
    obtain ⟨token, after⟩ := r
    by_cases hk : token.kind = .eof
    · refine ⟨token.pos, ?_, ?_⟩
      · rw [lexFrom_eof hs hk, inner_eof hs hk, ← scanToken_eof hs hk]
        rfl
      · rw [stopFrom_eof hs hk, ← scanToken_eof hs hk]
    · have hlt := scanToken_shorter hs hk
      rw [lexFrom_token hs hk] at h
      obtain ⟨pos, htokens, hstop⟩ := exists_endToken h
      refine ⟨pos, ?_, ?_⟩
      · rw [lexFrom_token hs hk, inner_token hs hk, htokens]
        rfl
      · rw [stopFrom_token hs hk, hstop]
termination_by cursor.rest.length

/-- The tokens of a text before a lexical fault. -/
theorem inner_of_fault {cursor : Cursor} {d : Diagnostic} (h : (lexFrom cursor).2 = some d) :
    inner cursor = (lexFrom cursor).1 ∧ stopFrom cursor = .error d := by
  cases hs : scanToken cursor with
  | error d' =>
    rw [lexFrom_error hs] at h
    cases h
    exact ⟨by rw [inner_error hs, lexFrom_error hs], stopFrom_error hs⟩
  | ok r =>
    obtain ⟨token, after⟩ := r
    by_cases hk : token.kind = .eof
    · rw [lexFrom_eof hs hk] at h
      cases h
    · have hlt := scanToken_shorter hs hk
      rw [lexFrom_token hs hk] at h
      obtain ⟨hinner, hstop⟩ := inner_of_fault h
      exact ⟨by rw [inner_token hs hk, lexFrom_token hs hk, hinner], by rw [stopFrom_token hs hk, hstop]⟩
termination_by cursor.rest.length

end Lexer

/-! ## Feeds -/

/-- Sources that feed tokens, and when there are none left answer `stop` for ever. -/
structure Feed (σ : Type) [TokenSource σ] (stop : Except Diagnostic Token) where
  /-- The source has these tokens left. -/
  Has : σ → List Token → Prop
  peek : ∀ {s : σ} {tokens : List Token}, Has s tokens → (TokenSource.peek s).1 = frontOf tokens stop ∧
    Has (TokenSource.peek s).2 tokens
  next : ∀ {s : σ} {tokens : List Token}, Has s tokens → (TokenSource.next s).1 = frontOf tokens stop ∧
    Has (TokenSource.next s).2 tokens.tail

namespace Feed

/-- At the end nothing is used up. -/
theorem next_of_aheadOf_nil {l : Lexer} (h : l.aheadOf = []) : l.next.2 = l.peek.2 := by
  have hpeek := (Lexer.peek_facts l).1
  rw [h] at hpeek
  change l.peek.1 = l.stopOf at hpeek
  rw [Lexer.next_eq]
  cases hstop : l.peek.1 with
  | error d => rfl
  | ok token =>
    have hk : token.kind = .eof := Supply.kind_stop l token (hpeek.symm.trans hstop)
    exact if_pos hk

/-- A lexer feeds what is ahead of it. -/
def ofLexer (stop : Except Diagnostic Token) : Feed Lexer stop where
  Has l tokens := l.aheadOf = tokens ∧ l.stopOf = stop
  peek := by
    rintro l _ ⟨rfl, rfl⟩
    obtain ⟨hfront, hahead, hstop, -⟩ := Lexer.peek_facts l
    exact ⟨hfront, hahead, hstop⟩
  next := by
    rintro l _ ⟨rfl, rfl⟩
    refine ⟨Supply.next_fst l, ?_⟩
    cases h : l.aheadOf with
    | cons token tokens => exact Lexer.next_facts h
    | nil =>
      obtain ⟨-, hahead, hstop, -⟩ := Lexer.peek_facts l
      change l.next.2.aheadOf = [] ∧ l.next.2.stopOf = l.stopOf
      rw [next_of_aheadOf_nil h, hahead, hstop]
      exact ⟨h, rfl⟩

/-- A list that ends with the end token feeds the tokens before it. -/
def ofReplay (pos : Pos) : Feed Replay (.ok (Lexer.endToken pos)) where
  Has r tokens := (r.rest = tokens ++ [Lexer.endToken pos] ∨ r.rest = [] ∧ tokens = []) ∧ r.last = pos
  peek := by
    rintro ⟨rest, last⟩ tokens ⟨hrest, hlast⟩
    refine ⟨?_, hrest, hlast⟩
    obtain rfl : last = pos := hlast
    rcases hrest with rfl | ⟨rfl, rfl⟩
    · cases tokens <;> rfl
    · rfl
  next := by
    rintro ⟨rest, last⟩ tokens ⟨hrest, hlast⟩
    obtain rfl : last = pos := hlast
    rcases hrest with rfl | ⟨rfl, rfl⟩
    · cases tokens with
      | nil => exact ⟨rfl, .inr ⟨rfl, rfl⟩, rfl⟩
      | cons token tokens => exact ⟨rfl, .inl rfl, rfl⟩
    · exact ⟨rfl, .inr ⟨rfl, rfl⟩, rfl⟩

end Feed

/-! ## Calls -/

/-- The two ways of asking a source for a token. -/
inductive Call where
  | peek
  | next
  deriving DecidableEq, Repr

namespace Call

/-- What a source answers to calls, one after another. -/
def answers {σ : Type} [TokenSource σ] (s : σ) : List Call → List (Except Diagnostic Token)
  | [] => []
  | .peek :: calls => (TokenSource.peek s).1 :: answers (TokenSource.peek s).2 calls
  | .next :: calls => (TokenSource.next s).1 :: answers (TokenSource.next s).2 calls

/-- How many tokens have been taken before each of the calls, if so many have been taken before the first. -/
def taken (before : Nat) : List Call → List Nat
  | [] => []
  | .peek :: calls => before :: taken before calls
  | .next :: calls => before :: taken (before + 1) calls

end Call

/-- Every call is answered by the first token that has not been taken. -/
theorem Feed.answers {σ : Type} [TokenSource σ] {stop : Except Diagnostic Token} (feed : Feed σ stop) (tokens : List Token)
    (before : Nat) {s : σ} (h : feed.Has s (tokens.drop before)) (calls : List Call) :
    Call.answers s calls = (Call.taken before calls).map fun k => frontOf (tokens.drop k) stop := by
  induction calls generalizing s before with
  | nil => rfl
  | cons call calls ih =>
    cases call with
    | peek =>
      obtain ⟨hfront, hhas⟩ := feed.peek h
      rw [Call.answers, Call.taken, List.map_cons, hfront, ih _ hhas]
    | next =>
      obtain ⟨hfront, hhas⟩ := feed.next h
      rw [List.tail_drop] at hhas
      rw [Call.answers, Call.taken, List.map_cons, hfront, ih _ hhas]

theorem frontOf_drop (tokens : List Token) (stop : Except Diagnostic Token) (k : Nat) :
    frontOf (tokens.drop k) stop = (tokens[k]?.map Except.ok).getD stop := by
  rw [← List.head?_drop]
  cases tokens.drop k <;> rfl

/-- The last token of a list stands for whatever would come behind it. -/
theorem getElem?_concat_getD (tokens : List Token) (last : Token) (k : Nat) :
    (tokens ++ [last])[k]?.getD last = tokens[k]?.getD last := by
  by_cases hk : k < tokens.length
  · rw [List.getElem?_append_left hk]
  · rw [List.getElem?_append_right (Nat.le_of_not_lt hk), List.getElem?_eq_none (Nat.le_of_not_lt hk)]
    cases k - tokens.length <;> rfl

/-! ## Analyses -/

theorem Relabelling.tokens_moving_id (t : Token) : (Relabelling.moving id).Tokens t t :=
  ⟨(Relabelling.token_moving id t).symm, fun _ => trivial⟩

theorem Relabelling.failure_moving_id (e : Failure) : (Relabelling.moving id).failure e = e := by
  cases e with
  | diagnostic d => exact congrArg Failure.diagnostic (Relabelling.diagnostic_moving id d)
  | breach b => rfl

theorem Relabelling.eq_of_outcomes_id {r r' : Except Failure Program} (h : (Relabelling.moving id).Outcomes r r') : r' = r := by
  rw [Relabelling.outcomes_moving id h]
  cases r with
  | ok p => rfl
  | error e => exact congrArg Except.error (Relabelling.failure_moving_id e)

namespace Feed

variable {σ τ : Type} [TokenSource σ] [TokenSource τ]
variable {tokens : List Token} {s : σ}

/-- Two sources that feed the same tokens are in step. -/
def pace {last : Token} (feed : Feed σ (.ok last)) (feed' : Feed τ (.ok last)) : Pace σ τ (.moving id) where
  Level s t := ∃ tokens, feed.Has s tokens ∧ feed'.Has t tokens
  Stops _ := False
  peek := by
    rintro s t ⟨tokens, hs, ht⟩
    obtain ⟨hfront, hhas⟩ := feed.peek hs
    obtain ⟨hfront', hhas'⟩ := feed'.peek ht
    rw [hfront, hfront']
    cases tokens <;> exact .inr ⟨_, _, rfl, rfl, Relabelling.tokens_moving_id _, _, hhas, hhas'⟩
  next := by
    rintro s t ⟨tokens, hs, ht⟩
    obtain ⟨hfront, hhas⟩ := feed.next hs
    obtain ⟨hfront', hhas'⟩ := feed'.next ht
    rw [hfront, hfront']
    cases tokens <;> exact .inr ⟨_, _, rfl, rfl, Relabelling.tokens_moving_id _, _, hhas, hhas'⟩

/-- A source that feeds tokens up to a fault is in step with a list that goes on behind them. -/
def paceWith {d : Diagnostic} (feed : Feed σ (.error d)) (more : List Token) : Pace σ Replay (.moving id) where
  Level s r := ∃ tokens, feed.Has s tokens ∧ r.rest = tokens ++ more
  Stops fault := fault = d
  peek := by
    rintro s ⟨_, last⟩ ⟨tokens, hs, rfl⟩
    obtain ⟨hfront, hhas⟩ := feed.peek hs
    rw [hfront]
    cases tokens with
    | nil => exact .inl ⟨d, rfl, rfl⟩
    | cons token tokens => exact .inr ⟨token, token, rfl, rfl, Relabelling.tokens_moving_id _, _, hhas, rfl⟩
  next := by
    rintro s ⟨_, last⟩ ⟨tokens, hs, rfl⟩
    obtain ⟨hfront, hhas⟩ := feed.next hs
    rw [hfront]
    cases tokens with
    | nil => exact .inl ⟨d, rfl, rfl⟩
    | cons token tokens => exact .inr ⟨token, token, rfl, rfl, Relabelling.tokens_moving_id _, _, hhas, rfl⟩

/-- The analyses of two sources that feed the same tokens come to the same. -/
theorem analyze_eq [Supply σ] [Supply τ] {last : Token} (feed : Feed σ (.ok last)) (feed' : Feed τ (.ok last)) {t : τ}
    (hs : feed.Has s tokens) (ht : feed'.Has t tokens) : analyze s = analyze t := by
  rcases (feed.pace feed').analyze ⟨tokens, hs, ht⟩ with ⟨d, hd, -⟩ | houtcomes
  · exact hd.elim
  · exact (Relabelling.eq_of_outcomes_id houtcomes).symm

/-- An analysis of tokens up to a fault fails with it, or else comes to what it comes to however the tokens go on. -/
theorem analyze_fault [Supply σ] (feed : Feed σ (.error d)) (hs : feed.Has s tokens) :
    analyze s = .error (.diagnostic d) ∨ ∀ more, analyze (Replay.ofTokens (tokens ++ more)) = analyze s := by
  by_cases hd : analyze s = .error (.diagnostic d)
  · exact .inl hd
  · refine .inr fun more => ?_
    rcases (feed.paceWith more).analyze (t := Replay.ofTokens (tokens ++ more)) ⟨tokens, hs, rfl⟩ with
      ⟨fault, hfault, hstopped⟩ | houtcomes
    · change fault = d at hfault
      rw [hfault] at hstopped
      exact absurd hstopped hd
    · exact Relabelling.eq_of_outcomes_id houtcomes

end Feed

/-! ## Texts -/

namespace Lexer

/-- A text without a lexical fault is fed as the list of its tokens is. -/
theorem exists_feeds (h : (lex source).2 = none) :
    ∃ tokens pos, (lex source).1 = tokens ++ [endToken pos] ∧ (Feed.ofLexer (.ok (endToken pos))).Has (ofSource source) tokens ∧
      (Feed.ofReplay pos).Has (Replay.ofTokens (lex source).1) tokens := by
  obtain ⟨pos, htokens, hstop⟩ := exists_endToken h
  refine ⟨inner (.ofSource source), pos, htokens, ⟨rfl, hstop⟩, .inl htokens, ?_⟩
  change (((lexFrom (.ofSource source)).1.getLast?).map Token.pos).getD ⟨0, 0⟩ = pos
  rw [htokens, List.getLast?_concat]
  rfl

end Lexer

theorem compile_of_analyze (h : analyze (Lexer.ofSource source) = .error (.diagnostic d)) :
    compile source = .error (.report (d.report (Text.line source d.pos.line))) := by
  rw [compile, h]
  rfl

/-- A lexer and the list of the tokens of its text are the same source. Without a lexical fault every call is answered by the
first token that has not been taken, and at the end by the end token; the text and the tokens come to the same program, or to the
same error. With a lexical fault the calls are answered by the tokens before it and then by the fault, and an analysis fails: with
the fault, or as it fails on the tokens before it however they go on. -/
theorem lexer_feeds_lex (source : Bytes) :
    ((lex source).2 = none → ∃ last, (lex source).1.getLast? = some last ∧ last.kind = .eof ∧
      (∀ calls, Call.answers (Lexer.ofSource source) calls = Call.answers (Replay.ofTokens (lex source).1) calls ∧
        Call.answers (Lexer.ofSource source) calls = (Call.taken 0 calls).map fun k => .ok ((lex source).1[k]?.getD last)) ∧
      compile source = (analyze (Replay.ofTokens (lex source).1)).mapError (Failure.error source)) ∧
    ∀ d, (lex source).2 = some d →
      (∀ calls, Call.answers (Lexer.ofSource source) calls =
        (Call.taken 0 calls).map fun k => ((lex source).1[k]?.map Except.ok).getD (.error d)) ∧
      (compile source = .error (.report (d.report (Text.line source d.pos.line))) ∨
        ∃ d', compile source = .error (.report (d'.report (Text.line source d'.pos.line))) ∧
          ∀ more, analyze (Replay.ofTokens ((lex source).1 ++ more)) = .error (.diagnostic d')) := by
  constructor
  · intro hlex
    obtain ⟨tokens, pos, htokens, hlexer, hreplay⟩ := Lexer.exists_feeds hlex
    refine ⟨Lexer.endToken pos, by rw [htokens, List.getLast?_concat], rfl, fun calls => ?_, ?_⟩
    · have hcalls := (Feed.ofLexer (.ok (Lexer.endToken pos))).answers tokens 0 hlexer calls
      have hcalls' := (Feed.ofReplay pos).answers tokens 0 hreplay calls
      refine ⟨hcalls.trans hcalls'.symm, hcalls.trans (List.map_congr_left fun k _ => ?_)⟩
      rw [frontOf_drop, htokens, getElem?_concat_getD]
      cases tokens[k]? <;> rfl
    · rw [compile, (Feed.ofLexer _).analyze_eq (Feed.ofReplay pos) hlexer hreplay]
  · intro d hlex
    obtain ⟨hinner, hstop⟩ := Lexer.inner_of_fault hlex
    have hlexer : (Feed.ofLexer (.error d)).Has (Lexer.ofSource source) (lex source).1 := ⟨hinner, hstop⟩
    refine ⟨fun calls => ?_, ?_⟩
    · rw [(Feed.ofLexer (.error d)).answers _ 0 hlexer calls]
      exact List.map_congr_left fun k _ => frontOf_drop _ _ k
    · rcases (Feed.ofLexer (.error d)).analyze_fault hlexer with hfault | hmore
      · exact .inl (compile_of_analyze hfault)
      · cases hanalyze : analyze (Lexer.ofSource source) with
        | ok p =>
          obtain ⟨-, -, -, last, hlast⟩ := analyze_reads hanalyze
          rw [Lexer.stop_ofSource, hstop] at hlast
          cases hlast
        | error e =>
          obtain ⟨d', rfl, -⟩ := analyze_fails _ hanalyze
          exact .inr ⟨d', compile_of_analyze hanalyze, fun more => (hmore more).trans hanalyze⟩

end OnePass

import OnePass.Analysis.Definition
import OnePass.Proofs.Supply

/-!
# Steps of an analysis

How the parts of an analysis run, one lemma for each: what a step gives and which state it leaves. A later proof peels a run apart
with `run_bind_ok_iff` or puts one together with `run_bind_of_ok`, and rewrites each step with its lemma.
-/

namespace OnePass

variable {t : Token}

/-! ## Streams -/

/-- Emitted code comes last. -/
theorem Stream.toList_emitAll (s : Stream) (code : List Instruction) : (s.emitAll code).code.toList = s.code.toList ++ code := by
  induction code generalizing s with
  | nil => simp [emitAll]
  | cons i code ih =>
    rw [emitAll, List.foldl_cons]
    exact (ih (s.emit i)).trans (by simp [emit])

theorem Stream.size_eq (s : Stream) : s.size = s.code.toList.length := by simp [size]

namespace AnalysisState

variable {σ : Type} {s : AnalysisState σ} {ts : List Token}

/-- The state with code appended to one of its streams. -/
def append (s : AnalysisState σ) (out : Section) (code : List Instruction) : AnalysisState σ :=
  match out with
  | .entry => { s with entry := s.entry.emitAll code }
  | .body => { s with body := s.body.emitAll code }

variable (s) (out : Section) (c d : List Instruction)

/-- Code is appended piece by piece. -/
@[simp] theorem append_append : (s.append out c).append out d = s.append out (c ++ d) := by
  cases out <;> simp [append, Stream.emitAll, List.foldl_append]

@[simp] theorem append_nil : s.append out [] = s := by cases out <;> rfl

@[simp] theorem source_append : (s.append out c).source = s.source := by cases out <;> rfl

@[simp] theorem table_append : (s.append out c).table = s.table := by cases out <;> rfl

variable [TokenSource σ]

/-- The state after a look at the next token. -/
def looked (s : AnalysisState σ) : AnalysisState σ := { s with source := (TokenSource.peek s.source).2 }

/-- The state after the next token is taken. -/
def taken (s : AnalysisState σ) : AnalysisState σ := { s with source := (TokenSource.next s.source).2 }

/-- The token in front, or the fault in its place. -/
def front (s : AnalysisState σ) : Except Diagnostic Token := (TokenSource.peek s.source).1

/-- It does not matter whether the look comes before the code. -/
theorem looked_append : (s.append out c).looked = s.looked.append out c := by cases out <;> rfl

@[simp] theorem front_append : (s.append out c).front = s.front := by cases out <;> rfl

variable [Supply σ]

/-- The tokens ahead, before the end. -/
def ahead (s : AnalysisState σ) : List Token := Supply.ahead s.source

/-- The front is the first token ahead, or what the source stops with. -/
theorem front_eq : s.front = frontOf s.ahead (Supply.stop s.source) := Supply.peek_fst s.source

/-- A second look changes nothing. -/
@[simp] theorem looked_looked : s.looked.looked = s.looked := by
  simp [looked, Supply.peek_peek]

/-- A token that was looked at is taken as any other. -/
@[simp] theorem taken_looked : s.looked.taken = s.taken := by
  simp [looked, taken, Supply.next_peek]

@[simp] theorem ahead_looked : s.looked.ahead = s.ahead := Supply.ahead_peek s.source

@[simp] theorem front_looked : s.looked.front = s.front := by
  rw [front_eq, front_eq, ahead_looked]
  exact congrArg _ (Supply.stop_peek s.source)

@[simp] theorem ahead_append : (s.append out c).ahead = s.ahead := by cases out <;> rfl

variable {s}

/-- Taking a token leaves those behind it. -/
theorem ahead_taken (h : s.ahead = t :: ts) : s.taken.ahead = ts := Supply.ahead_next s.source t ts h

/-- The first token ahead is in front. -/
theorem front_of_ahead (h : s.ahead = t :: ts) : s.front = .ok t := by
  rw [front_eq, h]
  rfl

/-- A token in front that is not the end token is the first of the tokens ahead. -/
theorem ahead_of_front (h : s.front = .ok t) (hk : t.kind ≠ .eof) : ∃ ts, s.ahead = t :: ts := by
  rw [front_eq] at h
  cases ha : s.ahead with
  | nil =>
    rw [ha] at h
    exact absurd (Supply.kind_stop s.source t h) hk
  | cons u us =>
    rw [ha] at h
    cases h
    exact ⟨us, rfl⟩

/-- Where the end token is in front, no token is ahead. -/
theorem ahead_eq_nil_of_front (h : s.front = .ok t) (hk : t.kind = .eof) : s.ahead = [] := by
  cases ha : s.ahead with
  | nil => rfl
  | cons u us =>
    rw [front_of_ahead ha] at h
    cases h
    exact absurd hk (Supply.kind_ne_eof s.source t (by change t ∈ s.ahead; simp [ha]))

end AnalysisState

namespace Analysis

variable {σ α β : Type}
variable {s : AnalysisState σ} {k : TokenKind} {m : Analysis σ α} {f : α → Analysis σ β} {d : Diagnostic} {a : α}

/-! ## Running one part after another -/

/-- After a part that succeeds the rest runs from where it ended. -/
theorem run_bind_of_ok {s' : AnalysisState σ} (h : m.run s = .ok (a, s')) : (m >>= f).run s = (f a).run s' := by
  rw [StateT.run_bind, h]
  rfl

/-- A part that fails fails the whole. -/
theorem run_bind_of_error {e : Failure} (h : m.run s = .error e) : (m >>= f).run s = .error e := by
  rw [StateT.run_bind, h]
  rfl

/-- A run of two parts comes to its end if both do. -/
theorem run_bind_ok_iff {r : β × AnalysisState σ} :
    (m >>= f).run s = .ok r ↔ ∃ a s', m.run s = .ok (a, s') ∧ (f a).run s' = .ok r := by
  constructor
  · intro h
    cases hm : m.run s with
    | error e =>
      rw [run_bind_of_error hm] at h
      cases h
    | ok p =>
      rw [run_bind_of_ok hm] at h
      exact ⟨p.1, p.2, rfl, h⟩
  · rintro ⟨a, s', hm, hf⟩
    rw [run_bind_of_ok hm, hf]

/-- The value of a run without its last state. -/
theorem run'_ok_iff : m.run' s = .ok a ↔ ∃ s', m.run s = .ok (a, s') := by
  have hrun : m.run' s = (m.run s).map Prod.fst := rfl
  rw [hrun]
  cases m.run s with
  | error e => simp [Except.map]
  | ok r =>
    obtain ⟨b, s'⟩ := r
    simp [Except.map]

theorem run_pure (a : α) (s : AnalysisState σ) : (pure a : Analysis σ α).run s = .ok (a, s) := rfl

/-- The state can be looked at, and nothing changes. -/
theorem run_get_bind (f : AnalysisState σ → Analysis σ β) (s : AnalysisState σ) : (get >>= f).run s = (f s).run s := rfl

/-- After a change of the state the rest runs from the new one. -/
theorem run_modify_bind (g : AnalysisState σ → AnalysisState σ) (f : PUnit → Analysis σ β) (s : AnalysisState σ) :
    (modify g >>= f).run s = (f ⟨⟩).run (g s) := rfl

@[simp] theorem run_fail (pos : Pos) (fault : Fault) (s : AnalysisState σ) :
    (fail pos fault : Analysis σ α).run s = .error (.diagnostic ⟨pos, fault⟩) := rfl

@[simp] theorem run_breach (b : Breach) (s : AnalysisState σ) : (breach b : Analysis σ α).run s = .error (.breach b) := rfl

@[simp] theorem run_orFail_ok (a : α) (s : AnalysisState σ) : (orFail (.ok a) : Analysis σ α).run s = .ok (a, s) := rfl

@[simp] theorem run_orFail_error (d : Diagnostic) (s : AnalysisState σ) :
    (orFail (.error d) : Analysis σ α).run s = .error (.diagnostic d) := rfl

/-! ## Code -/

/-- An instruction is appended to its section. -/
@[simp] theorem run_emit (out : Section) (i : Instruction) (s : AnalysisState σ) :
    (emit out i).run s = .ok ((), s.append out [i]) := by cases out <;> rfl

/-- So are several. -/
@[simp] theorem run_emitAll (out : Section) (c : List Instruction) (s : AnalysisState σ) :
    (emitAll out c).run s = .ok ((), s.append out c) := by cases out <;> rfl

theorem run_emitAll_bind (out : Section) (c : List Instruction) (f : Unit → Analysis σ β) (s : AnalysisState σ) :
    (emitAll out c >>= f).run s = (f ()).run (s.append out c) := run_bind_of_ok (run_emitAll out c s)

/-! ## Globals -/

/-- A slot for a global is the next one. -/
theorem run_allocGlobal (s : AnalysisState σ) : allocGlobal.run s =
    .ok (s.table.nextGlobal, { s with table := { s.table with nextGlobal := s.table.nextGlobal + 1 } }) := rfl

/-- A global joins the pool at the slot it was given. -/
theorem run_addGlobal {slot : Nat} (h : slot = s.pool.size) (g : Global) :
    (addGlobal slot g).run s = .ok ((), { s with pool := s.pool.push g }) := by
  rw [addGlobal, run_get_bind, if_pos h]
  rfl

/-- A new global at the end of the pool, and what is noted of it. -/
theorem run_new_global (h : s.table.nextGlobal = s.pool.size) (g : Global) (note : Nat → AnalysisState σ → AnalysisState σ) :
    (do let slot ← allocGlobal; addGlobal slot g; modify (note slot); return slot : Analysis σ Nat).run s =
      .ok (s.pool.size, note s.pool.size { s with
        table := { s.table with nextGlobal := s.table.nextGlobal + 1 }
        pool := s.pool.push g }) := by
  rw [run_bind_of_ok (run_allocGlobal s)]
  refine (run_bind_of_ok (run_addGlobal ?_ g)).trans ?_
  · exact h
  · rw [run_modify_bind, h]
    rfl

/-- Where the pool is out of step this is a breach. -/
theorem run_new_global_error (h : s.table.nextGlobal ≠ s.pool.size) (g : Global)
    (note : Nat → AnalysisState σ → AnalysisState σ) :
    (do let slot ← allocGlobal; addGlobal slot g; modify (note slot); return slot : Analysis σ Nat).run s =
      .error (.breach .poolOutOfStep) := by
  rw [run_bind_of_ok (run_allocGlobal s)]
  refine run_bind_of_error ?_
  rw [addGlobal, run_get_bind, if_neg h]
  rfl

/-- The symbol at a place of the table. -/
theorem run_symbolAt {place : Nat} {symbol : Symbol} (h : s.table.symbol? place = some symbol) :
    (symbolAt place).run s = .ok (symbol, s) := by
  rw [symbolAt, run_get_bind, h]
  rfl

/-! ## Tokens -/

variable [TokenSource σ]

/-- A look gives the token in front. -/
theorem run_peek_ok (h : s.front = .ok t) : peek.run s = .ok (t, s.looked) := by
  change (orFail s.front : Analysis σ Token).run s.looked = _
  rw [h]
  rfl

/-- A look at a fault fails with it. -/
theorem run_peek_error (h : s.front = .error d) : (peek : Analysis σ Token).run s = .error (.diagnostic d) := by
  change (orFail s.front : Analysis σ Token).run s.looked = _
  rw [h]
  rfl

/-- A token of another kind is left alone. -/
theorem run_accept_false (h : s.front = .ok t) (hk : t.kind ≠ k) : (accept k).run s = .ok (false, s.looked) := by
  rw [accept, run_bind_of_ok (run_peek_ok h), if_neg hk]
  rfl

theorem run_accept_error (h : s.front = .error d) : (accept k).run s = .error (.diagnostic d) := by
  rw [accept, run_bind_of_error (run_peek_error h)]

variable [Supply σ]

/-- The token in front is taken. -/
theorem run_next_ok (h : s.front = .ok t) : next.run s = .ok (t, s.taken) := by
  change (orFail (TokenSource.next s.source).1 : Analysis σ Token).run s.taken = _
  rw [Supply.next_fst, ← Supply.peek_fst]
  change (orFail s.front : Analysis σ Token).run s.taken = _
  rw [h]
  rfl

/-- A fault in front is met when a token is to be taken. -/
theorem run_next_error (h : s.front = .error d) : (next : Analysis σ Token).run s = .error (.diagnostic d) := by
  change (orFail (TokenSource.next s.source).1 : Analysis σ Token).run s.taken = _
  rw [Supply.next_fst, ← Supply.peek_fst]
  change (orFail s.front : Analysis σ Token).run s.taken = _
  rw [h]
  rfl

/-- A token of the kind that must be there is taken. -/
theorem run_expect_ok (h : s.front = .ok t) (hk : t.kind = k) : (expect k).run s = .ok (t, s.taken) := by
  rw [expect, run_bind_of_ok (run_next_ok h), if_pos hk]
  rfl

/-- A token of the kind that may be there is taken. -/
theorem run_accept_true (h : s.front = .ok t) (hk : t.kind = k) : (accept k).run s = .ok (true, s.taken) := by
  have hn : next.run s.looked = .ok (t, s.looked.taken) := run_next_ok (by rw [s.front_looked, h])
  rw [accept, run_bind_of_ok (run_peek_ok h), if_pos hk, run_bind_of_ok hn, s.taken_looked]
  rfl

/-- A type name is taken and gives its type. -/
theorem run_typeName_ok {type : ValueType} (h : s.front = .ok t) (ht : ValueType.ofKind? t.kind = some type) :
    typeName.run s = .ok ((t, type), s.taken) := by
  rw [typeName, run_bind_of_ok (run_next_ok h), ht]
  rfl

end Analysis

end OnePass

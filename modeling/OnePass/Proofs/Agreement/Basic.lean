import OnePass.Proofs.Contexts
import OnePass.Proofs.Parsing.Expression
import OnePass.Proofs.Scoping

/-!
# Analyses and translations

An analysis whose tokens are those of a tree does what translating the tree does: it fails where that fails, and else it leaves a
state that knows the same (`AnalysisState.Knows`) and has the same code in its streams (`After`). Here is what that means, for the
smallest parts of an analysis.
-/

namespace OnePass

variable {c : Context}

/-- The kind of the token in front of these terminals. -/
def frontKind : List Terminal → TokenKind
  | [] => .eof
  | y :: _ => y.kind

/-- The kinds of the tokens that an expression can start with. -/
def TokenKind.opensExpr : TokenKind → Bool
  | .identifier | .uintLit | .doubleLit | .stringLit | .charLit | .lparen | .minus => true
  | _ => false

theorem Expr.opensExpr_yield (rest : List Terminal) : ∀ e : Expr, (frontKind (e.yield ++ rest)).opensExpr = true
  | .int _ | .double _ | .name _ | .text .string _ | .text .char _ => rfl
  | .assign _ _ | .call _ _ | .paren _ | .neg _ => rfl
  | .binary op left right => by
    rw [Expr.yield, List.append_assoc]
    exact left.opensExpr_yield _
  | .cast e target => by
    rw [Expr.yield, List.append_assoc]
    exact e.opensExpr_yield _

theorem idxOf?_concat {α : Type} [BEq α] (l : List α) (a b : α) :
    (l ++ [a]).idxOf? b = (l.idxOf? b).or (if a == b then some l.length else none) := by
  unfold List.idxOf?
  rw [List.findIdx?_append]
  cases h : a == b <;> simp [h]

namespace Translation

variable {entry : PoolEntry}

theorem run_slotOf_of_some {slot : Nat} (h : c.pool.idxOf? entry = some slot) : (slotOf entry).run c = some (slot, c) := by
  change slotOf entry c = _
  unfold slotOf
  rw [h]

theorem run_slotOf_of_none (h : c.pool.idxOf? entry = none) :
    (slotOf entry).run c = some (c.pool.length, { c with pool := c.pool ++ [entry] }) := by
  change slotOf entry c = _
  unfold slotOf
  rw [h]

end Translation

namespace AnalysisState

variable {σ : Type}
variable {s : AnalysisState σ} {ys : List Terminal}

/-- The state knows what a context says. -/
structure Knows (s : AnalysisState σ) (c : Context) : Prop where
  table : s.table.Represents c.scopes
  nextGlobal : s.table.nextGlobal = c.pool.length
  nextLocal : s.table.nextLocal = c.locals
  pool : s.pool.toList = c.pool.map PoolEntry.global
  literals : ∀ x, s.literals[x]? = c.pool.idxOf? (.literal x)
  natives : ∀ x, s.natives[x]? = c.pool.idxOf? (.primitive x)
  functions : s.functionCount = c.functions

theorem Knows.append (h : s.Knows c) (out : Section) (code : List Instruction) : (s.append out code).Knows c := by
  cases out <;> exact { h with }

theorem Knows.pool_size (h : s.Knows c) : s.pool.size = c.pool.length := by
  have := congrArg List.length h.pool
  simpa using this

/-- A new pool entry, with the maps of literals and primitives brought up to date. -/
theorem Knows.addEntry (h : s.Knows c) (entry : PoolEntry) {literals natives : Std.TreeMap Bytes Nat}
    (hl : ∀ x, literals[x]? = (c.pool ++ [entry]).idxOf? (.literal x))
    (hn : ∀ x, natives[x]? = (c.pool ++ [entry]).idxOf? (.primitive x)) :
    Knows { s with
      table := { s.table with nextGlobal := s.table.nextGlobal + 1 }
      pool := s.pool.push entry.global
      literals
      natives } { c with pool := c.pool ++ [entry] } :=
  ⟨h.table.of_eq rfl rfl rfl, by simp [h.nextGlobal], h.nextLocal, by simp [h.pool], hl, hn, h.functions⟩

/-- A change to the scopes that the table follows, with the counters as they are. -/
theorem Knows.of_table (h : s.Knows c) {t : SymbolTable} {scopes : Scopes} (ht : t.Represents scopes)
    (hglobal : t.nextGlobal = s.table.nextGlobal) (hlocal : t.nextLocal = s.table.nextLocal) :
    Knows { s with table := t } { c with scopes } :=
  ⟨ht, hglobal.trans h.nextGlobal, hlocal.trans h.nextLocal, h.pool, h.literals, h.natives, h.functions⟩

variable [TokenSource σ]

theorem Knows.looked (h : s.Knows c) : s.looked.Knows c :=
  { h with }

theorem Knows.taken (h : s.Knows c) : s.taken.Knows c :=
  { h with }

variable [Supply σ]

/-- Every token ahead can be read. -/
def Readable (s : AnalysisState σ) : Prop := ∃ t, Supply.stop s.source = .ok t

theorem Takes.readable {s' : AnalysisState σ} (h : Takes s ys s') (hs : s.Readable) : s'.Readable := by
  obtain ⟨t, ht⟩ := hs
  exact ⟨t, h.stop.trans ht⟩

theorem front_kind (h : s.Readable) : ∃ t, s.front = .ok t ∧ t.kind = frontKind s.terminals := by
  rw [front_eq]
  cases ha : s.ahead with
  | nil =>
    obtain ⟨t, ht⟩ := h
    exact ⟨t, ht, by simp [terminals, ha, frontKind, Supply.kind_stop s.source t ht]⟩
  | cons t ts => exact ⟨t, rfl, by simp [terminals, ha, frontKind, t.kind_terminal]⟩

/-- The token in front, where its terminal is known. -/
theorem front_of_terminals {y : Terminal} (h : s.terminals = y :: ys) :
    ∃ t, s.front = .ok t ∧ t.terminal = y ∧ t.kind = y.kind ∧ Takes s [y] s.taken ∧ s.taken.terminals = ys := by
  cases ha : s.ahead with
  | nil => simp [terminals, ha] at h
  | cons t ts =>
    simp only [terminals, ha, List.map_cons, List.cons.injEq] at h
    obtain ⟨rfl, rfl⟩ := h
    have hk : t.kind ≠ .eof := Supply.kind_ne_eof s.source t (by change t ∈ s.ahead; simp [ha])
    refine ⟨t, front_of_ahead ha, rfl, t.kind_terminal.symm, .taken (front_of_ahead ha) hk, ?_⟩
    simp [terminals, ahead_taken ha]

/-- The state knows what a context says, and has just these terminals ahead. -/
structure Faces (s : AnalysisState σ) (c : Context) (ys : List Terminal) : Prop where
  knows : s.Knows c
  readable : s.Readable
  terminals : s.terminals = ys

namespace Faces

variable {s : AnalysisState σ} {c : Context} {y : Terminal} {ys : List Terminal}

theorem looked (h : s.Faces c ys) : s.looked.Faces c ys :=
  ⟨h.knows.looked, (Takes.looked s).readable h.readable, ((Takes.looked s).terminals.symm.trans h.terminals :)⟩

theorem append (h : s.Faces c ys) (out : Section) (code : List Instruction) : (s.append out code).Faces c ys :=
  ⟨h.knows.append out code, by cases out <;> exact h.readable, by cases out <;> exact h.terminals⟩

/-- The token in front, of whatever kind. -/
theorem front (h : s.Faces c ys) : ∃ t, s.front = .ok t ∧ t.kind = frontKind ys := by
  obtain ⟨t, ht, hk⟩ := front_kind h.readable
  exact ⟨t, ht, by rw [hk, h.terminals]⟩

/-- The token in front, where there is one. -/
theorem front_cons (h : s.Faces c (y :: ys)) : ∃ t, s.front = .ok t ∧ t.terminal = y ∧ t.kind = y.kind ∧
    Takes s [y] s.taken ∧ s.taken.Faces c ys := by
  obtain ⟨t, hf, ht, hk, htake, hterminals⟩ := front_of_terminals h.terminals
  exact ⟨t, hf, ht, hk, htake, h.knows.taken, htake.readable h.readable, hterminals⟩

end Faces

/-- Between two states a tree was compiled: its terminals were taken, its code was appended to a stream, and the later state knows
what the context says. -/
structure After (out : Section) (s : AnalysisState σ) (ys : List Terminal) (code : List Instruction) (c : Context)
    (s' : AnalysisState σ) : Prop where
  knows : s'.Knows c
  takes : Takes s ys s'
  entry : s'.entry = (s.append out code).entry
  body : s'.body = (s.append out code).body
  loops : s'.loops = s.loops

namespace After

variable {out : Section} {s s1 s2 : AnalysisState σ} {ys zs : List Terminal} {code more : List Instruction} {c c1 c2 : Context}
variable {rest : List Terminal}

theorem trans (h : After out s ys code c1 s1) (h' : After out s1 zs more c2 s2) :
    After out s (ys ++ zs) (code ++ more) c2 s2 := by
  refine ⟨h'.knows, h.takes.trans h'.takes, ?_, ?_, h'.loops.trans h.loops⟩
  · rw [h'.entry, ← append_append]
    cases out <;> simp [append, h.entry]
  · rw [h'.body, ← append_append]
    cases out <;> simp [append, h.body]

theorem refl (h : s.Knows c) (out : Section) : After out s [] [] c s :=
  ⟨h, .of_source rfl, by rw [append_nil], by rw [append_nil], rfl⟩

theorem looked (h : s.Knows c) (out : Section) : After out s [] [] c s.looked :=
  ⟨h.looked, .looked s, by rw [append_nil]; rfl, by rw [append_nil]; rfl, rfl⟩

theorem taken (h : s.Knows c) (out : Section) {y : Terminal} (hy : Takes s [y] s.taken) : After out s [y] [] c s.taken :=
  ⟨h.taken, hy, by rw [append_nil]; rfl, by rw [append_nil]; rfl, rfl⟩

theorem append (h : s.Knows c) (out : Section) (code : List Instruction) : After out s [] code c (s.append out code) :=
  ⟨h.append out code, .of_source (by simp), rfl, rfl, by cases out <;> rfl⟩

/-- Nothing but the table, the pool and its maps has changed. -/
theorem of_knows (h : s1.Knows c) (hsource : s1.source = s.source) (hentry : s1.entry = s.entry) (hbody : s1.body = s.body)
    (hloops : s1.loops = s.loops) (out : Section) : After out s [] [] c s1 :=
  ⟨h, .of_source hsource, by rw [append_nil, hentry], by rw [append_nil, hbody], hloops⟩

theorem of_table (h : s.Knows c) {t : SymbolTable} {scopes : Scopes} (ht : t.Represents scopes)
    (hglobal : t.nextGlobal = s.table.nextGlobal) (hlocal : t.nextLocal = s.table.nextLocal) (out : Section) :
    After out s [] [] { c with scopes } { s with table := t } :=
  of_knows (s := s) (h.of_table ht hglobal hlocal) rfl rfl rfl rfl out

theorem terminals_eq (h : After out s ys code c s1) (hs : s.terminals = ys ++ rest) : s1.terminals = rest :=
  List.append_cancel_left (h.takes.terminals.symm.trans hs)

theorem faces (h : After out s ys code c1 s1) (hs : s.Faces c (ys ++ rest)) : s1.Faces c1 rest :=
  ⟨h.knows, h.takes.readable hs.readable, h.terminals_eq hs.terminals⟩

end After

end AnalysisState

namespace Analysis

open AnalysisState

variable {σ α β γ δ : Type}

/-- What a family of analyses comes to, by what a translation comes to: it fails where that fails, and where that gives something,
it gives something that goes with it. -/
def Follows (f : Nat → Analysis σ α) (s : AnalysisState σ) (r : Option (β × Context))
    (good : β → Context → α → AnalysisState σ → Prop) : Prop :=
  match r with
  | none => ∃ e, Ends f s (.error e)
  | some (b, c) => ∃ a s', Ends f s (.ok (a, s')) ∧ good b c a s'

namespace Follows

variable {f : Nat → Analysis σ α} {s : AnalysisState σ}
variable {good : β → Context → α → AnalysisState σ → Prop} {r : Option (β × Context)} {m : Analysis σ α} {s' : AnalysisState σ}
  {e : Failure} {b : β} {g : Nat → γ → Analysis σ α} {p : Prop} {k : β → Translation δ}

theorem bind {g : Nat → α → Analysis σ γ} {m : Translation β} {good' : δ → Context → γ → AnalysisState σ → Prop}
    (hf : Follows f s (m.run c) good)
    (hg : ∀ b c' a s', m.run c = some (b, c') → good b c' a s' → Follows (fun d => g d a) s' ((k b).run c') good') :
    Follows (fun d => f d >>= g d) s ((m >>= k).run c) good' := by
  rw [StateT.run_bind]
  cases hm : m.run c with
  | none =>
    rw [hm] at hf
    obtain ⟨e, he⟩ := hf
    exact ⟨e, .bind_of_error he⟩
  | some p =>
    rw [hm] at hf
    obtain ⟨a, s', ha, hgood⟩ := hf
    have hk := hg p.1 p.2 a s' hm hgood
    change Follows _ _ ((k p.1).run p.2) _
    cases hr : (k p.1).run p.2 with
    | none =>
      rw [hr] at hk
      obtain ⟨e, he⟩ := hk
      exact ⟨e, .bind_of_ok ha he⟩
    | some q =>
      rw [hr] at hk
      obtain ⟨a', s'', ha', hgood'⟩ := hk
      exact ⟨a', s'', .bind_of_ok ha ha', hgood'⟩

theorem imp {good' : β → Context → α → AnalysisState σ → Prop} (h : Follows f s r good)
    (himp : ∀ b c a s', good b c a s' → good' b c a s') :
    Follows f s r good' := by
  cases r with
  | none => exact h
  | some p =>
    obtain ⟨a, s', ha, hg⟩ := h
    exact ⟨a, s', ha, himp _ _ _ _ hg⟩

theorem of_error (h : m.run s = .error e) : Follows (fun _ => m) s none good := ⟨e, .of_run h⟩

theorem of_ok {a : α} (h : m.run s = .ok (a, s')) (hg : good b c a s') :
    Follows (fun _ => m) s (some (b, c)) good := ⟨a, s', .of_run h, hg⟩

/-- What a single analysis comes to where the translation fails. -/
theorem run_error (h : Follows (fun _ => m) s none good) : ∃ e, m.run s = .error e := by
  obtain ⟨e, d, hd⟩ := h
  exact ⟨e, hd d (Nat.le_refl d)⟩

/-- What a single analysis comes to where the translation gives something. -/
theorem run_ok (h : Follows (fun _ => m) s (some (b, c)) good) : ∃ a s', m.run s = .ok (a, s') ∧ good b c a s' := by
  obtain ⟨a, s', ⟨d, hd⟩, hgood⟩ := h
  exact ⟨a, s', hd d (Nat.le_refl d), hgood⟩

/-- A result of the translation that is only rearranged. -/
theorem map {m : Translation β} {k : β → δ} {good' : δ → Context → α → AnalysisState σ → Prop} (h : Follows f s (m.run c) good)
    (hgood : ∀ b c' a s', good b c' a s' → good' (k b) c' a s') : Follows f s ((do return k (← m)).run c) good' := by
  rw [StateT.run_bind]
  cases hm : m.run c with
  | none =>
    rw [hm] at h
    exact h
  | some p =>
    rw [hm] at h
    obtain ⟨a, s', ha, hg⟩ := h
    exact ⟨a, s', ha, hgood _ _ _ _ hg⟩

/-- An analysis that does from this state what another one does from another. -/
theorem of_run_eq {m' : Analysis σ α} (h : m.run s = m'.run s') (hg : Follows (fun _ => m') s' r good) :
    Follows (fun _ => m) s r good := by
  unfold Follows Ends at hg ⊢
  simpa only [h] using hg

/-- Steps of the analysis after those that the translation goes with. -/
theorem and_then {g : α → Analysis σ γ} {good' : β → Context → γ → AnalysisState σ → Prop} (h : Follows f s r good)
    (hg : ∀ b c a s', good b c a s' → ∃ a' s'', (g a).run s' = .ok (a', s'') ∧ good' b c a' s'') :
    Follows (fun d => f d >>= g) s r good' := by
  cases r with
  | none =>
    obtain ⟨e, he⟩ := h
    exact ⟨e, .bind_of_error he⟩
  | some p =>
    obtain ⟨a, s', ha, hgood⟩ := h
    obtain ⟨a', s'', hrun, hgood'⟩ := hg _ _ _ _ hgood
    exact ⟨a', s'', .bind_of_ok ha (.of_run hrun), hgood'⟩

/-- A step of the analysis that no step of the translation goes with. -/
theorem step {m : Analysis σ γ} {a : γ} (h : m.run s = .ok (a, s')) (hg : Follows (fun d => g d a) s' r good) :
    Follows (fun d => m >>= g d) s r good := by
  cases r with
  | none =>
    obtain ⟨e, he⟩ := hg
    exact ⟨e, .bind_of_ok (.of_run h) he⟩
  | some p =>
    obtain ⟨a', s'', ha, hgood⟩ := hg
    exact ⟨a', s'', .bind_of_ok (.of_run h) ha, hgood⟩

/-- A failing step of the analysis where the translation fails too. -/
theorem step_error {m : Analysis σ γ} (h : m.run s = .error e) :
    Follows (fun d => m >>= g d) s none good := ⟨e, .bind_of_error (.of_run h)⟩

/-- A step of the translation that no step of the analysis goes with. -/
theorem translate {m : Translation β} {c' : Context} {good : δ → Context → α → AnalysisState σ → Prop}
    (h : m.run c = some (b, c')) (hk : Follows f s ((k b).run c') good) : Follows f s ((m >>= k).run c) good := by
  rw [StateT.run_bind, h]
  exact hk

theorem ite_pos [Decidable p] {g : Nat → Analysis σ α} (hp : p) (h : Follows f s r good) :
    Follows (fun d => if p then f d else g d) s r good := by simpa only [if_pos hp]

theorem ite_neg [Decidable p] {g : Nat → Analysis σ α} (hp : ¬p) (h : Follows g s r good) :
    Follows (fun d => if p then f d else g d) s r good := by simpa only [if_neg hp]

/-- The same check on both sides, where the analysis fails if it does not hold. -/
theorem require {q : Prop} [Decidable p] [Decidable q] (hq : q ↔ ¬p) {m : Analysis σ γ} (he : m.run s = .error e)
    {k : Unit → Translation β} (h : p → Follows f s ((k ()).run c) good) :
    Follows (fun d => if q then m >>= g d else f d) s ((Translation.require p >>= k).run c) good := by
  rw [Translation.run_require_bind]
  by_cases hp : p
  · rw [if_pos hp]
    exact ite_neg (by simp [hq, hp]) (h hp)
  · rw [if_neg hp]
    exact ite_pos (hq.2 hp) (step_error he)

/-- A family whose members are the same from one on is at that one. -/
theorem at_depth {d : Nat} (h : Follows f s r good) (hd : ∀ d', d ≤ d' → (f d').run s = (f d).run s) :
    Follows (fun _ => f d) s r good := by
  have settle {x} (hx : Ends f s x) : (f d).run s = x := by
    obtain ⟨d', hd'⟩ := hx
    rw [← hd (max d d') (by omega), hd' (max d d') (by omega)]
  cases r with
  | none =>
    obtain ⟨e, he⟩ := h
    exact ⟨e, .of_run (settle he)⟩
  | some p =>
    obtain ⟨a, s', ha, hgood⟩ := h
    exact ⟨a, s', .of_run (settle ha), hgood⟩

/-- A family that from the second member on is like another one. -/
theorem of_succ {g : Nat → Analysis σ α} {r : Option (β × Context)} {good : β → Context → α → AnalysisState σ → Prop}
    (h : Follows f s r good) (hg : ∀ d, g (d + 1) = f d) : Follows g s r good := by
  cases r with
  | none =>
    obtain ⟨e, he⟩ := h
    exact ⟨e, he.of_succ fun d => by rw [hg]⟩
  | some p =>
    obtain ⟨a, s', ha, hgood⟩ := h
    exact ⟨a, s', ha.of_succ fun d => by rw [hg], hgood⟩

/-! The token in front is looked at or taken, where the terminals ahead are known. -/

variable [TokenSource σ] [Supply σ] {ys : List Terminal} {y : Terminal} {kind : TokenKind}

theorem peek {g : Nat → Token → Analysis σ α} (h : s.Faces c ys)
    (hg : ∀ t, t.kind = frontKind ys → Follows (fun d => g d t) s.looked r good) :
      Follows (fun d => Analysis.peek >>= g d) s r good := by
  obtain ⟨t, hf, hk⟩ := h.front
  exact step (run_peek_ok hf) (hg t hk)

theorem next {g : Nat → Token → Analysis σ α} (h : s.Faces c (y :: ys))
    (hg : ∀ t, t.terminal = y → t.kind = y.kind → s.taken.Faces c ys → (∀ out, After out s [y] [] c s.taken) →
      Follows (fun d => g d t) s.taken r good) : Follows (fun d => Analysis.next >>= g d) s r good := by
  obtain ⟨t, hf, ht, hk, htake, hs⟩ := h.front_cons
  exact step (run_next_ok hf) (hg t ht hk hs fun out => .taken h.knows out htake)

theorem expect {g : Nat → Token → Analysis σ α} (h : s.Faces c (y :: ys)) (hk : y.kind = kind)
    (hg : ∀ t, t.terminal = y → s.taken.Faces c ys → (∀ out, After out s [y] [] c s.taken) →
      Follows (fun d => g d t) s.taken r good) : Follows (fun d => Analysis.expect kind >>= g d) s r good := by
  obtain ⟨t, hf, ht, hk', htake, hs⟩ := h.front_cons
  exact step (run_expect_ok hf (hk'.trans hk)) (hg t ht hs fun out => .taken h.knows out htake)

theorem accept {g : Nat → Bool → Analysis σ α} (h : s.Faces c (y :: ys)) (hk : y.kind = kind)
    (hg : s.taken.Faces c ys → (∀ out, After out s [y] [] c s.taken) → Follows (fun d => g d true) s.taken r good) :
    Follows (fun d => Analysis.accept kind >>= g d) s r good := by
  obtain ⟨t, hf, -, hk', htake, hs⟩ := h.front_cons
  exact step (run_accept_true hf (hk'.trans hk)) (hg hs fun out => .taken h.knows out htake)

theorem refuse {g : Nat → Bool → Analysis σ α} (h : s.Faces c ys) (hk : frontKind ys ≠ kind)
    (hg : Follows (fun d => g d false) s.looked r good) : Follows (fun d => Analysis.accept kind >>= g d) s r good := by
  obtain ⟨t, hf, hk'⟩ := h.front
  exact step (run_accept_false hf (hk' ▸ hk)) hg

theorem typeName {type : TypeName} {g : Nat → Token × ValueType → Analysis σ α} (h : s.Faces c (.mark type.kind :: ys))
    (hg : ∀ t, s.taken.Faces c ys → (∀ out, After out s [.mark type.kind] [] c s.taken) →
      Follows (fun d => g d (t, type.type)) s.taken r good) : Follows (fun d => Analysis.typeName >>= g d) s r good := by
  obtain ⟨t, hf, -, hk, htake, hs⟩ := h.front_cons
  exact step (run_typeName_ok hf (by rw [hk]; exact type.ofKind?_kind)) (hg t hs fun out => .taken h.knows out htake)

end Follows

end Analysis

end OnePass

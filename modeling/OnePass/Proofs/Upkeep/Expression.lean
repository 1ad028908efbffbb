import OnePass.Proofs.Layout
import OnePass.Proofs.Parsing.Program
import OnePass.Proofs.ScopeStack

/-!
# An analysis keeps its own rules

None of the rules that an analysis relies on is ever broken, whatever the tokens are. They are kept as an invariant of its state
(`AnalysisState.Tidy`): the index of the symbol table leads to symbols, the pool is in step with the slots handed out, and the
code falls into functions. A part of the analysis also leaves the open scopes, the loops and the code before it in place
(`AnalysisState.Grows`), so that what was noted before it is good after it. Here are the parts up to expressions.
-/

namespace OnePass

variable {code : List Instruction} {i : Instruction} {place : Nat} {op : Operator} {fault : Fault}

/-- A failure that is put to the source or to the program in it. An operator that has lost an operand would be no fault of theirs.
Want of depth is ruled out elsewhere. -/
def Failure.IsFair (σ : Type) [TokenSource σ] : Failure → Prop
  | .diagnostic d => (∀ op, d.fault ≠ .missingOperand op) ∨ ∃ source : σ, (TokenSource.peek source).1 = .error d
  | .breach b => b = .tooDeep

/-- Every marker in the code has a header. -/
def Headed (code : List Instruction) : Prop := ∀ i ∈ code, i.op = .marker → i.header.isSome

namespace Headed

theorem of_unmarked (h : Unmarked code) : Headed code := fun i hi hop => absurd hop (h i hi)

theorem one (h : i.op = .marker → i.header.isSome) : Headed [i] := List.forall_mem_singleton.2 h

theorem append {more : List Instruction} (h : Headed code) (hmore : Headed more) : Headed (code ++ more) :=
  fun i hi => (List.mem_append.1 hi).elim (h i) (hmore i)

theorem take (h : Headed code) (n : Nat) : Headed (code.take n) := fun i hi => h i (List.mem_of_mem_take hi)

/-- A change to an instruction that keeps its header, or gives it one. -/
theorem modify (h : Headed code) (n : Nat) {f : Instruction → Instruction}
    (hf : ∀ i, (i.op = .marker → i.header.isSome) → (f i).op = .marker → (f i).header.isSome) : Headed (code.modify n f) := by
  intro i hi
  obtain ⟨k, hk, rfl⟩ := List.mem_iff_getElem.1 hi
  rw [List.getElem_modify]
  split
  · exact hf _ (h _ (List.getElem_mem _))
  · exact h _ (List.getElem_mem _)

/-- Code with headers falls into functions if it starts with a marker or goes on in a function. -/
theorem exists_splitFrom (h : Headed code) {table : Array Function} (hstart : table.size = 0 → ∀ i ∈ code.head?, i.op = .marker) :
    ∃ functions, splitFrom place table code = .ok functions := by
  induction code generalizing place table with
  | nil => exact ⟨table, rfl⟩
  | cons i rest ih =>
    have hrest : Headed rest := fun j hj => h j (List.mem_cons_of_mem _ hj)
    rw [splitFrom]
    by_cases hop : i.op = .marker
    · obtain ⟨header, hheader⟩ := Option.isSome_iff_exists.1 (h i List.mem_cons_self hop)
      rw [if_pos hop, hheader]
      exact ih hrest (by simp)
    · have hsize : table.size ≠ 0 := fun hzero => hop (hstart hzero i rfl)
      rw [if_neg hop, if_neg (by simpa [Array.isEmpty] using hsize)]
      exact ih hrest fun hzero => absurd (by simpa [appendToLast] using hzero) hsize

end Headed

/-! ## Pending operators -/

theorem Operator.fault_code {left right : ValueType} (h : op.code left right = .error fault) (op' : Operator) :
    fault ≠ .missingOperand op' := by
  cases op <;> cases left <;> cases right <;> cases h <;> nofun

namespace Pending

/-- There is one operand more than operators wait. -/
def Balanced (p : Pending) : Prop := p.types.length = p.ops.length + 1

namespace Balanced

variable {p : Pending}

theorem shift (h : p.Balanced) {pos : Pos} {type : ValueType} : (p.shift op pos type).Balanced :=
  congrArg (· + 1) h

theorem exists_getLast? (h : p.Balanced) : ∃ type, p.types.getLast? = some type := by
  rw [Balanced] at h
  rw [← Option.isSome_iff_exists, List.getLast?_isSome]
  exact List.ne_nil_of_length_pos (by omega)

/-- Operators that are due find their operands, and leave the stacks balanced. The others wait on, with those below them. -/
theorem applyWhile {p : Pending} (h : p.Balanced) (due : Operator → Bool) : match applyWhile due p.ops p.types with
    | .ok (p', code) => p'.Balanced ∧ Unmarked code ∧ p'.ops = p.ops.dropWhile (due ·.op)
    | .error d => ∀ op, d.fault ≠ .missingOperand op := by
  obtain ⟨ops, types⟩ := p
  induction ops generalizing types with
  | nil => exact ⟨h, .nil, rfl⟩
  | cons w ops ih =>
    simp only [Pending.applyWhile, List.dropWhile_cons]
    by_cases hdue : due w.op = true
    · obtain ⟨right, left, types, rfl⟩ : ∃ right left rest, types = right :: left :: rest := by
        rcases types with _ | ⟨right, _ | ⟨left, rest⟩⟩
        · simp [Balanced] at h
        · simp [Balanced] at h
        · exact ⟨right, left, rest, rfl⟩
      rw [if_pos hdue, apply, if_pos hdue]
      cases hcode : w.op.code left right with
      | error fault => exact fun op => Operator.fault_code hcode op
      | ok r =>
        obtain ⟨code, type⟩ := r
        have hrest := ih (type :: types) (Nat.succ.inj h)
        dsimp only at hrest ⊢
        cases hmore : Pending.applyWhile due ops (type :: types) with
        | error d =>
          rw [hmore] at hrest
          exact hrest
        | ok q =>
          rw [hmore] at hrest
          exact ⟨hrest.1, Unmarked.append.2 ⟨Operator.unmarked_code hcode, hrest.2.1⟩, hrest.2.2⟩
    · rw [if_neg hdue, if_neg hdue]
      exact ⟨h, .nil, rfl⟩

end Balanced

end Pending

/-! ## States -/

namespace AnalysisState

variable {σ : Type}

/-- The state is in order. -/
structure Tidy (s : AnalysisState σ) : Prop where
  linked : s.table.Linked
  /-- The pool has a global for each slot that has been handed out. -/
  pool : s.table.nextGlobal = s.pool.size
  /-- The entry routine starts with its marker. -/
  opened : ∃ header rest, s.entry.code.toList = .start header :: rest
  entry : Headed s.entry.code.toList
  body : Headed s.body.code.toList

/-- What was there before is still there. -/
structure Grows (s s' : AnalysisState σ) : Prop where
  body : s.body.code.toList <+: s'.body.code.toList
  loops : s'.loops = s.loops
  scopes : s'.table.scopes = s.table.scopes
  symbols : s.table.symbols.size ≤ s'.table.symbols.size

variable {s s' s'' : AnalysisState σ}

theorem Grows.refl (s : AnalysisState σ) : s.Grows s := ⟨List.prefix_rfl, rfl, rfl, Nat.le_refl _⟩

theorem Grows.trans (h : s.Grows s') (h' : s'.Grows s'') : s.Grows s'' :=
  ⟨h.body.trans h'.body, h'.loops.trans h.loops, h'.scopes.trans h.scopes, Nat.le_trans h.symbols h'.symbols⟩

theorem Tidy.append (h : s.Tidy) (out : Section) {code : List Instruction} (hcode : Headed code) : (s.append out code).Tidy := by
  cases out with
  | entry =>
    obtain ⟨header, rest, hopened⟩ := h.opened
    refine { h with opened := ⟨header, rest ++ code, ?_⟩, entry := ?_ }
    · simp [AnalysisState.append, Stream.toList_emitAll, hopened]
    · simpa only [AnalysisState.append, Stream.toList_emitAll] using h.entry.append hcode
  | body =>
    refine { h with body := ?_ }
    simpa only [AnalysisState.append, Stream.toList_emitAll] using h.body.append hcode

theorem grows_append (s : AnalysisState σ) (out : Section) (code : List Instruction) : s.Grows (s.append out code) := by
  cases out with
  | entry => exact ⟨List.prefix_rfl, rfl, rfl, Nat.le_refl _⟩
  | body => exact ⟨by simp [AnalysisState.append, Stream.toList_emitAll], rfl, rfl, Nat.le_refl _⟩

end AnalysisState

/-! ## Parts of an analysis -/

namespace Analysis

variable {σ α β : Type} [TokenSource σ]
variable {s : AnalysisState σ}

/-- The part leaves a result and a state of a kind, or it fails fairly. -/
def Leaves (m : Analysis σ α) (s : AnalysisState σ) (Q : α → AnalysisState σ → Prop) : Prop :=
  match m.run s with
  | .ok (a, s') => Q a s'
  | .error e => e.IsFair σ

namespace Leaves

variable {m : Analysis σ α} {f : α → Analysis σ β} {s s' : AnalysisState σ} {Q R : α → AnalysisState σ → Prop}
  {T : β → AnalysisState σ → Prop} {a : α}

theorem of_ok (hrun : m.run s = .ok (a, s')) (hQ : Q a s') : Leaves m s Q := by
  rw [Leaves, hrun]
  exact hQ

theorem of_error {e : Failure} (hrun : m.run s = .error e) (he : e.IsFair σ) : Leaves m s Q := by
  rw [Leaves, hrun]
  exact he

theorem bind (hm : Leaves m s Q) (hf : ∀ a s', Q a s' → Leaves (f a) s' T) : Leaves (m >>= f) s T := by
  rw [Leaves] at hm
  cases hrun : m.run s with
  | error e =>
    rw [hrun] at hm
    exact of_error (run_bind_of_error hrun) hm
  | ok p =>
    rw [hrun] at hm
    have hnext := hf p.1 p.2 hm
    rw [Leaves] at hnext ⊢
    rwa [run_bind_of_ok hrun]

/-- A part whose run is known, and then another. -/
theorem run_bind (hrun : m.run s = .ok (a, s')) (hf : Leaves (f a) s' T) : Leaves (m >>= f) s T := by
  rw [Leaves, run_bind_of_ok hrun]
  exact hf

theorem imp (hm : Leaves m s Q) (h : ∀ a s', Q a s' → R a s') : Leaves m s R := by
  rw [Leaves] at hm ⊢
  cases hrun : m.run s with
  | error e =>
    rw [hrun] at hm
    exact hm
  | ok p =>
    rw [hrun] at hm
    exact h _ _ hm

end Leaves

/-- The part keeps the state in order and gives a result of a kind, or it fails fairly. -/
def Upholds (m : Analysis σ α) (s : AnalysisState σ) (Q : α → AnalysisState σ → Prop) : Prop :=
  Leaves m s fun a s' => s'.Tidy ∧ s.Grows s' ∧ Q a s'

namespace Upholds

variable {m : Analysis σ α} {f : α → Analysis σ β} {s s' : AnalysisState σ} {Q R : α → AnalysisState σ → Prop}
  {T : β → AnalysisState σ → Prop} {a : α}

theorem of_ok (hrun : m.run s = .ok (a, s')) (htidy : s'.Tidy) (hgrows : s.Grows s') (hQ : Q a s') : Upholds m s Q :=
  Leaves.of_ok hrun ⟨htidy, hgrows, hQ⟩

theorem of_error {e : Failure} (hrun : m.run s = .error e) (he : e.IsFair σ) : Upholds m s Q := Leaves.of_error hrun he

theorem bind (hm : Upholds m s Q) (hf : ∀ a s', s'.Tidy → s.Grows s' → Q a s' → Upholds (f a) s' T) : Upholds (m >>= f) s T :=
  Leaves.bind hm fun a s' ⟨htidy, hgrows, hQ⟩ =>
    (hf a s' htidy hgrows hQ).imp fun _ _ ⟨htidy', hgrows', hT⟩ => ⟨htidy', hgrows.trans hgrows', hT⟩

theorem imp (hm : Upholds m s Q) (h : ∀ a s', s'.Tidy → s.Grows s' → Q a s' → R a s') : Upholds m s R :=
  Leaves.imp hm fun a s' ⟨htidy, hgrows, hQ⟩ => ⟨htidy, hgrows, h a s' htidy hgrows hQ⟩

theorem get_bind {f : AnalysisState σ → Analysis σ β} (h : Upholds (f s) s T) : Upholds (get >>= f) s T := h

theorem ite {c : Prop} [Decidable c] {n : Analysis σ α} (hm : c → Upholds m s Q) (hn : ¬ c → Upholds n s Q) :
    Upholds (if c then m else n) s Q := by
  split
  · exact hm ‹_›
  · exact hn ‹_›

theorem pure (h : s.Tidy) (hQ : Q a s) : Upholds (pure a) s Q := of_ok rfl h (.refl s) hQ

theorem fail (pos : Pos) (hfault : ∀ op, fault ≠ .missingOperand op) : Upholds (fail pos fault) s Q :=
  of_error rfl (.inl hfault)

theorem tooDeep : Upholds (breach .tooDeep) s Q := of_error rfl rfl

theorem emitAll (h : s.Tidy) (out : Section) (hcode : Headed code) :
    Upholds (emitAll out code) s fun _ s' => s' = s.append out code :=
  of_ok (run_emitAll out code s) (h.append out hcode) (s.grows_append out code) rfl

theorem emit (h : s.Tidy) (out : Section) (hi : i.op = .marker → i.header.isSome) :
    Upholds (emit out i) s fun _ s' => s' = s.append out [i] :=
  of_ok (run_emit out i s) (h.append out (.one hi)) (s.grows_append out [i]) rfl

end Upholds

/-- The part keeps any state in order, or it fails fairly. -/
def Upkeep (m : Analysis σ α) : Prop := ∀ s, s.Tidy → Upholds m s fun _ _ => True

namespace Upkeep

variable {m : Analysis σ α} {f : α → Analysis σ β}

theorem upholds (hm : Upkeep m) (hs : s.Tidy) : Upholds m s fun _ _ => True := hm s hs

theorem of_upholds {Q : AnalysisState σ → α → AnalysisState σ → Prop} (h : ∀ s, s.Tidy → Upholds m s (Q s)) : Upkeep m :=
  fun s hs => (h s hs).imp fun _ _ _ _ _ => trivial

theorem bind (hm : Upkeep m) (hf : ∀ a, Upkeep (f a)) : Upkeep (m >>= f) :=
  fun s hs => (hm s hs).bind fun a s' hs' _ _ => hf a s' hs'

theorem ite {c : Prop} [Decidable c] {n : Analysis σ α} (hm : Upkeep m) (hn : Upkeep n) : Upkeep (if c then m else n) :=
  fun s hs => .ite (fun _ => hm s hs) fun _ => hn s hs

theorem pure (a : α) : Upkeep (pure a : Analysis σ α) := fun _ hs => .pure hs trivial

theorem fail (pos : Pos) {fault : Fault} (hfault : ∀ op, fault ≠ .missingOperand op) : Upkeep (fail pos fault : Analysis σ α) :=
  fun _ _ => .fail pos hfault

theorem tooDeep : Upkeep (breach .tooDeep : Analysis σ α) := fun _ _ => .tooDeep

theorem emit (out : Section) {i : Instruction} (hi : i.op = .marker → i.header.isSome) : Upkeep (emit out i : Analysis σ Unit) :=
  of_upholds fun _ hs => .emit hs out hi

theorem emitAddress (out : Section) (symbol : Symbol) : Upkeep (emitAddress out symbol : Analysis σ Unit) := by
  unfold Analysis.emitAddress
  split
  · exact emit out nofun
  · exact emit out nofun
  · exact emit out nofun
  · exact pure ()

/-- A change of a symbol that keeps its name and its link. -/
theorem updateSymbol (place : Nat) {g : Symbol → Symbol} (hg : ∀ symbol, (g symbol).link = symbol.link) :
    Upkeep (updateSymbol place g : Analysis σ Unit) := by
  intro s hs
  refine .of_ok rfl { hs with linked := hs.linked.update hg place } ⟨List.prefix_rfl, rfl, rfl, ?_⟩ trivial
  simp [SymbolTable.update]

theorem markAssigned (place : Nat) : Upkeep (markAssigned place : Analysis σ Unit) := updateSymbol place fun _ => rfl

end Upkeep

/-! ## Tokens -/

theorem Upholds.peek (hs : s.Tidy) : Upholds peek s fun t s' => s' = s.looked ∧ s.front = .ok t := by
  cases h : s.front with
  | error d => exact .of_error (run_peek_error h) (.inr ⟨s.source, h⟩)
  | ok t => exact .of_ok (run_peek_ok h) { hs with } ⟨List.prefix_rfl, rfl, rfl, Nat.le_refl _⟩ ⟨rfl, rfl⟩

theorem Upkeep.peek : Upkeep (peek : Analysis σ Token) := .of_upholds fun _ hs => .peek hs

section Tokens

variable [Supply σ]

namespace Upkeep

theorem next : Upkeep (next : Analysis σ Token) := by
  intro s hs
  cases h : s.front with
  | error d => exact .of_error (run_next_error h) (.inr ⟨s.source, h⟩)
  | ok t => exact .of_ok (run_next_ok h) { hs with } ⟨List.prefix_rfl, rfl, rfl, Nat.le_refl _⟩ trivial

theorem expect (k : TokenKind) : Upkeep (expect k : Analysis σ Token) := next.bind fun _ => ite (pure _) (fail _ nofun)

theorem accept (k : TokenKind) : Upkeep (accept k : Analysis σ Bool) := peek.bind fun _ =>
    ite (next.bind fun _ => pure _) (pure _)

theorem typeName : Upkeep (typeName : Analysis σ (Token × ValueType)) := by
  refine next.bind fun token => ?_
  split
  · exact pure _
  · exact fail _ nofun

end Upkeep

end Tokens

/-! ## Globals and symbols -/

namespace Upholds

variable {s : AnalysisState σ}

theorem symbolAt (hs : s.Tidy) (hplace : place < s.table.symbols.size) : Upholds (symbolAt place) s fun _ s' => s' = s :=
  .of_ok (run_symbolAt (Array.getElem?_eq_getElem hplace)) hs (.refl s) rfl

theorem variablePlace (hs : s.Tidy) (name : Token) : Upholds (variablePlace name) s fun place s' =>
    place < s'.table.symbols.size := by
  refine .get_bind ?_
  split
  · exact .fail _ nofun
  · rename_i place hplace
    have hlt := hs.linked.lt_of_resolve hplace
    refine (symbolAt hs hlt).bind fun symbol s' hs' _ heq => .ite (fun _ => .fail _ nofun) fun _ => .pure hs' ?_
    rwa [heq]

/-- A slot that is handed out and goes to the pool at once. -/
theorem new_global (hs : s.Tidy) (g : Global) {f : Nat → Analysis σ α} {Q : α → AnalysisState σ → Prop}
    (hf : ∀ slot s', s'.Tidy → s.Grows s' → Upholds (f slot) s' Q) :
    Upholds (allocGlobal >>= fun slot => addGlobal slot g >>= fun _ => f slot) s Q := by
  have hnew : Upholds (allocGlobal >>= fun slot => addGlobal slot g >>= fun _ => Pure.pure slot) s fun _ _ => True := by
    have hrun : (allocGlobal >>= fun slot => addGlobal slot g >>= fun _ => Pure.pure slot).run s = .ok (s.table.nextGlobal,
        { s with table := { s.table with nextGlobal := s.table.nextGlobal + 1 }, pool := s.pool.push g }) := by
      refine (run_bind_of_ok (run_allocGlobal s)).trans (run_bind_of_ok (a := ()) ?_)
      exact run_addGlobal (s := { s with table := { s.table with nextGlobal := s.table.nextGlobal + 1 } }) hs.pool g
    refine .of_ok hrun ?_ ⟨List.prefix_rfl, rfl, rfl, Nat.le_refl _⟩ trivial
    exact { hs with linked := hs.linked.of_eq rfl rfl, pool := by simp [hs.pool] }
  have := hnew.bind (f := f) fun slot s' hs' hgrows _ => hf slot s' hs' hgrows
  simpa [bind_assoc] using this

end Upholds

namespace Upkeep

theorem literalSlot (text : Bytes) : Upkeep (literalSlot text : Analysis σ Nat) := by
  intro s hs
  refine .get_bind ?_
  split
  · exact .pure hs trivial
  · exact .new_global hs _ fun slot s' hs' _ => .of_ok rfl { hs' with } ⟨List.prefix_rfl, rfl, rfl, Nat.le_refl _⟩ trivial

theorem nativeSlot (name : Bytes) : Upkeep (nativeSlot name : Analysis σ Nat) := by
  intro s hs
  refine .get_bind ?_
  split
  · exact .pure hs trivial
  · exact .new_global hs _ fun slot s' hs' _ => .of_ok rfl { hs' with } ⟨List.prefix_rfl, rfl, rfl, Nat.le_refl _⟩ trivial

end Upkeep

/-! ## Expressions -/

namespace Upholds

variable {s : AnalysisState σ}

theorem callee (hs : s.Tidy) (name : Token) : Upholds (callee name) s fun c _ => c.op ≠ .marker := by
  refine .get_bind ?_
  split
  · rename_i place hplace
    refine (symbolAt hs (hs.linked.lt_of_resolve hplace)).bind fun symbol s' hs' _ _ => ?_
    exact .ite (fun _ => .pure hs' (by simp)) fun _ => .fail _ (by simp)
  · split
    · exact (Upkeep.nativeSlot _ s hs).bind fun _ s' hs' _ _ => .pure hs' (by simp)
    · exact .fail _ (by simp)

theorem makeWay (out : Section) {p : Pending} (hp : p.Balanced) (op : Operator) (hs : s.Tidy) :
    Upholds (makeWay out p op) s fun p' _ => p'.Balanced := by
  have happly := hp.applyWhile fun op' => op'.yieldsTo op
  rw [Analysis.makeWay, Pending.makeWayFor]
  cases hresult : Pending.applyWhile (fun op' => op'.yieldsTo op) p.ops p.types with
  | error d =>
    rw [hresult] at happly
    exact .of_error (run_bind_of_error (run_orFail_error d s)) (.inl happly)
  | ok r =>
    rw [hresult] at happly
    exact (emitAll hs out (.of_unmarked happly.2.1)).bind fun _ s' hs' _ _ => .pure hs' happly.1

end Upholds

theorem Upkeep.conclude (out : Section) {p : Pending} (hp : p.Balanced) : Upkeep (conclude out p : Analysis σ ValueType) := by
  intro s hs
  have happly := hp.applyWhile fun _ => true
  rw [Analysis.conclude, Pending.finish]
  cases hresult : Pending.applyWhile (fun _ => true) p.ops p.types with
  | error d =>
    rw [hresult] at happly
    exact .of_error (run_bind_of_error (run_orFail_error d s)) (.inl happly)
  | ok r =>
    rw [hresult] at happly
    obtain ⟨type, htype⟩ := happly.1.exists_getLast?
    refine Leaves.run_bind (run_orFail_ok r s) ?_
    refine (Upholds.emitAll hs out (.of_unmarked happly.2.1)).bind fun _ s' hs' _ _ => ?_
    rw [htype]
    exact .pure hs' trivial

namespace Upkeep

variable {value : Analysis σ ValueType}

theorem load (out : Section) (name : Token) : Upkeep (load out name : Analysis σ ValueType) := by
  intro s hs
  refine (Upholds.variablePlace hs name).bind fun place s1 hs1 _ hplace => ?_
  refine (Upholds.symbolAt hs1 hplace).bind fun symbol s2 hs2 _ _ => ?_
  exact upholds (ite ((emitAddress out symbol).bind fun _ => (emit out (by nofun)).bind fun _ => pure _) (fail _ (by nofun))) hs2

theorem checkArgument (pos : Pos) (name : Token) (params : List ValueType) (count : Nat) (type : ValueType) :
    Upkeep (checkArgument pos name params count type : Analysis σ Unit) := by
  unfold Analysis.checkArgument
  split
  · exact ite (pure _) (fail _ (by nofun))
  · exact pure _

theorem endCall (out : Section) (name : Token) {c : Callee} (hc : c.op ≠ .marker) (count : Nat) :
    Upkeep (endCall out name c count : Analysis σ ValueType) :=
  ite (fail _ (by nofun)) ((emit out fun h => absurd h hc).bind fun _ => pure _)

theorem negate (out : Section) (minus : Token) (type : ValueType) : Upkeep (negate out minus type : Analysis σ ValueType) := by
  unfold Analysis.negate
  split
  · exact (emit out (by nofun)).bind fun _ => pure _
  · exact (emit out (by nofun)).bind fun _ => pure _
  · exact fail _ (by nofun)

theorem assignment (out : Section) (name : Token) (hvalue : Upkeep value) : Upkeep (assignment out name value) := by
  intro s hs
  refine (Upholds.variablePlace hs name).bind fun place s1 hs1 _ hplace => ?_
  refine (Upholds.symbolAt hs1 hplace).bind fun symbol s2 hs2 _ _ => ?_
  refine upholds (ite (fail _ (by nofun)) ?_) hs2
  exact (emitAddress out symbol).bind fun _ => peek.bind fun _ => hvalue.bind fun _ =>
    ite (fail _ (by nofun)) ((emit out (by nofun)).bind fun _ => (markAssigned place).bind fun _ => pure _)

section Expressions

variable [Supply σ]

theorem call (out : Section) (name : Token) {arguments : List ValueType → Analysis σ Nat}
    (harguments : ∀ params, Upkeep (arguments params)) :
    Upkeep (call out name arguments) := by
  intro s hs
  refine (Upholds.callee hs name).bind fun c s1 hs1 _ hc => ?_
  refine upholds ((emit out (by nofun)).bind fun _ => (expect _).bind fun _ => (accept _).bind fun _ => ?_) hs1
  exact ite (endCall out name hc 0) ((harguments _).bind fun count => endCall out name hc count)

theorem operandWith (out : Section) {inner : Analysis σ ValueType} {arguments : Token → List ValueType → Analysis σ Nat}
    (hvalue : Upkeep value) (hinner : Upkeep inner) (harguments : ∀ name params, Upkeep (arguments name params)) :
    Upkeep (operandWith out value inner arguments) := by
  refine next.bind fun token => ?_
  unfold operandFrom
  cases token.kind
  case uintLit => exact (emit out (by nofun)).bind fun _ => pure _
  case doubleLit => exact (emit out (by nofun)).bind fun _ => pure _
  case stringLit => exact (literalSlot _).bind fun _ => (emit out (by nofun)).bind fun _ => pure _
  case charLit => exact (literalSlot _).bind fun _ => (emit out (by nofun)).bind fun _ => pure _
  case lparen => exact hvalue.bind fun _ => (expect _).bind fun _ => pure _
  case minus => exact hinner.bind fun _ => negate out token _
  case identifier =>
    refine peek.bind fun following => ?_
    cases following.kind
    case assign => exact next.bind fun _ => assignment out token hvalue
    case lparen => exact call out token (harguments token)
    all_goals exact load out token
  all_goals exact fail _ (by nofun)

theorem argumentWith (name : Token) {more : Analysis σ Nat} (count : Nat) (params : List ValueType) (hvalue : Upkeep value)
    (hmore : Upkeep more) : Upkeep (argumentWith name value more count params) :=
  peek.bind fun _ => hvalue.bind fun _ => (checkArgument _ name params count _).bind fun _ => (accept _).bind fun _ =>
    ite hmore ((expect _).bind fun _ => pure _)

/-- The four parts of an expression. -/
theorem parts (out : Section) : ∀ d,
    Upkeep (expression out d : Analysis σ ValueType) ∧
    (∀ p : Pending, p.Balanced → Upkeep (operators out d p : Analysis σ ValueType)) ∧
    Upkeep (operand out d : Analysis σ ValueType) ∧
    (∀ name count params, Upkeep (arguments out name d count params : Analysis σ Nat))
  | 0 => ⟨tooDeep, fun _ _ => tooDeep, tooDeep, fun _ _ _ => tooDeep⟩
  | d + 1 => by
    obtain ⟨hexpression, hoperators, hoperand, harguments⟩ := parts out d
    refine ⟨hoperand.bind fun _ => hoperators _ rfl, fun p hp => ?_, operandWith out hexpression hoperand fun _ _ =>
      harguments _ _ _, fun name count params => argumentWith name count params hexpression (harguments _ _ _)⟩
    refine peek.bind fun token => ?_
    split
    · exact conclude out hp
    · rename_i op _
      intro s hs
      refine (Upholds.makeWay out hp op hs).bind fun pending s1 hs1 _ hpending => ?_
      have hmore (type : ValueType) : Upkeep (Analysis.operators out d
        (pending.shift op token.pos type) : Analysis σ ValueType) :=
        hoperators _ hpending.shift
      exact upholds (next.bind fun _ => ite (bind (typeName.bind fun _ => pure _) hmore) (hoperand.bind hmore)) hs1

theorem expression (out : Section) (d : Nat) : Upkeep (expression out d : Analysis σ ValueType) := (parts out d).1

end Expressions

end Upkeep

end Analysis

end OnePass

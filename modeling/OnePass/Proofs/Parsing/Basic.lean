import OnePass.Proofs.Grammar
import OnePass.Proofs.Steps

/-!
# Tokens that are taken

An analysis builds no tree, but where a part of it succeeds, the tokens that it has taken are known: they are terminals of a kind
(`Parses`). In the same breath it is said that the part does not run out of depth, if it has enough of it.
-/

namespace OnePass

variable {t : Token}

namespace AnalysisState

variable {σ : Type} [TokenSource σ] [Supply σ]

/-- The terminals ahead. -/
def terminals (s : AnalysisState σ) : List Terminal := s.ahead.map Token.terminal

/-- Between two states just these terminals were taken. -/
structure Takes (s : AnalysisState σ) (ys : List Terminal) (s' : AnalysisState σ) : Prop where
  terminals : s.terminals = ys ++ s'.terminals
  stop : Supply.stop s'.source = Supply.stop s.source
  /-- The tokens of these terminals were taken, and no end token. -/
  passes : ∃ ts, ts.map Token.terminal = ys ∧ (∀ t ∈ ts, t.kind ≠ .eof) ∧ Passes s.source ts s'.source

namespace Takes

variable {s s' : AnalysisState σ}

theorem of_source (h : s'.source = s.source) : Takes s [] s' :=
  ⟨by simp only [AnalysisState.terminals, ahead, h, List.nil_append], by rw [h], [], rfl, nofun, h ▸ .refl⟩

theorem trans {s s1 s2 : AnalysisState σ} {ys zs : List Terminal} (h : Takes s ys s1) (h' : Takes s1 zs s2) :
    Takes s (ys ++ zs) s2 := by
  obtain ⟨ts, rfl, hts, hpass⟩ := h.passes
  obtain ⟨us, rfl, hus, hpass'⟩ := h'.passes
  exact ⟨by rw [h.terminals, h'.terminals, List.append_assoc], h'.stop.trans h.stop, ts ++ us, List.map_append,
    List.forall_mem_append.2 ⟨hts, hus⟩, hpass.trans hpass'⟩

theorem looked (s : AnalysisState σ) : Takes s [] s.looked :=
  ⟨by simp [AnalysisState.terminals], Supply.stop_peek s.source, [], rfl, nofun, Passes.refl.peek⟩

theorem taken (h : s.front = .ok t) (hk : t.kind ≠ .eof) : Takes s [t.terminal] s.taken := by
  obtain ⟨ts, hts⟩ := ahead_of_front h hk
  have hnext : (TokenSource.next s.source).1 = .ok t := by rw [Supply.next_fst, ← Supply.peek_fst]; exact h
  exact ⟨by simp [AnalysisState.terminals, hts, ahead_taken hts], Supply.stop_next s.source t ts hts, [t], rfl, by simpa using hk,
    Passes.refl.next hnext⟩

theorem length_eq {ys : List Terminal} (h : Takes s ys s') : s.ahead.length = ys.length + s'.ahead.length := by
  have := congrArg List.length h.terminals
  simpa [AnalysisState.terminals] using this

end Takes

end AnalysisState

namespace Analysis

open AnalysisState

variable {σ α β : Type}
variable {s s' : AnalysisState σ} {m n : Analysis σ α} {a : α}

/-! ## Parts that leave the tokens alone -/

/-- The part takes no token, and does not run out of depth. -/
def Still (m : Analysis σ α) : Prop :=
  ∀ s, match m.run s with
    | .ok (_, s') => s'.source = s.source
    | .error e => e ≠ .breach .tooDeep

namespace Still

theorem pure (a : α) : Still (pure a : Analysis σ α) := fun _ => rfl

theorem fail (pos : Pos) (fault : Fault) : Still (fail pos fault : Analysis σ α) := fun _ => by simp

theorem breach {b : Breach} (h : b ≠ .tooDeep) : Still (breach b : Analysis σ α) := fun _ => by simpa using h

theorem orFail (r : Except Diagnostic α) : Still (orFail r : Analysis σ α) := by
  intro s
  cases r <;> simp

theorem modify {g : AnalysisState σ → AnalysisState σ} (h : ∀ s, (g s).source = s.source) : Still (modify g : Analysis σ _) := h

theorem modifyGet {g : AnalysisState σ → α × AnalysisState σ} (h : ∀ s, (g s).2.source = s.source) :
    Still (modifyGet g : Analysis σ α) := h

theorem bind {f : α → Analysis σ β} (hm : Still m) (hf : ∀ a, Still (f a)) : Still (m >>= f) := by
  intro s
  have h := hm s
  cases hr : m.run s with
  | error e =>
    rw [hr] at h
    rwa [run_bind_of_error hr]
  | ok p =>
    rw [hr] at h
    have h' := hf p.1 p.2
    rw [run_bind_of_ok hr]
    cases hq : (f p.1).run p.2 with
    | error e => rwa [hq] at h'
    | ok q =>
      rw [hq] at h'
      exact h'.trans h

theorem get_bind {f : AnalysisState σ → Analysis σ β} (hf : ∀ a, Still (f a)) : Still (get >>= f) := fun s => hf s s

theorem ite {c : Prop} [Decidable c] (hm : Still m) (hn : Still n) : Still (if c then m else n) := by
  split
  · exact hm
  · exact hn

theorem emit (out : Section) (i : Instruction) : Still (emit out i : Analysis σ Unit) := fun s => by simp

theorem emitAll (out : Section) (c : List Instruction) : Still (emitAll out c : Analysis σ Unit) := fun s => by simp

theorem emitAddress (out : Section) (symbol : Symbol) : Still (emitAddress out symbol : Analysis σ Unit) := by
  unfold Analysis.emitAddress
  split
  · exact emit _ _
  · exact emit _ _
  · exact emit _ _
  · exact pure _

theorem symbolAt (place : Nat) : Still (symbolAt place : Analysis σ Symbol) := by
  refine get_bind fun s => ?_
  split
  · exact pure _
  · exact breach (by decide)

theorem variablePlace (name : Token) : Still (variablePlace name : Analysis σ Nat) := by
  refine get_bind fun s => ?_
  split
  · exact fail _ _
  · exact bind (symbolAt _) fun _ => ite (fail _ _) (pure _)

theorem markAssigned (place : Nat) : Still (markAssigned place : Analysis σ Unit) := modify fun _ => rfl

theorem addGlobal (slot : Nat) (g : Global) : Still (addGlobal slot g : Analysis σ Unit) :=
  get_bind fun _ => ite (modify fun _ => rfl) (breach (by decide))

theorem literalSlot (text : Bytes) : Still (literalSlot text : Analysis σ Nat) := by
  refine get_bind fun s => ?_
  split
  · exact pure _
  · exact bind (modifyGet fun _ => rfl) fun _ => bind (addGlobal _ _) fun _ => bind (modify fun _ => rfl) fun _ => pure _

theorem nativeSlot (name : Bytes) : Still (nativeSlot name : Analysis σ Nat) := by
  refine get_bind fun s => ?_
  split
  · exact pure _
  · exact bind (modifyGet fun _ => rfl) fun _ => bind (addGlobal _ _) fun _ => bind (modify fun _ => rfl) fun _ => pure _

theorem callee (name : Token) : Still (callee name : Analysis σ Callee) := by
  refine get_bind fun s => ?_
  split
  · exact bind (symbolAt _) fun _ => ite (pure _) (fail _ _)
  · split
    · exact bind (nativeSlot _) fun _ => pure _
    · exact fail _ _

theorem checkArgument (pos : Pos) (name : Token) (params : List ValueType) (count : Nat) (type : ValueType) :
    Still (checkArgument pos name params count type : Analysis σ Unit) := by
  unfold Analysis.checkArgument
  split
  · exact ite (pure _) (fail _ _)
  · exact pure _

theorem endCall (out : Section) (name : Token) (c : Callee) (count : Nat) :
    Still (endCall out name c count : Analysis σ ValueType) :=
  ite (fail _ _) (bind (emit _ _) fun _ => pure _)

theorem load (out : Section) (name : Token) : Still (load out name : Analysis σ ValueType) :=
  bind (variablePlace _) fun _ => bind (symbolAt _) fun _ =>
    ite (bind (emitAddress _ _) fun _ => bind (emit _ _) fun _ => pure _) (fail _ _)

theorem negate (out : Section) (minus : Token) (type : ValueType) : Still (negate out minus type : Analysis σ ValueType) := by
  unfold Analysis.negate
  split
  · exact bind (emit _ _) fun _ => pure _
  · exact bind (emit _ _) fun _ => pure _
  · exact fail _ _

theorem makeWay (out : Section) (pending : Pending) (op : Operator) : Still (makeWay out pending op : Analysis σ Pending) :=
  bind (orFail _) fun _ => bind (emitAll _ _) fun _ => pure _

theorem conclude (out : Section) (pending : Pending) : Still (conclude out pending : Analysis σ ValueType) := by
  refine bind (orFail _) fun _ => bind (emitAll _ _) fun _ => ?_
  split
  · exact pure _
  · exact breach (by decide)

end Still

/-! ## Parts that take tokens -/

variable [TokenSource σ] [Supply σ]

/-- Where the part succeeds, it has taken terminals of a kind. If it has the depth, it does not run out of it. -/
def Parses (deep : Prop) (m : Analysis σ α) (s : AnalysisState σ) (Q : α → List Terminal → AnalysisState σ → Prop) : Prop :=
  match m.run s with
  | .ok (a, s') => ∃ ys, Takes s ys s' ∧ Q a ys s'
  | .error e => deep → e ≠ .breach .tooDeep

namespace Parses

variable {deep : Prop} {f : α → Analysis σ β} {ys : List Terminal} {kind : TokenKind}
  {Q : α → List Terminal → AnalysisState σ → Prop} {R : β → List Terminal → AnalysisState σ → Prop}

theorem exists_takes (h : Parses deep m s Q) (hrun : m.run s = .ok (a, s')) : ∃ ys, Takes s ys s' ∧ Q a ys s' := by
  rwa [Parses, hrun] at h

theorem ne_tooDeep (h : Parses deep m s Q) (hdeep : deep) : m.run s ≠ .error (.breach .tooDeep) := by
  intro hrun
  rw [Parses, hrun] at h
  exact h hdeep rfl

theorem of_diagnostic {d : Diagnostic} (hrun : m.run s = .error (.diagnostic d)) : Parses deep m s Q := by
  rw [Parses, hrun]
  exact fun _ => nofun

theorem of_still (hm : Still m) (h : ∀ a s', s'.source = s.source → Q a [] s') : Parses deep m s Q := by
  have hs := hm s
  rw [Parses]
  split <;> rename_i hrun <;> rw [hrun] at hs
  · exact ⟨[], .of_source hs, h _ _ hs⟩
  · exact fun _ => hs

theorem pure (h : Q a [] s) : Parses deep (pure a) s Q := ⟨[], .of_source rfl, h⟩

theorem imp {Q' : α → List Terminal → AnalysisState σ → Prop} (hm : Parses deep m s Q) (h : ∀ a ys s', Q a ys s' → Q' a ys s') :
    Parses deep m s Q' := by
  rw [Parses] at hm ⊢
  split <;> rename_i hrun <;> rw [hrun] at hm
  · obtain ⟨ys, htakes, hQ⟩ := hm
    exact ⟨ys, htakes, h _ _ _ hQ⟩
  · exact hm

theorem fail (pos : Pos) (fault : Fault) : Parses deep (fail pos fault : Analysis σ α) s Q := fun _ => nofun

theorem tooDeep (h : ¬deep) : Parses deep (breach .tooDeep : Analysis σ α) s Q := fun hdeep => absurd hdeep h

theorem ite {p : Prop} [Decidable p] (hm : p → Parses deep m s Q) (hn : ¬p → Parses deep n s Q) :
    Parses deep (if p then m else n) s Q := by
  split
  · exact hm ‹_›
  · exact hn ‹_›

/-- A part whose run is known, and then another. -/
theorem run_bind (hrun : m.run s = .ok (a, s')) (htakes : Takes s ys s') (hf : Parses deep (f a) s' fun b zs => R b (ys ++ zs)) :
    Parses deep (m >>= f) s R := by
  rw [Parses] at hf ⊢
  rw [run_bind_of_ok hrun]
  split <;> rename_i hlast <;> rw [hlast] at hf
  · obtain ⟨zs, hzs, hR⟩ := hf
    exact ⟨ys ++ zs, htakes.trans hzs, hR⟩
  · exact hf

theorem bind (hm : Parses deep m s Q) (hf : ∀ a ys s', Q a ys s' → s'.ahead.length + ys.length = s.ahead.length →
    Parses deep (f a) s' fun b zs => R b (ys ++ zs)) : Parses deep (m >>= f) s R := by
  cases hrun : m.run s with
  | error e =>
    rw [Parses, run_bind_of_error hrun]
    rwa [Parses, hrun] at hm
  | ok r =>
    obtain ⟨ys, htakes, hQ⟩ := hm.exists_takes hrun
    exact run_bind hrun htakes (hf _ ys _ hQ (by rw [htakes.length_eq, Nat.add_comm]))

/-- A part that leaves the tokens alone, and then another. -/
theorem still_bind (hm : Still m) (hf : ∀ a s', s'.source = s.source → s'.ahead.length = s.ahead.length →
    Parses deep (f a) s' R) :
    Parses deep (m >>= f) s R := by
  refine bind (Q := fun _ ys s' => ys = [] ∧ s'.source = s.source) (of_still hm fun _ _ h => ⟨rfl, h⟩) ?_
  rintro a _ s' ⟨rfl, hsource⟩ h
  exact hf a s' hsource h

/-- A look at the next token. -/
theorem looked_bind {f : Token → Analysis σ β} (hf : ∀ t, s.front = .ok t → Parses deep (f t) s.looked R) :
    Parses deep (peek >>= f) s R := by
  cases h : s.front with
  | error d => exact of_diagnostic (run_bind_of_error (run_peek_error h))
  | ok t => exact run_bind (run_peek_ok h) (.looked s) (hf t h)

theorem peek_bind {f : Token → Analysis σ β}
    (hf : ∀ t s', s'.front = .ok t → s'.ahead.length = s.ahead.length → Parses deep (f t) s' R) : Parses deep (peek >>= f) s R :=
  looked_bind fun t ht => hf t _ (s.front_looked.trans ht) (by simp)

/-- The token in front is taken. -/
theorem next_bind {f : Token → Analysis σ β} (ht : s.front = .ok t) (hk : t.kind ≠ .eof)
    (hf : ∀ s', s'.ahead.length + 1 = s.ahead.length → Parses deep (f t) s' fun b zs => R b (t.terminal :: zs)) :
    Parses deep (next >>= f) s R :=
  run_bind (run_next_ok ht) (.taken ht hk) (hf _ (by rw [(Takes.taken ht hk).length_eq, Nat.add_comm]; rfl))

/-- A token is taken, on which the rest fails if it is the end token. -/
theorem any_bind {f : Token → Analysis σ β} (heof : ∀ t, t.kind = .eof → ∃ pos fault, f t = Analysis.fail pos fault)
    (hf : ∀ t s', s'.ahead.length + 1 = s.ahead.length → Parses deep (f t) s' fun b zs => R b (t.terminal :: zs)) :
    Parses deep (next >>= f) s R := by
  cases h : s.front with
  | error d => exact of_diagnostic (run_bind_of_error (run_next_error h))
  | ok t =>
    by_cases hk : t.kind = .eof
    · obtain ⟨pos, fault, hft⟩ := heof t hk
      refine of_diagnostic (d := ⟨pos, fault⟩) ?_
      rw [run_bind_of_ok (run_next_ok h), hft]
      rfl
    · exact next_bind h hk (hf t)

theorem of_expect (hk : kind ≠ .eof) : Parses deep (expect kind) s fun t ys _ => t.kind = kind ∧ ys = [t.terminal] :=
  any_bind (fun _ ht => ⟨_, _, if_neg fun h => hk (h.symm.trans ht)⟩) fun _ _ _ => ite (fun h => pure ⟨h, rfl⟩) fun _ => fail _ _

/-- A mark that has to come next. -/
theorem mark_bind {f : Token → Analysis σ β} (hf : ∀ t s', s'.ahead.length + 1 = s.ahead.length →
      Parses deep (f t) s' fun b zs => R b (.mark kind :: zs))
    (hmark : ∀ t : Token, t.kind = kind → t.terminal = .mark kind := by simp +contextual [Token.terminal])
    (hk : kind ≠ .eof := by decide) : Parses deep (expect kind >>= f) s R := by
  refine bind (of_expect hk) ?_
  rintro t _ s' ⟨hkind, rfl⟩ h
  rw [hmark t hkind]
  exact hf t s' h

/-- A name that has to come next. -/
theorem name_bind {f : Token → Analysis σ β} (hf : ∀ t s', s'.ahead.length + 1 = s.ahead.length →
    Parses deep (f t) s' fun b zs => R b (.name t.lexeme :: zs)) : Parses deep (expect .identifier >>= f) s R := by
  refine bind (of_expect (by decide)) ?_
  rintro t _ s' ⟨hkind, rfl⟩ h
  rw [Token.terminal, hkind]
  exact hf t s' h

theorem typeName_bind {f : Token × ValueType → Analysis σ β} (hf : ∀ t (n : TypeName) s', s'.ahead.length + 1 = s.ahead.length →
    Parses deep (f (t, n.type)) s' fun b zs => R b (.mark n.kind :: zs)) : Parses deep (typeName >>= f) s R := by
  refine bind (Q := fun r ys _ => ∃ n : TypeName, n.type = r.2 ∧ ys = [.mark n.kind])
    (any_bind (fun t ht => ?_) fun t s' _ => ?_) ?_
  · rw [ht]
    exact ⟨_, _, rfl⟩
  · split
    · obtain ⟨n, hn, hτ⟩ := TypeName.exists_of_ofKind? ‹_›
      refine pure ⟨n, hτ, ?_⟩
      unfold Token.terminal
      cases n <;> rw [← hn] <;> rfl
    · exact fail _ _
  · rintro ⟨t, _⟩ _ s' ⟨n, rfl, rfl⟩ h
    exact hf t n s' h

/-- A mark that may come next. -/
theorem accept_bind {f : Bool → Analysis σ β} (ht : ∀ s', s'.ahead.length + 1 = s.ahead.length →
      Parses deep (f true) s' fun b zs => R b (.mark kind :: zs))
    (hf : ∀ s', s'.ahead.length = s.ahead.length → Parses deep (f false) s' R)
    (hmark : ∀ t : Token, t.kind = kind → t.terminal = .mark kind := by simp +contextual [Token.terminal])
    (hk : kind ≠ .eof := by decide) : Parses deep (accept kind >>= f) s R := by
  cases h : s.front with
  | error d => exact of_diagnostic (run_bind_of_error (run_accept_error h))
  | ok t =>
    by_cases htk : t.kind = kind
    · have htakes := Takes.taken h (htk ▸ hk)
      rw [hmark t htk] at htakes
      exact run_bind (run_accept_true h htk) htakes (ht _ (by rw [htakes.length_eq, Nat.add_comm]; rfl))
    · exact run_bind (run_accept_false h htk) (.looked s) (hf _ (by simp))

/-! ## Operands -/

variable {value inner : Analysis σ ValueType} {V I A P : List Terminal → AnalysisState σ → Prop}

theorem assignment (out : Section) (name : Token) (hv : ∀ s', s'.ahead.length = s.ahead.length → Parses deep value s' fun _ => V)
    (hP : ∀ ys s' s'', s''.source = s'.source → V ys s' → P ys s'') : Parses deep (assignment out name value) s fun _ => P := by
  refine still_bind (.variablePlace name) fun place s1 _ h1 => still_bind (.symbolAt place) fun symbol s2 _ h2 => ?_
  refine ite (fun _ => fail _ _) fun _ => still_bind (.emitAddress out symbol) fun _ s3 _ h3 => peek_bind fun first s4 _ h4 => ?_
  refine bind (hv s4 (by omega)) fun type ys s5 hV _ => of_still (.ite (.fail _ _) (.bind (.emit out _) fun _ =>
    .bind (.markAssigned place) fun _ => .pure _)) fun _ s6 hsource => ?_
  rw [List.append_nil]
  exact hP ys s5 s6 hsource hV

theorem call (out : Section) (name : Token) {arguments : List ValueType → Analysis σ Nat}
    (ha : ∀ params s', s'.ahead.length ≤ s.ahead.length → Parses deep (arguments params) s' fun _ => A)
    (hnone : ∀ s', P [.mark .lparen, .mark .rparen] s') (hsome : ∀ ys s' s'', A ys s' → P (.mark .lparen :: ys) s'') :
    Parses deep (call out name arguments) s fun _ => P := by
  refine still_bind (.callee name) fun c s1 _ h1 => still_bind (.emit out _) fun _ s2 _ h2 => mark_bind fun _ s3 h3 => ?_
  refine accept_bind (fun s4 _ => of_still (.endCall out name c 0) fun _ s5 _ => hnone s5) fun s4 h4 => ?_
  refine bind (ha c.signature.params s4 (by omega)) fun count ys s5 hA _ => of_still (.endCall out name c count) fun _ s6 _ => ?_
  rw [List.append_nil]
  exact hsome ys s5 s6 hA

/-- An operand is a literal or a name, an expression in parentheses, the negation of an operand, an assignment or a call. -/
theorem operandWith (out : Section) {arguments : Token → List ValueType → Analysis σ Nat}
    (hv : ∀ s', s'.ahead.length + 1 ≤ s.ahead.length → Parses deep value s' fun _ => V)
    (hi : ∀ s', s'.ahead.length + 1 ≤ s.ahead.length → Parses deep inner s' fun _ => I)
    (ha : ∀ name params s', s'.ahead.length + 1 ≤ s.ahead.length → Parses deep (arguments name params) s' fun _ => A)
    (hatom : ∀ (e : Expr) s', e.Grouped → e.level = 4 → e.endsOpen = false → P e.yield s')
    (hparen : ∀ ys s' s'', V ys s' → P (.mark .lparen :: (ys ++ [.mark .rparen])) s'')
    (hneg : ∀ ys s' s'', s''.source = s'.source → I ys s' → P (.mark .minus :: ys) s'')
    (hassign : ∀ x ys s' s'', s''.source = s'.source → V ys s' → P (.name x :: .mark .assign :: ys) s'')
    (hcall : ∀ f ys s' s'', A ys s' → P (.name f :: .mark .lparen :: ys) s'') :
    Parses deep (operandWith out value inner arguments) s fun _ => P := by
  refine any_bind (fun t ht => ⟨_, _, by rw [operandFrom, ht]⟩) fun t s1 h1 => ?_
  unfold operandFrom
  -- an operand that is one token
  have atom {m : Analysis σ ValueType} {u : AnalysisState σ} (hm : Still m) (e : Expr) (hg : e.Grouped) (hl : e.level = 4)
      (ho : e.endsOpen = false) (hy : e.yield = [t.terminal]) : Parses deep m u fun _ zs => P (t.terminal :: zs) :=
    of_still hm fun _ s' _ => hy ▸ hatom e s' hg hl ho
  split <;> rename_i hk
  · exact atom (.bind (.emit _ _) fun _ => .pure _) (.int t.int) trivial rfl rfl (by simp [Expr.yield, Token.terminal, hk])
  · exact atom (.bind (.emit _ _) fun _ => .pure _) (.double t.bits) trivial rfl rfl (by simp [Expr.yield, Token.terminal, hk])
  · exact atom (.bind (.literalSlot _) fun _ => .bind (.emit _ _) fun _ => .pure _) (.text .string t.lexeme) trivial rfl rfl
      (by simp [Expr.yield, Token.terminal, hk])
  · exact atom (.bind (.literalSlot _) fun _ => .bind (.emit _ _) fun _ => .pure _) (.text .char t.lexeme) trivial rfl rfl
      (by simp [Expr.yield, Token.terminal, hk])
  · refine bind (hv s1 (by omega)) fun type ys s2 hV _ => mark_bind fun _ s3 _ => pure ?_
    rw [Token.terminal, hk]
    exact hparen ys s2 s3 hV
  · refine bind (hi s1 (by omega)) fun type ys s2 hI _ => of_still (.negate out t type) fun _ s3 hsource => ?_
    rw [Token.terminal, hk, List.append_nil]
    exact hneg ys s2 s3 hsource hI
  · refine peek_bind fun u s2 hu h2 => ?_
    have hname : t.terminal = .name t.lexeme := by rw [Token.terminal, hk]
    split <;> rename_i hku
    · refine next_bind hu (by simp [hku]) fun s3 h3 => assignment out t (fun s' h => hv s' (by omega))
        fun ys s' s'' hsource hV => ?_
      rw [hname, Token.terminal, hku]
      exact hassign t.lexeme ys s' s'' hsource hV
    · refine call out t (fun params s' h => ha t params s' (by omega)) (fun s' => ?_) fun ys s' s'' hA => ?_ <;> rw [hname]
      · exact hatom (.call t.lexeme .nil) s' trivial rfl rfl
      · exact hcall t.lexeme ys s' s'' hA
    · exact atom (.load out t) (.name t.lexeme) trivial rfl rfl (by rw [hname]; rfl)
  · exact fail _ _

theorem argumentWith (name : Token) {more : Analysis σ Nat} (count : Nat) (params : List ValueType)
    (hv : ∀ s', s'.ahead.length = s.ahead.length → Parses deep value s' fun _ => V)
    (hm : ∀ s', s'.ahead.length + 1 ≤ s.ahead.length → Parses deep more s' fun _ => A)
    (hlast : ∀ ys s' s'', V ys s' → P (ys ++ [.mark .rparen]) s'')
    (hmore : ∀ ys zs s' s'', V ys s' → A zs s'' → P (ys ++ .mark .comma :: zs) s'') :
    Parses deep (argumentWith name value more count params) s fun _ => P := by
  refine peek_bind fun first s1 _ h1 => bind (hv s1 h1) fun type ys s2 hV h2 => ?_
  refine still_bind (.checkArgument _ name params count type) fun _ s3 _ h3 => ?_
  refine accept_bind (fun s4 h4 => (hm s4 (by omega)).imp fun _ zs s5 hA => hmore ys zs s2 s5 hV hA) fun s4 _ => ?_
  exact mark_bind fun _ s5 _ => pure (hlast ys s2 s5 hV)

end Parses

end Analysis

end OnePass

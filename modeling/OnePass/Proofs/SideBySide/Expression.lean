import OnePass.Proofs.SideBySide.Relabelling
import OnePass.Proofs.Steps

/-!
# Two analyses side by side

Two token sources are in step (`Pace`) if the second one has the tokens of the first one, relabelled, as long as the first one has
any. Two analyses over such sources run side by side (`Mirrors`): from matching states they come to matching states with the same
results, or they fail alike. That the first source may stop with a fault of its own, and that the two may have been given
different depths, is part of what is meant by this (`Together`). Here are the parts of an analysis up to expressions.
-/

namespace OnePass

/-! ## Tokens -/

namespace Relabelling

variable (ρ : Relabelling)

/-- The second token is the first one, relabelled. -/
structure Tokens (a b : Token) : Prop where
  eq : b = ρ.token a
  occurs : a.kind = .identifier → ρ.Occurs a.lexeme

/-- The second token has the new name and the new position of the first one, which is a name. -/
structure Named (a b : Token) : Prop where
  occurs : ρ.Occurs a.lexeme
  lexeme : b.lexeme = ρ.name a.lexeme
  pos : b.pos = ρ.pos a.pos

namespace Tokens

variable {ρ} {a b : Token}

theorem kind (h : ρ.Tokens a b) : b.kind = a.kind := by rw [h.eq]; rfl

theorem pos (h : ρ.Tokens a b) : b.pos = ρ.pos a.pos := by rw [h.eq]; rfl

theorem lexeme (h : ρ.Tokens a b) : b.lexeme = ρ.lexeme b.kind a.lexeme := by rw [h.eq]; rfl

theorem named (h : ρ.Tokens a b) (hkind : a.kind = .identifier) : ρ.Named a b :=
  ⟨h.occurs hkind, by rw [h.lexeme, Relabelling.lexeme, if_pos (h.kind.trans hkind)], h.pos⟩

end Tokens

end Relabelling

/-- Two sources in step: as long as the first one has a token, the second one has it relabelled. -/
structure Pace (σ τ : Type) [TokenSource σ] [TokenSource τ] (ρ : Relabelling) where
  /-- The two sources stand at the same token. -/
  Level : σ → τ → Prop
  /-- The faults with which the first source may stop. -/
  Stops : Diagnostic → Prop
  peek : ∀ {s : σ} {t : τ}, Level s t → (∃ d, (TokenSource.peek s).1 = .error d ∧ Stops d) ∨
    ∃ a b, (TokenSource.peek s).1 = .ok a ∧ (TokenSource.peek t).1 = .ok b ∧ ρ.Tokens a b ∧
      Level (TokenSource.peek s).2 (TokenSource.peek t).2
  next : ∀ {s : σ} {t : τ}, Level s t → (∃ d, (TokenSource.next s).1 = .error d ∧ Stops d) ∨
    ∃ a b, (TokenSource.next s).1 = .ok a ∧ (TokenSource.next t).1 = .ok b ∧ ρ.Tokens a b ∧
      Level (TokenSource.next s).2 (TokenSource.next t).2

/-! ## States and results -/

/-- The slot holds no name of the program: it is that of the entry routine, of a literal or of a primitive. -/
def AnalysisState.IsText {σ : Type} (s : AnalysisState σ) (n : Nat) : Prop :=
  n = 0 ∨ (∃ x : Bytes, s.literals[x]? = some n) ∨ ∃ x : Bytes, s.natives[x]? = some n

theorem exists_getElem?_insert {map : Std.TreeMap Bytes Nat} {x : Bytes} (h : map[x]? = none) {slot n : Nat} :
    (∃ y : Bytes, (map.insert x slot)[y]? = some n) ↔ n = slot ∨ ∃ y : Bytes, map[y]? = some n := by
  constructor
  · rintro ⟨y, hy⟩
    rw [Std.TreeMap.getElem?_insert] at hy
    split at hy
    · exact .inl (Option.some.inj hy).symm
    · exact .inr ⟨y, hy⟩
  · rintro (rfl | ⟨y, hy⟩)
    · exact ⟨x, by simp⟩
    · refine ⟨y, ?_⟩
      rw [Std.TreeMap.getElem?_insert, if_neg, hy]
      rintro hxy
      rw [Std.compare_eq_iff_eq.1 hxy, hy] at h
      cases h

namespace Pace

variable {σ τ : Type} [TokenSource σ] [TokenSource τ] {ρ : Relabelling} (π : Pace σ τ ρ)

/-- The states of two analyses that are at the same point. -/
structure Matches (s : AnalysisState σ) (t : AnalysisState τ) : Prop where
  source : π.Level s.source t.source
  table : ρ.Tables s.table t.table
  pool : ρ.Pools s.IsText s.pool t.pool
  entry : t.entry = s.entry
  body : t.body = s.body
  literals : t.literals = s.literals
  natives : t.natives = s.natives
  functionCount : t.functionCount = s.functionCount
  loops : t.loops = s.loops

/-- Two results that belong together: related values in matching states, or the same failure. If the first source has stopped, or
if one of the two has run out of depth, nothing is said of the other. -/
inductive Together {α : Type} (V : α → α → Prop) :
    Except Failure (α × AnalysisState σ) → Except Failure (α × AnalysisState τ) → Prop where
  | ok {a b : α} {s : AnalysisState σ} {t : AnalysisState τ} (value : V a b) (state : π.Matches s t) :
      Together V (.ok (a, s)) (.ok (b, t))
  | failed (e : Failure) : Together V (.error e) (.error (ρ.failure e))
  | stopped {d : Diagnostic} (h : π.Stops d) (r : Except Failure (α × AnalysisState τ)) : Together V (.error (.diagnostic d)) r
  | tooDeep (r : Except Failure (α × AnalysisState τ)) : Together V (.error (.breach .tooDeep)) r
  | otherTooDeep (r : Except Failure (α × AnalysisState σ)) : Together V r (.error (.breach .tooDeep))

end Pace

/-- Run side by side from matching states, the two parts come to results that belong together. -/
def Analysis.Mirrors {σ τ α : Type} [TokenSource σ] [TokenSource τ] {ρ : Relabelling} (π : Pace σ τ ρ) (m : Analysis σ α)
    (n : Analysis τ α) (V : α → α → Prop) : Prop :=
  ∀ s t, π.Matches s t → π.Together V (m.run s) (n.run t)

namespace Analysis.Mirrors

variable {σ τ α β : Type} [TokenSource σ] [TokenSource τ] {ρ : Relabelling} {π : Pace σ τ ρ} {m : Analysis σ α} {n : Analysis τ α}
  {V W : α → α → Prop}
variable {value : Analysis σ ValueType} {value' : Analysis τ ValueType} {f : α → Analysis σ β} {g : α → Analysis τ β}

theorem bind {W : β → β → Prop} (h : Mirrors π m n V) (hf : ∀ a b, V a b → Mirrors π (f a) (g b) W) :
    Mirrors π (m >>= f) (n >>= g) W := by
  intro s t hst
  have hmn := h s t hst
  generalize hm : m.run s = r at hmn
  generalize hn : n.run t = r' at hmn
  cases hmn with
  | ok value state =>
    rw [run_bind_of_ok hm, run_bind_of_ok hn]
    exact hf _ _ value _ _ state
  | failed e =>
    rw [run_bind_of_error hm, run_bind_of_error hn]
    exact .failed e
  | stopped hd =>
    rw [run_bind_of_error hm]
    exact .stopped hd _
  | tooDeep =>
    rw [run_bind_of_error hm]
    exact .tooDeep _
  | otherTooDeep =>
    rw [run_bind_of_error hn]
    exact .otherTooDeep _

/-- A part with equal results, and then another. -/
theorem bind_eq {W : β → β → Prop} (h : Mirrors π m n Eq) (hf : ∀ a, Mirrors π (f a) (g a) W) : Mirrors π (m >>= f) (n >>= g) W :=
  h.bind fun a _ hab => hab ▸ hf a

theorem mono (h : Mirrors π m n V) (hVW : ∀ a b, V a b → W a b) : Mirrors π m n W := by
  intro s t hst
  have hmn := h s t hst
  generalize m.run s = r at hmn ⊢
  generalize n.run t = r' at hmn ⊢
  cases hmn with
  | ok value state => exact .ok (hVW _ _ value) state
  | failed e => exact .failed e
  | stopped hd => exact .stopped hd _
  | tooDeep => exact .tooDeep _
  | otherTooDeep => exact .otherTooDeep _

theorem pure {a b : α} (h : V a b) : Mirrors π (pure a) (pure b) V := fun _ _ hst => .ok h hst

theorem done : Mirrors π (Pure.pure ()) (Pure.pure ()) Eq := pure rfl

theorem fail {p q : Pos} {f g : Fault} (hpos : q = ρ.pos p) (hfault : g = ρ.fault f) : Mirrors π (fail p f) (fail q g) V := by
  subst hpos hfault
  exact fun _ _ _ => .failed _

theorem breach (b : Breach) : Mirrors π (breach b) (breach b) V := fun _ _ _ => .failed _

theorem tooDeep (n : Analysis τ α) : Mirrors π (Analysis.breach .tooDeep) n V := fun _ _ _ => .tooDeep _

theorem otherTooDeep (m : Analysis σ α) : Mirrors π m (Analysis.breach .tooDeep) V := fun _ _ _ => .otherTooDeep _

theorem ite {c : Prop} [Decidable c] {m' : Analysis σ α} {n' : Analysis τ α} (h : Mirrors π m n V) (h' : Mirrors π m' n' V) :
    Mirrors π (if c then m else m') (if c then n else n') V := by
  split
  · exact h
  · exact h'

theorem get_bind {f : AnalysisState σ → Analysis σ α} {g : AnalysisState τ → Analysis τ α}
    (h : ∀ s t, π.Matches s t → Mirrors π (f s) (g t) V) : Mirrors π (get >>= f) (get >>= g) V :=
  fun s t hst => h s t hst s t hst

theorem modify_bind {f : AnalysisState σ → AnalysisState σ} {g : AnalysisState τ → AnalysisState τ}
    (h : ∀ s t, π.Matches s t → π.Matches (f s) (g t)) (hmn : Mirrors π m n V) :
    Mirrors π (do modify f; m) (do modify g; n) V := fun s t hst => hmn _ _ (h s t hst)

/-- A text at the end of the pools, and what is noted of it. In between the states do not match. -/
theorem new_text {g : Global} {note : Nat → AnalysisState σ → AnalysisState σ} {note' : Nat → AnalysisState τ → AnalysisState τ}
    {s : AnalysisState σ} {t : AnalysisState τ} (hst : π.Matches s t)
    (h : π.Matches
      (note s.pool.size { s with table := { s.table with nextGlobal := s.table.nextGlobal + 1 }, pool := s.pool.push g })
      (note' s.pool.size { t with table := { t.table with nextGlobal := t.table.nextGlobal + 1 }, pool := t.pool.push g })) :
    π.Together Eq
      ((do let slot ← allocGlobal; addGlobal slot g; modify (note slot); return slot : Analysis σ Nat).run s)
      ((do let slot ← allocGlobal; addGlobal slot g; modify (note' slot); return slot : Analysis τ Nat).run t) := by
  by_cases hslot : s.table.nextGlobal = s.pool.size
  · rw [run_new_global hslot, run_new_global (by rw [hst.table.nextGlobal, hslot, hst.pool.size]), hst.pool.size]
    exact .ok rfl h
  · rw [run_new_global_error hslot, run_new_global_error (by rwa [hst.table.nextGlobal, hst.pool.size])]
    exact .failed _

theorem modify {f : AnalysisState σ → AnalysisState σ} {g : AnalysisState τ → AnalysisState τ}
    (h : ∀ s t, π.Matches s t → π.Matches (f s) (g t)) : Mirrors π (modify f) (modify g) Eq := fun s t hst => .ok rfl (h s t hst)

theorem modifyGet {f : AnalysisState σ → α × AnalysisState σ} {g : AnalysisState τ → α × AnalysisState τ}
    (h : ∀ s t, π.Matches s t → V (f s).1 (g t).1 ∧ π.Matches (f s).2 (g t).2) : Mirrors π (modifyGet f) (modifyGet g) V :=
  fun s t hst => .ok (h s t hst).1 (h s t hst).2

/-! ## Tokens -/

theorem peek : Mirrors π peek peek ρ.Tokens := by
  intro s t hst
  rcases π.peek hst.source with ⟨d, hd, hstops⟩ | ⟨a, b, ha, hb, hab, hlevel⟩
  · rw [run_peek_error hd]
    exact .stopped hstops _
  · rw [run_peek_ok ha, run_peek_ok hb]
    exact .ok hab { hst with source := hlevel }

theorem next : Mirrors π next next ρ.Tokens := by
  intro s t hst
  rcases π.next hst.source with ⟨d, hd, hstops⟩ | ⟨a, b, ha, hb, hab, hlevel⟩
  · change π.Together _ ((orFail (TokenSource.next s.source).1 : Analysis σ Token).run s.taken) _
    rw [hd]
    exact .stopped hstops _
  · change π.Together _ ((orFail (TokenSource.next s.source).1 : Analysis σ Token).run s.taken)
      ((orFail (TokenSource.next t.source).1 : Analysis τ Token).run t.taken)
    rw [ha, hb]
    exact .ok hab { hst with source := hlevel }

theorem expect (kind : TokenKind) : Mirrors π (expect kind) (expect kind) fun a b => ρ.Tokens a b ∧ a.kind = kind := by
  refine next.bind fun a b hab => ?_
  rw [hab.kind]
  by_cases hkind : a.kind = kind
  · rw [if_pos hkind, if_pos hkind]
    exact pure ⟨hab, hkind⟩
  · rw [if_neg hkind, if_neg hkind]
    exact fail hab.pos (by rw [hab.lexeme, hab.kind]; rfl)

/-- A token that is expected and not looked at. -/
theorem expect_bind (kind : TokenKind) {f : Token → Analysis σ β} {g : Token → Analysis τ β} {W : β → β → Prop}
    (h : ∀ a b, b.pos = ρ.pos a.pos → Mirrors π (f a) (g b) W) :
    Mirrors π (Analysis.expect kind >>= f) (Analysis.expect kind >>= g) W :=
  (expect kind).bind fun a b hab => h a b hab.1.pos

/-- A name that is expected. -/
theorem name : Mirrors π (Analysis.expect .identifier) (Analysis.expect .identifier) ρ.Named :=
  (expect .identifier).mono fun _ _ hab => hab.1.named hab.2

theorem accept (kind : TokenKind) : Mirrors π (accept kind) (accept kind) Eq := by
  refine peek.bind fun a b hab => ?_
  rw [hab.kind]
  exact ite (next.bind fun _ _ _ => pure rfl) (pure rfl)

theorem typeName : Mirrors π typeName typeName fun p q => q.1.pos = ρ.pos p.1.pos ∧ q.2 = p.2 := by
  refine next.bind fun a b hab => ?_
  rw [hab.kind]
  split
  · exact pure ⟨hab.pos, rfl⟩
  · exact fail hab.pos (by rw [hab.lexeme, hab.kind]; rfl)

/-! ## Code -/

theorem emit (out : Section) (i : Instruction) : Mirrors π (emit out i) (emit out i) Eq := by
  cases out with
  | entry => exact modify fun s t hst => { hst with entry := by rw [hst.entry] }
  | body => exact modify fun s t hst => { hst with body := by rw [hst.body] }

theorem emitAll (out : Section) (code : List Instruction) : Mirrors π (emitAll out code) (emitAll out code) Eq := by
  cases out with
  | entry => exact modify fun s t hst => { hst with entry := by rw [hst.entry] }
  | body => exact modify fun s t hst => { hst with body := by rw [hst.body] }

theorem here : Mirrors π here here Eq := get_bind fun s t hst => pure (by rw [hst.body])

theorem emitOpenBranch : Mirrors π emitOpenBranch emitOpenBranch Eq :=
  here.bind_eq fun _ => (emit _ _).bind_eq fun _ => pure rfl

theorem emitBranchTo (target : Nat) : Mirrors π (emitBranchTo target) (emitBranchTo target) Eq := here.bind_eq fun _ => emit _ _

theorem patch (handle : Nat) : Mirrors π (patch handle) (patch handle) Eq := by
  refine get_bind fun s t hst => ?_
  rw [hst.body]
  split
  · exact modify fun s t hst => { hst with body := rfl }
  · exact breach _

/-! ## Globals and symbols -/

theorem addGlobal (slot : Nat) (g : Global) : Mirrors π (addGlobal slot g) (addGlobal slot (ρ.global g)) Eq := by
  refine get_bind fun s t hst => ?_
  rw [hst.pool.size]
  exact ite (modify fun s t hst => { hst with pool := hst.pool.push_named g }) (breach _)

theorem literalSlot (text : Bytes) : Mirrors π (literalSlot text) (literalSlot text) Eq := by
  intro s t hst
  rw [Analysis.literalSlot, run_get_bind, Analysis.literalSlot, run_get_bind, hst.literals]
  cases hslot : s.literals[text]? with
  | some slot => exact .ok rfl hst
  | none =>
    refine new_text hst { hst with
      table := hst.table.allocGlobal.2
      pool := hst.pool.push_text _ fun n => ?_
      literals := by rw [hst.literals] }
    simp only [AnalysisState.IsText, exists_getElem?_insert hslot]
    grind

theorem nativeSlot (x : Bytes) : Mirrors π (nativeSlot x) (nativeSlot x) Eq := by
  intro s t hst
  rw [Analysis.nativeSlot, run_get_bind, Analysis.nativeSlot, run_get_bind, hst.natives]
  cases hslot : s.natives[x]? with
  | some slot => exact .ok rfl hst
  | none =>
    refine new_text hst { hst with
      table := hst.table.allocGlobal.2
      pool := hst.pool.push_text _ fun n => ?_
      natives := by rw [hst.natives] }
    simp only [AnalysisState.IsText, exists_getElem?_insert hslot]
    grind

theorem declare {a b : Token} (hab : ρ.Named a b) (kind : SymbolKind) (type : ValueType) (const : Bool) (storage : Storage) :
    Mirrors π (declare a kind type const storage) (declare b kind type const storage) Eq := by
  refine get_bind fun s t hst => ?_
  rw [hab.lexeme]
  rcases hst.table.declare hab.occurs kind type const storage with ⟨place, t', u', ht, hu, htables⟩ | ⟨ht, hu⟩
  · rw [ht, hu]
    exact modify_bind (fun s t hst => { hst with table := htables }) (pure rfl)
  · rw [ht, hu]
    exact fail hab.pos rfl

theorem symbolAt (place : Nat) : Mirrors π (symbolAt place) (symbolAt place) fun a b => b = ρ.symbol a := by
  refine get_bind fun s t hst => ?_
  rw [hst.table.symbol?]
  cases s.table.symbol? place with
  | none => exact breach _
  | some symbol => exact pure rfl

/-- A change of a symbol that has nothing to do with its name. -/
theorem updateSymbol (place : Nat) {f : Symbol → Symbol} (hf : ∀ s, f (ρ.symbol s) = ρ.symbol (f s))
    (hname : ∀ s, (f s).name = s.name) : Mirrors π (updateSymbol place f) (updateSymbol place f) Eq :=
  modify fun _ _ hst => { hst with table := hst.table.update hf hname place }

theorem markAssigned (place : Nat) : Mirrors π (markAssigned place) (markAssigned place) Eq :=
  updateSymbol place (fun _ => rfl) fun _ => rfl

theorem emitAddress (out : Section) (symbol : Symbol) :
    Mirrors π (emitAddress out symbol) (emitAddress out (ρ.symbol symbol)) Eq := by
  have hstorage : (ρ.symbol symbol).storage = symbol.storage := rfl
  unfold Analysis.emitAddress
  rw [hstorage]
  split
  · exact emit _ _
  · exact emit _ _
  · exact emit _ _
  · exact done

/-! ## Expressions -/

variable {a b : Token}

theorem variablePlace (hab : ρ.Named a b) : Mirrors π (variablePlace a) (variablePlace b) Eq := by
  refine get_bind fun s t hst => ?_
  rw [hab.lexeme]
  rcases hst.table.resolve hab.occurs with ⟨place, hs, ht⟩ | ⟨hs, ht⟩
  · rw [hs, ht]
    refine (symbolAt place).bind ?_
    rintro symbol _ rfl
    exact ite (fail hab.pos rfl) (pure rfl)
  · rw [hs, ht]
    exact fail hab.pos rfl

theorem load (out : Section) (hab : ρ.Named a b) : Mirrors π (load out a) (load out b) Eq := by
  refine (variablePlace hab).bind_eq fun place => (symbolAt place).bind ?_
  rintro symbol _ rfl
  refine ite ?_ (fail hab.pos (by rw [hab.lexeme]; rfl))
  exact (emitAddress out symbol).bind_eq fun _ => (emit out _).bind_eq fun _ => pure rfl

theorem assignment (out : Section) (hab : ρ.Named a b) (hvalue : Mirrors π value value' Eq) :
    Mirrors π (assignment out a value) (assignment out b value') Eq := by
  refine (variablePlace hab).bind_eq fun place => (symbolAt place).bind ?_
  rintro symbol _ rfl
  refine ite (fail hab.pos (by rw [hab.lexeme]; rfl)) ?_
  refine (emitAddress out symbol).bind_eq fun _ => peek.bind fun first first' hfirst => hvalue.bind_eq fun type => ?_
  refine ite (fail hfirst.pos (by rw [hab.lexeme]; rfl)) ?_
  exact (emit out _).bind_eq fun _ => (markAssigned place).bind_eq fun _ => pure rfl

theorem callee (hab : ρ.Named a b) : Mirrors π (callee a) (callee b) Eq := by
  refine get_bind fun s t hst => ?_
  rw [hab.lexeme]
  rcases hst.table.resolve hab.occurs with ⟨place, hs, ht⟩ | ⟨hs, ht⟩
  · rw [hs, ht]
    refine (symbolAt place).bind ?_
    rintro symbol _ rfl
    exact ite (pure rfl) (fail hab.pos rfl)
  · rw [hs, ht, ρ.ofName?_name hab.occurs]
    cases hprimitive : Primitive.ofName? a.lexeme with
    | none => exact fail hab.pos rfl
    | some primitive =>
      rw [ρ.name_of_ofName? hprimitive]
      exact (nativeSlot _).bind_eq fun _ => pure rfl

theorem checkArgument {p q : Pos} (hpos : q = ρ.pos p) (hab : ρ.Named a b) (params : List ValueType) (count : Nat)
    (type : ValueType) : Mirrors π (checkArgument p a params count type) (checkArgument q b params count type) Eq := by
  unfold Analysis.checkArgument
  split
  · exact ite done (fail hpos (by rw [hab.lexeme]; rfl))
  · exact done

theorem endCall (out : Section) (hab : ρ.Named a b) (c : Callee) (count : Nat) :
    Mirrors π (endCall out a c count) (endCall out b c count) Eq :=
  ite (fail hab.pos (by rw [hab.lexeme]; rfl)) ((emit out _).bind_eq fun _ => pure rfl)

theorem call (out : Section) (hab : ρ.Named a b) {arguments : List ValueType → Analysis σ Nat}
    {arguments' : List ValueType → Analysis τ Nat} (h : ∀ params, Mirrors π (arguments params) (arguments' params) Eq) :
    Mirrors π (call out a arguments) (call out b arguments') Eq := by
  refine (callee hab).bind_eq fun c => (emit out _).bind_eq fun _ => expect_bind .lparen fun _ _ _ => ?_
  refine (accept .rparen).bind_eq fun closed => ite (endCall out hab c 0) ?_
  exact (h _).bind_eq fun count => endCall out hab c count

theorem negate (out : Section) (hpos : b.pos = ρ.pos a.pos) (type : ValueType) :
    Mirrors π (negate out a type) (negate out b type) Eq := by
  unfold Analysis.negate
  split
  · exact (emit out _).bind_eq fun _ => pure rfl
  · exact (emit out _).bind_eq fun _ => pure rfl
  · exact fail hpos (by cases type <;> rfl)

/-- Going on with what has become of the pending operators. -/
theorem orFail_applyWhile (due : Operator → Bool) (p : Pending) :
    Mirrors π (orFail (Pending.applyWhile due p.ops p.types))
      (orFail (Pending.applyWhile due (ρ.pending p).ops (ρ.pending p).types)) fun r r' => r' = (ρ.pending r.1, r.2) := by
  rw [ρ.applyWhile_pending]
  cases Pending.applyWhile due p.ops p.types with
  | error d => exact fun _ _ _ => .failed (.diagnostic d)
  | ok r => exact pure rfl

theorem makeWay (out : Section) (p : Pending) (op : Operator) :
    Mirrors π (makeWay out p op) (makeWay out (ρ.pending p) op) fun q q' => q' = ρ.pending q := by
  refine (orFail_applyWhile _ p).bind ?_
  rintro ⟨q, code⟩ _ rfl
  exact (emitAll out code).bind_eq fun _ => pure rfl

theorem conclude (out : Section) (p : Pending) : Mirrors π (conclude out p) (conclude out (ρ.pending p)) Eq := by
  refine (orFail_applyWhile _ p).bind ?_
  rintro ⟨q, code⟩ _ rfl
  refine (emitAll out code).bind_eq fun _ => ?_
  dsimp only [Relabelling.pending]
  cases q.types.getLast? with
  | some type => exact pure rfl
  | none => exact breach _

theorem operandFrom (out : Section) {value inner : Analysis σ ValueType} {value' inner' : Analysis τ ValueType}
    {arguments : Token → List ValueType → Analysis σ Nat} {arguments' : Token → List ValueType → Analysis τ Nat}
    (hvalue : Mirrors π value value' Eq) (hinner : Mirrors π inner inner' Eq)
    (harguments : ∀ a b, ρ.Named a b → ∀ params, Mirrors π (arguments a params) (arguments' b params) Eq) (hab : ρ.Tokens a b) :
    Mirrors π (operandFrom out value inner arguments a) (operandFrom out value' inner' arguments' b) Eq := by
  have hint : b.int = a.int := by rw [hab.eq]; rfl
  have hbits : b.bits = a.bits := by rw [hab.eq]; rfl
  have hlexeme (h : a.kind ≠ .identifier) : b.lexeme = a.lexeme := by
    rw [hab.lexeme, Relabelling.lexeme, if_neg (by rwa [hab.kind])]
  unfold Analysis.operandFrom
  rw [hab.kind]
  cases hkind : a.kind
  case uintLit =>
    rw [hint]
    exact (emit out _).bind_eq fun _ => pure rfl
  case doubleLit =>
    rw [hbits]
    exact (emit out _).bind_eq fun _ => pure rfl
  case stringLit =>
    rw [hlexeme (by simp [hkind])]
    exact (literalSlot _).bind_eq fun _ => (emit out _).bind_eq fun _ => pure rfl
  case charLit =>
    rw [hlexeme (by simp [hkind])]
    exact (literalSlot _).bind_eq fun _ => (emit out _).bind_eq fun _ => pure rfl
  case lparen => exact hvalue.bind_eq fun _ => expect_bind .rparen fun _ _ _ => pure rfl
  case minus => exact hinner.bind_eq fun type => negate out hab.pos type
  case identifier =>
    have hnamed := hab.named hkind
    refine peek.bind fun following following' hfollowing => ?_
    rw [hfollowing.kind]
    cases following.kind
    case assign => exact next.bind fun _ _ _ => assignment out hnamed hvalue
    case lparen => exact call out hnamed (harguments _ _ hnamed)
    all_goals exact load out hnamed
  all_goals exact fail hab.pos (by rw [hlexeme (by simp [hkind])]; rfl)

theorem operandWith (out : Section) {inner : Analysis σ ValueType} {inner' : Analysis τ ValueType}
    {arguments : Token → List ValueType → Analysis σ Nat} {arguments' : Token → List ValueType → Analysis τ Nat}
    (hvalue : Mirrors π value value' Eq) (hinner : Mirrors π inner inner' Eq)
    (harguments : ∀ a b, ρ.Named a b → ∀ params, Mirrors π (arguments a params) (arguments' b params) Eq) :
    Mirrors π (operandWith out value inner arguments) (operandWith out value' inner' arguments') Eq :=
  next.bind fun _ _ hab => operandFrom out hvalue hinner harguments hab

theorem argumentWith (hab : ρ.Named a b) {more : Analysis σ Nat} {more' : Analysis τ Nat} (count : Nat) (params : List ValueType)
    (hvalue : Mirrors π value value' Eq) (hmore : Mirrors π more more' Eq) :
    Mirrors π (argumentWith a value more count params) (argumentWith b value' more' count params) Eq := by
  refine peek.bind fun first first' hfirst => hvalue.bind_eq fun type => ?_
  refine (checkArgument hfirst.pos hab params count type).bind_eq fun _ => (accept .comma).bind_eq fun _ => ?_
  exact ite hmore (expect_bind .rparen fun _ _ _ => pure rfl)

/-- The four parts of an expression, whatever the depths are. -/
theorem parts (π : Pace σ τ ρ) (out : Section) (d e : Nat) :
    Mirrors π (expression out d) (expression out e) Eq ∧
    (∀ p, Mirrors π (operators out d p) (operators out e (ρ.pending p)) Eq) ∧
    Mirrors π (operand out d) (operand out e) Eq ∧
    (∀ a b, ρ.Named a b → ∀ count params, Mirrors π (arguments out a d count params) (arguments out b e count params) Eq) := by
  induction d generalizing e with
  | zero => exact ⟨tooDeep _, fun _ => tooDeep _, tooDeep _, fun _ _ _ _ _ => tooDeep _⟩
  | succ d ih =>
    cases e with
    | zero => exact ⟨otherTooDeep _, fun _ => otherTooDeep _, otherTooDeep _, fun _ _ _ _ _ => otherTooDeep _⟩
    | succ e =>
      obtain ⟨hexpression, hoperators, hoperand, harguments⟩ := ih e
      refine ⟨hoperand.bind_eq fun type => hoperators (.single type), fun p => ?_, operandWith out hexpression hoperand ?_, ?_⟩
      · refine peek.bind fun token token' htoken => ?_
        rw [htoken.kind]
        cases Operator.ofKind? token.kind with
        | none => exact conclude out p
        | some op =>
          refine (makeWay out p op).bind ?_
          rintro q _ rfl
          refine next.bind fun _ _ _ => ?_
          have hmore (type : ValueType) : Mirrors π (operators out d (q.shift op token.pos type))
              (operators out e ((ρ.pending q).shift op token'.pos type)) Eq := by
            rw [htoken.pos]
            exact hoperators _
          refine ite (bind_eq ?_ hmore) (hoperand.bind_eq hmore)
          exact typeName.bind fun _ _ htype => pure htype.2.symm
      · exact fun a b hab params => harguments a b hab 0 params
      · exact fun a b hab count params => argumentWith hab count params hexpression (harguments a b hab _ params)

theorem expression (out : Section) (d e : Nat) : Mirrors π (expression out d) (expression out e) Eq := (parts π out d e).1

end Analysis.Mirrors

end OnePass

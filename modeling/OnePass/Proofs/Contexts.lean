import OnePass.Proofs.Translation

/-!
# What a translation changes

Translating an expression assigns variables and adds to the pool, and changes nothing else (`Context.Extends`). Translating
statements also declares names in the innermost scope and hands out locals (`Context.Grows`).
-/

namespace OnePass

variable {c c' : Context}

/-- The names of a scope with each variable assigned: what is left of it where it does not matter which of them have a value. -/
def Scope.settled (scope : Scope) : Scope := scope.map fun (x, binding) => (x, binding.assign)

/-- The scopes with each variable assigned. -/
def Scopes.settled (scopes : Scopes) : Scopes := scopes.map Scope.settled

@[simp] theorem Binding.assign_assign (b : Binding) : b.assign.assign = b.assign := by cases b <;> rfl

theorem Scope.settled_assign (x : Bytes) : ∀ scope : Scope, (scope.assign x).settled = scope.settled
  | [] => rfl
  | (y, b) :: scope => by
    rw [Scope.assign]
    split
    · simp [Scope.settled]
    · have ih := settled_assign x scope
      simp only [Scope.settled] at ih
      simp [Scope.settled, ih]

theorem Scopes.settled_assign (x : Bytes) : ∀ scopes : Scopes, (scopes.assign x).settled = scopes.settled
  | [] => rfl
  | scope :: scopes => by
    rw [Scopes.assign]
    split
    · simp [Scopes.settled, Scope.settled_assign]
    · have ih := settled_assign x scopes
      simp only [Scopes.settled] at ih
      simp [Scopes.settled, ih]

theorem Scope.lookup_settled (x : Bytes) : ∀ scope : Scope, scope.settled.lookup x = (scope.lookup x).map Binding.assign
  | [] => rfl
  | (y, b) :: scope => by
    simp only [Scope.settled, List.map_cons, List.lookup_cons]
    split
    · rfl
    · exact lookup_settled x scope

theorem Scopes.flatten_settled (scopes : Scopes) : scopes.settled.flatten = Scope.settled scopes.flatten := by
  simp [Scopes.settled, Scope.settled, List.map_flatten]
  rfl

/-- What a name stands for, up to whether it has a value, is the same where the settled scopes are. -/
theorem Scopes.find?_settled (scopes : Scopes) (x : Bytes) : scopes.settled.find? x = (scopes.find? x).map Binding.assign := by
  rw [Scopes.find?, Scopes.flatten_settled, Scope.lookup_settled]
  rfl

/-- The names in scope, each with a value. -/
def Context.names (c : Context) : Scope := c.scopes.settled.flatten

theorem Context.lookup_names (c : Context) (x : Bytes) : c.names.lookup x = (c.scopes.find? x).map Binding.assign :=
  c.scopes.find?_settled x

/-- Between two points of an expression variables were assigned and the pool has grown. -/
structure Context.Extends (c c' : Context) : Prop where
  scopes : c'.scopes.settled = c.scopes.settled
  pool : c.pool <+: c'.pool
  locals : c'.locals = c.locals
  functions : c'.functions = c.functions

namespace Context.Extends

theorem names_eq (h : c.Extends c') : c'.names = c.names := congrArg List.flatten h.scopes

theorem map_fst_flatten (h : c.Extends c') : c'.scopes.flatten.map Prod.fst = c.scopes.flatten.map Prod.fst := by
  have hscopes := congrArg (fun scopes : Scopes => scopes.flatten.map Prod.fst) h.scopes
  simpa [Scopes.flatten_settled, Scope.settled, Function.comp_def] using hscopes

theorem find?_variable (h : c.Extends c') {x : Bytes} {type : ValueType} {const assigned : Bool} {home : Home}
    (hx : c.scopes.find? x = some (.variable type const assigned home)) :
    ∃ assigned', c'.scopes.find? x = some (.variable type const assigned' home) := by
  have hfind := c'.scopes.find?_settled x
  rw [h.scopes, Scopes.find?_settled, hx] at hfind
  cases hx' : c'.scopes.find? x with
  | none => simp [hx'] at hfind
  | some binding =>
    cases binding with
    | «variable» type' const' assigned' home' =>
      rw [hx'] at hfind
      cases hfind
      exact ⟨assigned', rfl⟩
    | function => simp [hx', Binding.assign] at hfind

end Context.Extends

namespace Translation

variable {α β : Type}
variable {m : Translation α} {f : α → Translation β}

theorem run_bind_of_some {a : α} (h : m.run c = some (a, c')) : (m >>= f).run c = (f a).run c' := by
  rw [StateT.run_bind, h]
  rfl

theorem run_bind_of_none (h : m.run c = none) : (m >>= f).run c = none := by
  rw [StateT.run_bind, h]
  rfl

theorem run_bind_some_iff {r : β × Context} : (m >>= f).run c = some r ↔ ∃ a c', m.run c =
    some (a, c') ∧ (f a).run c' = some r := by
  rw [StateT.run_bind]
  cases m.run c with
  | none => simp
  | some p =>
    constructor
    · exact fun h => ⟨p.1, p.2, rfl, h⟩
    · rintro ⟨a, c', hm, hf⟩
      cases hm
      exact hf

theorem run_require_bind (p : Prop) [Decidable p] (k : Unit → Translation α) (c : Context) :
    (require p >>= k).run c = if p then (k ()).run c else none := by
  unfold require
  split <;> rfl

theorem run_declare {x : Bytes} {binding : Binding} (h : (declare x binding).run c = some ((), c')) :
    ∃ scope scopes, c.scopes = scope :: scopes ∧ scope.lookup x = none ∧ c' =
      { c with scopes := ((x, binding) :: scope) :: scopes } := by
  change declare x binding c = _ at h
  unfold declare at h
  split at h
  · rename_i scope scopes hscopes
    split at h
    · cases h
    · rename_i hx
      cases h
      exact ⟨scope, scopes, hscopes, Option.not_isSome_iff_eq_none.1 hx, rfl⟩
  · cases h

theorem run_inScope {a : α} (h : (inScope m).run c = some (a, c')) :
    ∃ c1, m.run { c with scopes := [] :: c.scopes } = some (a, c1) ∧ c' = { c1 with scopes := c1.scopes.tail } := by
  unfold inScope at h
  obtain ⟨_, c1, h1, h⟩ := run_bind_some_iff.1 h
  cases h1
  obtain ⟨b, c2, h2, h⟩ := run_bind_some_iff.1 h
  cases h
  exact ⟨c2, h2, rfl⟩

/-- Wherever the translation gives something, the contexts before and after are related. -/
def Keeps (R : Context → Context → Prop) (m : Translation α) : Prop := ∀ c a c', m.run c = some (a, c') → R c c'

/-- The translation does to a context what translating an expression does. -/
abbrev Extending (m : Translation α) : Prop := Keeps Context.Extends m

end Translation

/-! ## Statements -/

/-- The scopes with more names in the innermost one. -/
def Scopes.add (more : Scope) : Scopes → Scopes
  | [] => []
  | scope :: scopes => (more ++ scope) :: scopes

@[simp] theorem Scopes.add_nil (scopes : Scopes) : scopes.add [] = scopes := by cases scopes <;> rfl

@[simp] theorem Scopes.add_add (more more' : Scope) (scopes : Scopes) :
    (scopes.add more).add more' = scopes.add (more' ++ more) := by
  cases scopes <;> simp [Scopes.add]

@[simp] theorem Scopes.tail_add (more : Scope) (scopes : Scopes) : (scopes.add more).tail = scopes.tail := by cases scopes <;> rfl

@[simp] theorem Scopes.length_add (more : Scope) (scopes : Scopes) : (scopes.add more).length = scopes.length := by
  cases scopes <;> rfl

/-- Between two points of a block variables were assigned and declared, and the pool and the frame have grown. -/
structure Context.Grows (c c' : Context) : Prop where
  scopes : ∃ more, c'.scopes.settled = c.scopes.settled.add more
  pool : c.pool <+: c'.pool
  locals : c.locals ≤ c'.locals
  functions : c'.functions = c.functions

instance : Std.Refl Context.Grows := ⟨fun _ => ⟨⟨[], by simp⟩, List.prefix_refl _, Nat.le_refl _, rfl⟩⟩

instance : Trans Context.Grows Context.Grows Context.Grows where
  trans h h' := by
    obtain ⟨more, hmore⟩ := h.scopes
    obtain ⟨more', hmore'⟩ := h'.scopes
    exact ⟨⟨more' ++ more, by rw [hmore', hmore, Scopes.add_add]⟩, h.pool.trans h'.pool, Nat.le_trans h.locals h'.locals,
      h'.functions.trans h.functions⟩

theorem Context.Grows.length_scopes (h : c.Grows c') : c'.scopes.length = c.scopes.length := by
  obtain ⟨more, hmore⟩ := h.scopes
  simpa [Scopes.settled] using congrArg List.length hmore

namespace Translation

/-- The translation does to a context what translating a statement does. -/
abbrev Growing {α : Type} (m : Translation α) : Prop := Keeps Context.Grows m

namespace Growing

variable {α : Type}
variable {m : Translation α}

/-- What is declared in a scope of its own is gone after it. -/
theorem settled_inScope (h : Growing m) {a : α} (hr : (inScope m).run c = some (a, c')) :
    c'.scopes.settled = c.scopes.settled ∧ c.pool <+: c'.pool ∧ c.locals ≤ c'.locals ∧ c'.functions = c.functions := by
  obtain ⟨c1, hrun, rfl⟩ := run_inScope hr
  have hgrows := h _ _ _ hrun
  obtain ⟨more, hmore⟩ := hgrows.scopes
  refine ⟨?_, hgrows.pool, hgrows.locals, hgrows.functions⟩
  have htail := congrArg List.tail hmore
  simpa [Scopes.settled] using htail

theorem inScope (h : Growing m) : Growing (inScope m) := by
  intro c a c' hr
  obtain ⟨hscopes, hpool, hlocals, hfunctions⟩ := settled_inScope h hr
  exact ⟨⟨[], by simp [hscopes]⟩, hpool, hlocals, hfunctions⟩

end Growing

end Translation

end OnePass

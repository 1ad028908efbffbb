import OnePass.Proofs.Agreement.Program
import OnePass.Proofs.Parsing.Program
import OnePass.Proofs.Typing.Rules

/-!
# What an analysis accepts

A tree can be translated just where it keeps the static rules. Each part of a translation does to the names in scope what a
relation between environments says (`Translation.Obeys`), and the relation of a tree is the judgement about it. With the agreement
of analyses and translations, a list of tokens is accepted just if it is that of a program which keeps the rules
(`analyze_accepts_iff`).
-/

namespace OnePass

variable {e : Expr} {body : Block} {c : Context} {outer : Scope}

/-! ## Environments of contexts -/

/-- What the rules know of a name that stands for this. -/
def Binding.meaning : Binding → Meaning
  | .variable type const assigned _ => .variable type const assigned
  | .function params returns _ _ => .function ⟨params, returns⟩

/-- What the rules know of a scope. -/
def Scope.names (scope : Scope) : Names := scope.map fun (x, binding) => (x, binding.meaning)

/-- What the rules know of the scopes. -/
def Scopes.env (scopes : Scopes) : Env := scopes.map Scope.names

/-- The environment of a context. -/
abbrev Context.env (c : Context) : Env := c.scopes.env

theorem Scope.lookup_names (x : Bytes) : ∀ scope : Scope, scope.names.lookup x = (scope.lookup x).map Binding.meaning
  | [] => rfl
  | (y, b) :: scope => by
    simp only [Scope.names, List.map_cons, List.lookup_cons]
    split
    · rfl
    · exact lookup_names x scope

theorem Scopes.find?_env (scopes : Scopes) (x : Bytes) : scopes.env.find? x = (scopes.find? x).map Binding.meaning := by
  have hflatten : scopes.env.flatten = Scope.names scopes.flatten := by
    simp [Scopes.env, Scope.names, List.map_flatten]
    rfl
  rw [Env.find?, hflatten, Scope.lookup_names]
  rfl

theorem Binding.meaning_assign (b : Binding) : b.assign.meaning = b.meaning.assign := by cases b <;> rfl

theorem Scope.names_assign (x : Bytes) : ∀ scope : Scope, (scope.assign x).names = scope.names.assign x
  | [] => rfl
  | (y, b) :: scope => by
    have ih := names_assign x scope
    simp only [Scope.names] at ih
    rw [Scope.assign]
    split
    · rename_i h
      simp [Scope.names, Names.assign, h, Binding.meaning_assign]
    · rename_i h
      simp [Scope.names, Names.assign, h, ih]

theorem Scopes.env_assign (x : Bytes) : ∀ scopes : Scopes, (scopes.assign x).env = scopes.env.assign x
  | [] => rfl
  | scope :: scopes => by
    have ih := env_assign x scopes
    simp only [Scopes.env] at ih
    simp only [Scopes.assign, Scopes.env, List.map_cons, Env.assign, Scope.lookup_names, Option.isSome_map]
    split
    · simp [Scope.names_assign]
    · simp [ih]

namespace Translation

variable {α β γ δ : Type}

/-- What a translation does to the names in scope is this relation; `f` is what the rules see of its result. -/
def Obeys (m : Translation α) (f : α → β) (R : Env → β → Env → Prop) : Prop :=
  ∀ c b Γ, (∃ a c', m.run c = some (a, c') ∧ f a = b ∧ c'.env = Γ) ↔ R c.env b Γ

namespace Obeys

variable {m : Translation α} {f : α → β} {R : Env → β → Env → Prop} {k : α → Translation γ} {g : γ → δ}

theorem congr {S : Env → β → Env → Prop} (h : Obeys m f R) (hRS : ∀ Γ b Γ', R Γ b Γ' ↔ S Γ b Γ') :
    Obeys m f S := fun c b Γ => (h c b Γ).trans (hRS _ _ _)

/-- One part after another is the composition of their relations. -/
theorem bind {S : β → Env → δ → Env → Prop} (hm : Obeys m f R) (hk : ∀ a, Obeys (k a) g (S (f a))) :
    Obeys (m >>= k) g fun Γ d Γ' => ∃ b Γ1, R Γ b Γ1 ∧ S b Γ1 d Γ' := by
  intro c d Γ
  constructor
  · rintro ⟨a', c', hrun, rfl, rfl⟩
    obtain ⟨a, c1, hrm, hrk⟩ := run_bind_some_iff.1 hrun
    exact ⟨f a, c1.env, (hm ..).1 ⟨a, c1, hrm, rfl, rfl⟩, (hk a ..).1 ⟨a', c', hrk, rfl, rfl⟩⟩
  · rintro ⟨b, Γ1, hR, hS⟩
    obtain ⟨a, c1, hrm, rfl, rfl⟩ := (hm ..).2 hR
    obtain ⟨a', c', hrk, rfl, rfl⟩ := (hk a ..).2 hS
    exact ⟨a', c', run_bind_some_iff.2 ⟨a, c1, hrm, hrk⟩, rfl, rfl⟩

theorem pure {a : α} {b : β} (h : f a = b) : Obeys (pure a) f fun Γ b' Γ' => b' = b ∧ Γ' = Γ := by
  subst h
  intro c b Γ
  constructor
  · rintro ⟨_, _, hrun, rfl, rfl⟩
    cases hrun
    exact ⟨rfl, rfl⟩
  · rintro ⟨rfl, rfl⟩
    exact ⟨a, c, rfl, rfl, rfl⟩

/-- A result that is only rearranged. -/
theorem map {k : α → γ} {g : γ → β} (hm : Obeys m f R) (hk : ∀ a, g (k a) = f a) :
    Obeys (m >>= fun a => Pure.pure (k a)) g R := by
  refine congr (bind (S := fun b Γ b' Γ' => b' = b ∧ Γ' = Γ) hm fun a => pure (hk a)) fun Γ b Γ' => ⟨?_, ?_⟩
  · rintro ⟨_, _, hR, rfl, rfl⟩
    exact hR
  · intro hR
    exact ⟨b, Γ', hR, rfl, rfl⟩

theorem failure (f : α → β) : Obeys failure f fun _ _ _ => False := by
  intro c b Γ
  constructor
  · rintro ⟨_, _, hrun, -⟩
    cases hrun
  · exact False.elim

/-- Nothing more is done. -/
theorem done {a : α} : Obeys (Pure.pure a) (fun _ => ()) fun Γ _ Γ' => Γ' = Γ :=
  (pure rfl).congr fun Γ _ Γ' => by simp

/-- A part of which only the effect matters, and what comes after it. -/
theorem and_then {R : Env → Env → Prop} {S : Env → δ → Env → Prop} (hm : Obeys m (fun _ => ()) fun Γ _ Γ' => R Γ Γ')
    (hk : ∀ a, Obeys (k a) g S) : Obeys (m >>= k) g fun Γ d Γ' => ∃ Γ1, R Γ Γ1 ∧ S Γ1 d Γ' :=
  (bind (S := fun _ => S) hm hk).congr fun _ _ _ => ⟨fun ⟨_, h⟩ => h, fun h => ⟨(), h⟩⟩

/-- A part that gives something whatever is in scope, and leaves the scopes as they are. -/
theorem idle {S : Env → δ → Env → Prop} (hm : ∀ c, ∃ a c', m.run c = some (a, c') ∧ c'.scopes = c.scopes)
    (hk : ∀ a, Obeys (k a) g S) : Obeys (m >>= k) g S := by
  refine (and_then (R := fun Γ Γ' => Γ' = Γ) (fun c b Γ => ?_) hk).congr fun Γ d Γ' => by simp
  obtain ⟨a, c', hrun, hscopes⟩ := hm c
  constructor
  · rintro ⟨_, _, hrun', -, rfl⟩
    rw [hrun] at hrun'
    cases hrun'
    rw [Context.env, hscopes]
  · rintro rfl
    exact ⟨a, c', hrun, rfl, by rw [Context.env, hscopes]⟩

theorem slotOf (entry : PoolEntry) {k : Nat → Translation γ} {S : Env → δ → Env → Prop} (hk : ∀ slot, Obeys (k slot) g S) :
    Obeys (slotOf entry >>= k) g S := by
  refine idle (fun c => ?_) hk
  change ∃ a c', Translation.slotOf entry c = some (a, c') ∧ c'.scopes = c.scopes
  unfold Translation.slotOf
  split
  · exact ⟨_, _, rfl, rfl⟩
  · exact ⟨_, _, rfl, rfl⟩

theorem require (p : Prop) [Decidable p] {k : Unit → Translation γ} {S : Env → δ → Env → Prop} (hk : ∀ u, Obeys (k u) g S) :
    Obeys (require p >>= k) g fun Γ d Γ' => p ∧ S Γ d Γ' := by
  by_cases hp : p
  · rw [Translation.require, if_pos hp, pure_bind]
    exact (hk ()).congr fun Γ d Γ' => by simp [hp]
  · rw [Translation.require, if_neg hp]
    exact (failure g).congr fun Γ d Γ' => by simp [hp]

theorem find? (x : Bytes) {k : Option Binding → Translation γ} {S : Option Meaning → Env → δ → Env → Prop}
    (hk : ∀ b, Obeys (k b) g (S (b.map Binding.meaning))) : Obeys (find? x >>= k) g fun Γ d Γ' => S (Γ.find? x) Γ d Γ' := by
  refine (bind (R := fun Γ b Γ' => b = Γ.find? x ∧ Γ' = Γ) (fun c b Γ => ?_) hk).congr fun Γ d Γ' => by simp
  change _ ↔ b = c.scopes.env.find? x ∧ Γ = c.env
  rw [Scopes.find?_env]
  constructor
  · rintro ⟨_, _, hrun, rfl, rfl⟩
    cases hrun
    exact ⟨rfl, rfl⟩
  · rintro ⟨rfl, rfl⟩
    exact ⟨_, c, rfl, rfl, rfl⟩

theorem assign (x : Bytes) {k : Unit → Translation γ} {S : Env → δ → Env → Prop} (hk : ∀ u, Obeys (k u) g S) :
    Obeys (assign x >>= k) g fun Γ d Γ' => S (Γ.assign x) d Γ' := by
  refine (and_then (R := fun Γ Γ' => Γ' = Γ.assign x) (fun c b Γ => ?_) hk).congr fun Γ d Γ' => by simp
  change _ ↔ Γ = c.scopes.env.assign x
  rw [← Scopes.env_assign]
  constructor
  · rintro ⟨_, _, hrun, -, rfl⟩
    cases hrun
    rfl
  · rintro rfl
    exact ⟨(), _, rfl, rfl, rfl⟩

theorem declare (x : Bytes) (binding : Binding) :
    Obeys (declare x binding) (fun _ => ()) fun Γ _ Γ' => Env.Declares x binding.meaning Γ Γ' := by
  intro c b Γ
  change (∃ a c', Translation.declare x binding c = some (a, c') ∧ () = b ∧ c'.env = Γ) ↔ _
  unfold Translation.declare
  cases hscopes : c.scopes with
  | nil =>
    simp only [Context.env, hscopes]
    constructor
    · rintro ⟨_, _, hrun, -⟩
      cases hrun
    · rintro ⟨⟩
  | cons scope scopes =>
    have hnames := scope.lookup_names x
    rw [Context.env, hscopes]
    constructor
    · rintro ⟨_, _, hrun, -, rfl⟩
      cases hx : scope.lookup x with
      | some old => simp [hx] at hrun
      | none =>
        simp only [hx, Option.isSome_none, Bool.false_eq_true, if_false] at hrun
        cases hrun
        exact Env.Declares.new (hnames.trans (by rw [hx]; rfl))
    · rintro ⟨hx⟩
      rw [hnames, Option.map_eq_none_iff] at hx
      exact ⟨(), _, by simp only [hx, Option.isSome_none, Bool.false_eq_true, if_false]; rfl, rfl, rfl⟩

theorem inScope (hm : Obeys m f R) (hgrowing : Growing m) :
    Obeys (inScope m) f fun Γ b Γ' => ∃ names, R ([] :: Γ) b (names :: Γ') := by
  intro c b Γ
  constructor
  · rintro ⟨a, c', hrun, rfl, rfl⟩
    obtain ⟨_, c1, h1, hrun⟩ := run_bind_some_iff.1 hrun
    cases h1
    obtain ⟨a, c2, h2, hrun⟩ := run_bind_some_iff.1 hrun
    cases hrun
    have hlength := (hgrowing _ _ _ h2).length_scopes
    have hbody := (hm ..).1 ⟨a, c2, h2, rfl, rfl⟩
    obtain ⟨scopes, pool, locals, functions⟩ := c2
    cases scopes with
    | nil => cases hlength
    | cons scope scopes => exact ⟨scope.names, hbody⟩
  · rintro ⟨names, hbody⟩
    obtain ⟨a, c2, h2, rfl, henv⟩ := (hm { c with scopes := [] :: c.scopes } b (names :: Γ)).2 hbody
    refine ⟨a, { c2 with scopes := c2.scopes.tail }, ?_, rfl, ?_⟩
    · refine run_bind_some_iff.2 ⟨(), _, rfl, run_bind_some_iff.2 ⟨a, c2, h2, rfl⟩⟩
    · have := congrArg List.tail henv
      simpa [Context.env, Scopes.env] using this

end Obeys

end Translation

open Translation

/-! ## Expressions -/

theorem exists_ite_eq_ok {p : Prop} [Decidable p] {code : List Instruction} {type τ : ValueType} {fault : Fault} :
    (∃ code', (if p then .ok (code, type) else .error fault : Except Fault _) = .ok (code', τ)) ↔ p ∧ τ = type := by
  split <;> simp_all [eq_comm]

/-- An operator other than a cast takes two numbers of one type. -/
theorem Operator.exists_code_iff {op : Operator} (hop : op ≠ .cast) (left right τ : ValueType) :
    (∃ code, op.code left right = .ok (code, τ)) ↔
      (left.isNumeric ∧ left = right) ∧ (op.isArithmetic ∧ τ = left ∨ op.level = 0 ∧ τ = .bool) := by
  cases op with
  | cast => exact absurd rfl hop
  | add | sub | mul | div =>
    simp only [Operator.code, Operator.arithmetic, exists_ite_eq_ok]
    simp [Operator.isArithmetic, Operator.level]
  | gt | lt | ge | le | eq | ne =>
    simp only [Operator.code, Operator.comparison, exists_ite_eq_ok]
    simp [Operator.isArithmetic, Operator.level]

/-- A cast takes a number to a number. -/
theorem Operator.exists_code_cast_iff (source target τ : ValueType) :
    (∃ code, Operator.code .cast source target = .ok (code, τ)) ↔ source.isNumeric ∧ target.isNumeric ∧ τ = target := by
  cases source <;> cases target <;> 
    simp only [Operator.code, castCode, ValueType.isNumeric] <;> simp <;> exact eq_comm

namespace Translation.Obeys

theorem callee (f : Bytes) : Obeys (callee f) Analysis.Callee.signature fun Γ signature Γ' =>
    Γ.signature? f = some signature ∧ Γ' = Γ := by
  refine (find? (S := fun m Γ signature Γ' => (m = some (.function signature) ∨
    m = none ∧ (Primitive.ofName? f).map Primitive.signature = some signature) ∧ Γ' = Γ) f ?_).congr fun Γ signature Γ' => ?_
  · rintro (_ | ⟨type, const, assigned, home⟩ | ⟨params, returns, number, slot⟩)
    · cases hf : Primitive.ofName? f with
      | none => exact (failure _).congr fun Γ signature Γ' => by simp
      | some primitive =>
        exact congr (slotOf _ fun _ => pure (b := primitive.signature) rfl) fun Γ signature Γ' => by simp [eq_comm]
    · exact (failure _).congr fun Γ signature Γ' => by simp [Binding.meaning]
    · exact (pure rfl).congr fun Γ signature Γ' => by simp [Binding.meaning, eq_comm]
  · rw [Env.signature?]
    rcases Γ.find? f with _ | type | signature' <;> simp

theorem operation (op : Operator) (left right : ValueType) :
    Obeys (operation op left right) Prod.snd fun Γ τ Γ' => (∃ code, op.code left right = .ok (code, τ)) ∧ Γ' = Γ := by
  unfold Translation.operation
  cases h : op.code left right with
  | ok r => exact (pure rfl).congr fun Γ τ Γ' => by simp [Prod.ext_iff, eq_comm]
  | error e => exact (failure Prod.snd).congr fun Γ τ Γ' => by simp

theorem negation (τ : ValueType) : Obeys (negation τ) Prod.fst fun Γ τ' Γ' => (τ.isNumeric ∧ τ' = τ) ∧ Γ' = Γ := by
  cases τ with
  | int | double => exact (pure rfl).congr fun Γ τ' Γ' => by simp [ValueType.isNumeric]
  | void | bool | foreign => exact (failure Prod.fst).congr fun Γ τ' Γ' => by simp [ValueType.isNumeric]

end Translation.Obeys

mutual

/-- An expression can be translated just if it has a type. -/
theorem Expr.obeys : ∀ e : Expr, e.Grouped → Obeys e.translate Prod.fst e.HasType
  | .int value, _ => by
    rw [Expr.translate]
    refine (Obeys.pure rfl).congr fun Γ τ Γ' => ⟨?_, ?_⟩
    · rintro ⟨rfl, rfl⟩
      exact .int value
    · rintro ⟨⟩
      exact ⟨rfl, rfl⟩
  | .double bits, _ => by
    rw [Expr.translate]
    refine (Obeys.pure rfl).congr fun Γ τ Γ' => ⟨?_, ?_⟩
    · rintro ⟨rfl, rfl⟩
      exact .double bits
    · rintro ⟨⟩
      exact ⟨rfl, rfl⟩
  | .text quote content, _ => by
    rw [Expr.translate]
    refine .congr (.slotOf _ fun _ => .pure rfl) fun Γ τ Γ' => ⟨?_, ?_⟩
    · rintro ⟨rfl, rfl⟩
      exact .text quote content
    · rintro ⟨⟩
      exact ⟨rfl, rfl⟩
  | .name x, _ => by
    rw [Expr.translate]
    refine (Obeys.find? (S := fun m Γ τ Γ' => (∃ const, m = some (.variable τ const true)) ∧ Γ' = Γ) x ?_).congr
      fun Γ τ Γ' => ⟨?_, ?_⟩
    · rintro (_ | ⟨type, const, _ | _, home⟩ | ⟨params, returns, number, slot⟩)
      · exact (Obeys.failure _).congr fun Γ τ Γ' => by simp
      · exact (Obeys.failure _).congr fun Γ τ Γ' => by simp [Binding.meaning]
      · exact (Obeys.pure rfl).congr fun Γ τ Γ' => by simp [Binding.meaning, eq_comm]
      · exact (Obeys.failure _).congr fun Γ τ Γ' => by simp [Binding.meaning]
    · rintro ⟨⟨const, hx⟩, rfl⟩
      exact .name hx
    · intro htype
      cases htype with
      | name hx => exact ⟨⟨_, hx⟩, rfl⟩
  | .assign x value, h => by
    rw [Expr.translate]
    refine .congr (.find? (S := fun m Γ τ Γ' => ∃ type assigned Γ1, m = some (.variable type false assigned) ∧
      value.HasType Γ type Γ1 ∧ τ = .void ∧ Γ' = Γ1.assign x) x ?_) fun Γ τ Γ' => ⟨?_, ?_⟩
    · rintro (_ | ⟨type, _ | _, assigned, home⟩ | ⟨params, returns, number, slot⟩)
      · exact (Obeys.failure _).congr fun Γ τ Γ' => by simp
      · refine .congr (.bind (S := fun τ Γ τ' Γ' => τ = type ∧ τ' = .void ∧ Γ' = Γ.assign x) (value.obeys h) fun r =>
          .require _ fun _ => .assign x fun _ => .pure rfl) fun Γ τ Γ' => ⟨?_, ?_⟩
        · rintro ⟨_, Γ1, hvalue, rfl, rfl, rfl⟩
          exact ⟨_, assigned, _, rfl, hvalue, rfl, rfl⟩
        · rintro ⟨_, _, Γ1, hm, hvalue, rfl, rfl⟩
          cases hm
          exact ⟨_, Γ1, hvalue, rfl, rfl, rfl⟩
      · exact (Obeys.failure _).congr fun Γ τ Γ' => by simp [Binding.meaning]
      · exact (Obeys.failure _).congr fun Γ τ Γ' => by simp [Binding.meaning]
    · rintro ⟨type, assigned, Γ1, hx, hvalue, rfl, rfl⟩
      exact .assign hx hvalue
    · intro htype
      cases htype with
      | assign hx hvalue => exact ⟨_, _, _, hx, hvalue, rfl, rfl⟩
  | .call f args, h => by
    rw [Expr.translate]
    refine .congr (.bind (S := fun signature Γ τ Γ' => args.HaveTypes Γ signature.params Γ' ∧ τ = signature.returns)
      (.callee f) fun c => ?_) fun Γ τ Γ' => ⟨?_, ?_⟩
    · refine .congr (.bind (S := fun count Γ τ Γ' => count = c.signature.params.length ∧ τ = c.signature.returns ∧ Γ' = Γ)
        (args.obeys c.signature.params h) fun r => .require _ fun _ => .pure rfl) fun Γ τ Γ' => ⟨?_, ?_⟩
      · rintro ⟨_, Γ1, ⟨τs, hτs, rfl, hpre⟩, hlength, rfl, rfl⟩
        have heq : τs = c.signature.params := by
          rcases hpre with hpre | hpre
          · exact hpre.eq_of_length hlength
          · exact (hpre.eq_of_length hlength.symm).symm
        exact ⟨heq ▸ hτs, rfl⟩
      · rintro ⟨hargs, rfl⟩
        exact ⟨_, _, ⟨_, hargs, rfl, .inl (List.prefix_refl _)⟩, rfl, rfl, rfl⟩
    · rintro ⟨signature, _, ⟨hf, rfl⟩, hargs, rfl⟩
      exact .call hf hargs
    · intro htype
      cases htype with
      | call hf hargs => exact ⟨_, Γ, ⟨hf, rfl⟩, hargs, rfl⟩
  | .paren e, h => by
    rw [Expr.translate]
    refine (e.obeys h).congr fun Γ τ Γ' => ⟨.paren, fun htype => ?_⟩
    cases htype with
    | paren he => exact he
  | .neg e, h => by
    rw [Expr.translate]
    refine .congr (.bind (S := fun τ Γ τ' Γ' => (τ.isNumeric ∧ τ' = τ) ∧ Γ' = Γ) (e.obeys h.2) fun r =>
      .map (.negation r.1) fun _ => rfl) fun Γ τ Γ' => ⟨?_, ?_⟩
    · rintro ⟨_, _, he, ⟨hτ, rfl⟩, rfl⟩
      exact .neg he hτ
    · intro htype
      cases htype with
      | neg he hτ => exact ⟨_, _, he, ⟨hτ, rfl⟩, rfl⟩
  | .binary op left right, h => by
    obtain ⟨hop, -, -, -, hleft, hright⟩ := h
    rw [Expr.translate]
    refine .congr (.bind (S := fun τ1 Γ1 τ Γ' => ∃ τ2 Γ2, right.HasType Γ1 τ2 Γ2 ∧
        (∃ code, op.code τ1 τ2 = .ok (code, τ)) ∧ Γ' = Γ2) (left.obeys hleft) fun r1 =>
      .bind (S := fun τ2 Γ2 τ Γ' => (∃ code, op.code r1.1 τ2 = .ok (code, τ)) ∧ Γ' = Γ2) (right.obeys hright) fun r2 =>
        .map (.operation op r1.1 r2.1) fun _ => rfl) fun Γ τ Γ' => ⟨?_, ?_⟩
    · rintro ⟨_, _, hleft, _, _, hright, hcode, rfl⟩
      obtain ⟨⟨hτ, rfl⟩, ⟨hop, rfl⟩ | ⟨hop, rfl⟩⟩ := (Operator.exists_code_iff hop _ _ _).1 hcode
      · exact .arithmetic hop hleft hright hτ
      · exact .comparison hop hleft hright hτ
    · intro htype
      cases htype with
      | arithmetic hop' hleft hright hτ =>
        exact ⟨_, _, hleft, _, _, hright, (Operator.exists_code_iff hop _ _ _).2 ⟨⟨hτ, rfl⟩, .inl ⟨hop', rfl⟩⟩, rfl⟩
      | comparison hop' hleft hright hτ =>
        exact ⟨_, _, hleft, _, _, hright, (Operator.exists_code_iff hop _ _ _).2 ⟨⟨hτ, rfl⟩, .inr ⟨hop', rfl⟩⟩, rfl⟩
  | .cast e target, h => by
    rw [Expr.translate]
    refine .congr (.bind (S := fun τ1 Γ1 τ Γ' => (∃ code, Operator.code .cast τ1 target.type = .ok (code, τ)) ∧ Γ' = Γ1)
      (e.obeys h.2.2) fun r => .map (.operation .cast r.1 target.type) fun _ => rfl) fun Γ τ Γ' => ⟨?_, ?_⟩
    · rintro ⟨_, _, he, hcode, rfl⟩
      obtain ⟨hτ, htarget, rfl⟩ := (Operator.exists_code_cast_iff _ _ _).1 hcode
      exact .cast he hτ htarget
    · intro htype
      cases htype with
      | cast he hτ htarget => exact ⟨_, _, he, (Operator.exists_code_cast_iff _ _ _).2 ⟨hτ, htarget, rfl⟩, rfl⟩

theorem Args.obeys (params : List ValueType) : ∀ args : Args, args.Grouped → Obeys (args.translate params) Prod.fst
    fun Γ count Γ' => ∃ τs, args.HaveTypes Γ τs Γ' ∧ count = τs.length ∧ (τs <+: params ∨ params <+: τs)
  | .nil, _ => by
    rw [Args.translate]
    refine .congr (.pure rfl) fun Γ count Γ' => ⟨?_, ?_⟩
    · rintro ⟨rfl, rfl⟩
      exact ⟨[], .nil, rfl, .inl (List.nil_prefix)⟩
    · rintro ⟨_, ⟨⟩, rfl, -⟩
      exact ⟨rfl, rfl⟩
  | .cons first rest, h => by
    rw [Args.translate]
    refine .congr (.bind (S := fun τ Γ1 count Γ' => (∀ wanted ∈ params.head?, τ = wanted) ∧
        ∃ n Γ2, (∃ τs, rest.HaveTypes Γ1 τs Γ2 ∧ n = τs.length ∧ (τs <+: params.tail ∨ params.tail <+: τs)) ∧
          count = n + 1 ∧ Γ' = Γ2)
      (first.obeys h.1) fun r => .require _ fun _ =>
        (.bind (S := fun n Γ2 count Γ' => count = n + 1 ∧ Γ' = Γ2) (rest.obeys params.tail h.2) fun _ => .pure rfl))
      fun Γ count Γ' => ⟨?_, ?_⟩
    · rintro ⟨τ, _, hfirst, hwanted, _, _, ⟨τs, hrest, rfl, hpre⟩, rfl, rfl⟩
      refine ⟨τ :: τs, .cons hfirst hrest, rfl, ?_⟩
      cases params with
      | nil => exact .inr List.nil_prefix
      | cons wanted params =>
        cases hwanted wanted rfl
        simpa using hpre
    · rintro ⟨τs, htypes, rfl, hpre⟩
      cases htypes with
      | cons hfirst hrest =>
        cases params with
        | nil => exact ⟨_, _, hfirst, by simp, _, _, ⟨_, hrest, rfl, .inr List.nil_prefix⟩, rfl, rfl⟩
        | cons wanted params =>
          simp only [List.cons_prefix_cons] at hpre
          have hτ := hpre.elim And.left fun h => h.1.symm
          exact ⟨_, _, hfirst, by simpa using hτ, _, _, ⟨_, hrest, rfl, hpre.imp And.right And.right⟩, rfl, rfl⟩

end

/-! ## Statements -/

theorem Translation.Obeys.test (h : e.Grouped) : Obeys (test e) (fun _ => ()) fun Γ _ Γ' => e.IsCondition Γ Γ' := by
  refine .congr (.bind (S := fun τ Γ _ Γ' => τ ≠ .void ∧ Γ' = Γ) (e.obeys h) fun r => .require _ fun _ => .done)
    fun Γ _ Γ' => ⟨?_, ?_⟩
  · rintro ⟨τ, _, he, hτ, rfl⟩
    exact ⟨τ, he, hτ⟩
  · rintro ⟨τ, he, hτ⟩
    exact ⟨τ, _, he, hτ, rfl⟩

theorem Declaration.obeys {d : Declaration} (h : d.Grouped) (home : Home) :
    Obeys (d.translate home) (fun _ => ()) fun Γ _ Γ' => d.Valid Γ Γ' := by
  cases hvalue : d.value? with
  | none =>
    simp only [Declaration.translate, hvalue]
    refine .congr (.require _ fun _ => (.and_then (.declare _ _) fun _ => .done)) fun Γ _ Γ' => ⟨?_, ?_⟩
    · rintro ⟨htype, _, hname, rfl⟩
      exact .plain hvalue htype hname
    · rintro (⟨_, htype, hname⟩ | ⟨hvalue', _, _, _⟩)
      · exact ⟨htype, _, hname, rfl⟩
      · rw [hvalue] at hvalue'
        cases hvalue'
  | some value =>
    simp only [Declaration.translate, hvalue]
    refine .congr (.require _ fun _ => (.and_then (.declare _ _) fun _ =>
      .bind (S := fun τ Γ _ Γ' => τ = d.type.type ∧ Γ' = Γ.assign d.name) (value.obeys (h value hvalue)) fun r =>
        .require _ fun _ => .assign _ fun _ => .done)) fun Γ _ Γ' => ⟨?_, ?_⟩
    · rintro ⟨htype, _, hname, _, _, he, rfl, rfl⟩
      exact .initial hvalue htype hname he
    · rintro (⟨hvalue', _, _⟩ | ⟨hvalue', htype, hname, he⟩)
      · rw [hvalue] at hvalue'
        cases hvalue'
      · rw [hvalue] at hvalue'
        cases hvalue'
        exact ⟨htype, _, hname, _, _, he, rfl, rfl⟩

theorem Declaration.obeys_local {d : Declaration} (h : d.Grouped) :
    Obeys d.translateLocal (fun _ => ()) fun Γ _ Γ' => d.Valid Γ Γ' := .idle (fun _ => ⟨_, _, rfl, rfl⟩) fun _ => d.obeys h _

/-- A condition and a block in a scope of its own, and what comes after them. -/
theorem obeys_arm {returns : ValueType} {inLoop : Bool} (he : e.Grouped)
    (hbody : Obeys (body.translate returns inLoop) (fun _ => ()) fun Γ _ Γ' => body.Valid returns inLoop Γ Γ') {γ : Type}
    {k : List Instruction → List Item → Translation γ} {S : Env → Env → Prop}
    (hk : ∀ test items, Obeys (k test items) (fun _ => ()) fun Γ _ Γ' => S Γ Γ') :
    Obeys (do
      let test ← test e
      let items ← inScope (body.translate returns inLoop)
      k test items) (fun _ => ()) fun Γ _ Γ' =>
        ∃ names Γ1 Γ2, e.IsCondition Γ Γ1 ∧ body.Valid returns inLoop ([] :: Γ1) (names :: Γ2) ∧ S Γ2 Γ' := by
  refine .congr (.and_then (.test he) fun test => .and_then (.inScope hbody (body.growing_translate returns inLoop))
    fun items => hk test items) fun Γ _ Γ' => ⟨?_, ?_⟩
  · rintro ⟨_, hcondition, _, ⟨names, hbody⟩, hS⟩
    exact ⟨names, _, _, hcondition, hbody, hS⟩
  · rintro ⟨names, _, _, hcondition, hbody, hS⟩
    exact ⟨_, hcondition, _, ⟨names, hbody⟩, hS⟩

mutual

/-- A statement can be translated just if it keeps the rules. -/
theorem Stmt.obeys (returns : ValueType) (inLoop : Bool) : ∀ s : Stmt, s.Grouped →
    Obeys (s.translate returns inLoop) (fun _ => ()) fun Γ _ Γ' => s.Valid returns inLoop Γ Γ'
  | .declare d, h => by
    rw [Stmt.translate]
    refine .congr (.map (Declaration.obeys_local h) fun _ => rfl) fun Γ _ Γ' => ⟨.declare, fun hvalid => ?_⟩
    cases hvalid with
    | declare hd => exact hd
  | .branch branches, h => by
    rw [Stmt.translate]
    refine .congr (branches.obeys returns inLoop h) fun Γ _ Γ' => ⟨.branch, fun hvalid => ?_⟩
    cases hvalid with
    | branch hb => exact hb
  | .loop condition body, h => by
    rw [Stmt.translate]
    refine .congr (obeys_arm h.1 (body.obeys returns true h.2) fun _ _ => .done) fun Γ _ Γ' => ⟨?_, fun hvalid => ?_⟩
    · rintro ⟨names, _, _, hcondition, hbody, rfl⟩
      exact .loop hcondition hbody
    · cases hvalid with
      | loop hcondition hbody => exact ⟨_, _, _, hcondition, hbody, rfl⟩
  | .break, _ => by
    rw [Stmt.translate]
    refine .congr (.require _ fun _ => .done) fun Γ _ Γ' => ⟨?_, fun hvalid => ?_⟩
    · rintro ⟨rfl, rfl⟩
      exact .break
    · cases hvalid with
      | «break» => exact ⟨rfl, rfl⟩
  | .continue, _ => by
    rw [Stmt.translate]
    refine .congr (.require _ fun _ => .done) fun Γ _ Γ' => ⟨?_, fun hvalid => ?_⟩
    · rintro ⟨rfl, rfl⟩
      exact .continue
    · cases hvalid with
      | «continue» => exact ⟨rfl, rfl⟩
  | .return none, _ => by
    rw [Stmt.translate]
    refine .congr (.require _ fun _ => .done) fun Γ _ Γ' => ⟨?_, fun hvalid => ?_⟩
    · rintro ⟨hvoid, rfl⟩
      exact .leave hvoid
    · cases hvalid with
      | leave hvoid => exact ⟨hvoid, rfl⟩
  | .return (some value), h => by
    rw [Stmt.translate]
    refine .congr (.require _ fun _ => (.bind (S := fun τ Γ _ Γ' => τ = returns ∧ Γ' = Γ) (value.obeys h) fun r =>
      .require _ fun _ => .done)) fun Γ _ Γ' => ⟨?_, fun hvalid => ?_⟩
    · rintro ⟨hvoid, _, _, hvalue, rfl, rfl⟩
      exact .result hvoid hvalue
    · cases hvalid with
      | result hvoid hvalue => exact ⟨hvoid, _, _, hvalue, rfl, rfl⟩
  | .block body, h => by
    rw [Stmt.translate]
    refine .congr (.inScope (body.obeys returns inLoop h) (body.growing_translate returns inLoop))
      fun Γ _ Γ' => ⟨fun ⟨names, hbody⟩ => .block hbody, fun hvalid => ?_⟩
    cases hvalid with
    | block hbody => exact ⟨_, hbody⟩
  | .empty, _ => by
    rw [Stmt.translate]
    refine .congr .done fun Γ _ Γ' => ⟨?_, fun hvalid => ?_⟩
    · rintro rfl
      exact .empty
    · cases hvalid with
      | empty => rfl
  | .effect e, h => by
    rw [Stmt.translate]
    refine .congr (.bind (S := fun _ Γ _ Γ' => Γ' = Γ) (e.obeys h) fun _ => .done) fun Γ _ Γ' => ⟨?_, fun hvalid => ?_⟩
    · rintro ⟨_, _, he, rfl⟩
      exact .effect he
    · cases hvalid with
      | effect he => exact ⟨_, _, he, rfl⟩

theorem Block.obeys (returns : ValueType) (inLoop : Bool) : ∀ b : Block, b.Grouped →
    Obeys (b.translate returns inLoop) (fun _ => ()) fun Γ _ Γ' => b.Valid returns inLoop Γ Γ'
  | .nil, _ => by
    rw [Block.translate]
    refine .congr .done fun Γ _ Γ' => ⟨?_, fun hvalid => ?_⟩
    · rintro rfl
      exact .nil
    · cases hvalid with
      | nil => rfl
  | .cons first rest, h => by
    rw [Block.translate]
    refine .congr (.and_then (first.obeys returns inLoop h.1) fun _ => .map (rest.obeys returns inLoop h.2) fun _ => rfl)
      fun Γ _ Γ' => ⟨?_, fun hvalid => ?_⟩
    · rintro ⟨_, hfirst, hrest⟩
      exact .cons hfirst hrest
    · cases hvalid with
      | cons hfirst hrest => exact ⟨_, hfirst, hrest⟩

theorem Branches.obeys (returns : ValueType) (inLoop : Bool) : ∀ b : Branches, b.Grouped →
    Obeys (b.translate returns inLoop) (fun _ => ()) fun Γ _ Γ' => b.Valid returns inLoop Γ Γ'
  | .only condition body, h => by
    rw [Branches.translate]
    refine .congr (obeys_arm h.1 (body.obeys returns inLoop h.2) fun _ _ => .done) fun Γ _ Γ' => ⟨?_, fun hvalid => ?_⟩
    · rintro ⟨names, _, _, hcondition, hbody, rfl⟩
      exact .only hcondition hbody
    · cases hvalid with
      | only hcondition hbody => exact ⟨_, _, _, hcondition, hbody, rfl⟩
  | .orElse condition body otherwise, h => by
    rw [Branches.translate]
    refine .congr (obeys_arm h.1 (body.obeys returns inLoop h.2.1) fun test items =>
      .map (.inScope (otherwise.obeys returns inLoop h.2.2) (otherwise.growing_translate returns inLoop)) fun _ => rfl)
      fun Γ _ Γ' => ⟨?_, fun hvalid => ?_⟩
    · rintro ⟨names, _, _, hcondition, hbody, names', hotherwise⟩
      exact .orElse hcondition hbody hotherwise
    · cases hvalid with
      | orElse hcondition hbody hotherwise => exact ⟨_, _, _, hcondition, hbody, _, hotherwise⟩
  | .orIf condition body rest, h => by
    rw [Branches.translate]
    refine .congr (obeys_arm h.1 (body.obeys returns inLoop h.2.1) fun test items =>
      .map (rest.obeys returns inLoop h.2.2) fun _ => rfl) fun Γ _ Γ' => ⟨?_, fun hvalid => ?_⟩
    · rintro ⟨names, _, _, hcondition, hbody, hrest⟩
      exact .orIf hcondition hbody hrest
    · cases hvalid with
      | orIf hcondition hbody hrest => exact ⟨_, _, _, hcondition, hbody, hrest⟩

end

/-! ## Definitions -/

/-- The parameters of a function can be declared just if none is of type `void` and no two have the same name. -/
theorem Param.exists_scope?_iff (ps : List Param) (slot : Nat) (scope : Scope) (names : Names) :
    (∃ scope', scope? slot scope ps = some scope' ∧ scope'.names = names) ↔
      (∀ p ∈ ps, p.type.type ≠ .void) ∧ (ps.map Param.name).Nodup ∧ (∀ p ∈ ps, scope.lookup p.name = none) ∧
        names = Param.names ps ++ scope.names := by
  induction ps generalizing slot scope with
  | nil =>
    simp only [scope?, Option.some.injEq, exists_eq_left']
    simpa [Param.names] using eq_comm
  | cons p ps ih =>
    rw [scope?]
    by_cases hp : p.type.type = .void ∨ (scope.lookup p.name).isSome
    · rw [if_pos hp]
      constructor
      · rintro ⟨_, h, -⟩
        cases h
      · rintro ⟨hvoid, -, hnew, -⟩
        rcases hp with hp | hp
        · exact absurd hp (hvoid p (List.mem_cons_self ..))
        · rw [hnew p (List.mem_cons_self ..)] at hp
          cases hp
    · obtain ⟨hvoid, hnew⟩ := not_or.1 hp
      rw [Bool.not_eq_true, Option.isSome_eq_false_iff, Option.isNone_iff_eq_none] at hnew
      have hlookup (binding : Binding) (q : Param) : List.lookup q.name ((p.name, binding) :: scope) = none ↔
          p.name ≠ q.name ∧ scope.lookup q.name = none := by
        by_cases h : q.name = p.name
        · simp [h]
        · have hne : (q.name == p.name) = false := by simpa using h
          rw [List.lookup_cons, hne]
          exact ⟨fun hnone => ⟨Ne.symm h, hnone⟩, And.right⟩
      have hnames : Param.names (p :: ps) = Param.names ps ++
        [(p.name, .variable p.type.type p.const true)] := by simp [Param.names]
      rw [if_neg hp, ih, hnames]
      simp only [hlookup, List.forall_mem_cons, List.map_cons, List.nodup_cons, List.mem_map, hvoid, hnew, not_exists, not_and,
        ne_eq, not_false_eq_true, true_and, List.append_assoc, List.singleton_append]
      constructor
      · rintro ⟨hvoids, hnodup, hfresh, rfl⟩
        exact ⟨hvoids, ⟨fun q hq heq => (hfresh q hq).1 heq.symm, hnodup⟩, fun q hq => (hfresh q hq).2, rfl⟩
      · rintro ⟨hvoids, ⟨hfirst, hnodup⟩, hfresh, rfl⟩
        exact ⟨hvoids, hnodup, fun q hq => ⟨fun heq => hfirst q hq heq.symm, hfresh q hq⟩, rfl⟩

mutual

/-- Outside of loops a statement leaves only by returning, and it does so on every path just if its flow says so. -/
theorem Stmt.flow_of_valid {returns : ValueType} : ∀ {s : Stmt} {Γ Γ' : Env}, s.Valid returns false Γ Γ' →
    s.flow.breaks = false ∧ (s.flow.returns = true ↔ s.Returns)
  | .declare _, _, _, _ | .loop _ _, _, _, _ | .empty, _, _, _ | .effect _, _, _, _ => by
    refine ⟨rfl, ?_⟩
    simp only [Stmt.flow, Bool.false_eq_true, false_iff]
    nofun
  | .branch branches, _, _, .branch h => by
    obtain ⟨hbreaks, hreturns⟩ := Branches.flow_of_valid h
    rw [Stmt.flow]
    exact ⟨hbreaks, hreturns.trans ⟨.branch, fun | .branch h => h⟩⟩
  | .return value, _, _, _ => ⟨rfl, by simpa [Stmt.flow] using .return value⟩
  | .block body, _, _, .block h => by
    obtain ⟨hbreaks, hreturns⟩ := Block.flow_of_valid h
    rw [Stmt.flow]
    exact ⟨hbreaks, hreturns.trans ⟨.block, fun | .block h => h⟩⟩

theorem Block.flow_of_valid {returns : ValueType} : ∀ {b : Block} {Γ Γ' : Env}, b.Valid returns false Γ Γ' →
    b.flow.breaks = false ∧ (b.flow.returns = true ↔ b.Returns)
  | .nil, _, _, _ => ⟨rfl, by simp only [Block.flow, Bool.false_eq_true, false_iff]; nofun⟩
  | .cons first rest, _, _, .cons hfirst hrest => by
    obtain ⟨hbreaks, hreturns⟩ := Stmt.flow_of_valid hfirst
    obtain ⟨hbreaks', hreturns'⟩ := Block.flow_of_valid hrest
    rw [Block.flow]
    split
    · rename_i hleaves
      have hr : first.flow.returns = true := by simpa [Flow.leaves, hbreaks] using hleaves
      exact ⟨hbreaks, fun _ => .first (hreturns.1 hr), fun _ => hr⟩
    · rename_i hleaves
      have hr : ¬ first.Returns := by simpa [Flow.leaves, hbreaks, ← hreturns] using hleaves
      refine ⟨hbreaks', hreturns'.trans ⟨.rest, fun h => ?_⟩⟩
      cases h with
      | first h => exact absurd h hr
      | rest h => exact h

theorem Branches.flow_of_valid {returns : ValueType} : ∀ {b : Branches} {Γ Γ' : Env}, b.Valid returns false Γ Γ' →
    b.flow.breaks = false ∧ (b.flow.returns = true ↔ b.Returns)
  | .only _ _, _, _, _ => ⟨rfl, by simp only [Branches.flow, Bool.false_eq_true, false_iff]; nofun⟩
  | .orElse _ body otherwise, _, _, .orElse _ hbody hotherwise => by
    obtain ⟨hbreaks, hreturns⟩ := Block.flow_of_valid hbody
    obtain ⟨hbreaks', hreturns'⟩ := Block.flow_of_valid hotherwise
    rw [Branches.flow]
    refine ⟨by simp [Flow.both, hbreaks], ?_⟩
    simp only [Flow.both, Bool.and_eq_true, hreturns, hreturns']
    exact ⟨fun ⟨h, h'⟩ => .orElse h h', fun | .orElse h h' => ⟨h, h'⟩⟩
  | .orIf _ body rest, _, _, .orIf _ hbody hrest => by
    obtain ⟨hbreaks, hreturns⟩ := Block.flow_of_valid hbody
    obtain ⟨hbreaks', hreturns'⟩ := Branches.flow_of_valid hrest
    rw [Branches.flow]
    refine ⟨by simp [Flow.both, hbreaks], ?_⟩
    simp only [Flow.both, Bool.and_eq_true, hreturns, hreturns']
    exact ⟨fun ⟨h, h'⟩ => .orIf h h', fun | .orIf h h' => ⟨h, h'⟩⟩

end

theorem Scopes.env_eq_singleton {scopes : Scopes} {names : Names} :
    scopes.env = [names] ↔ ∃ scope, scopes = [scope] ∧ scope.names = names := by
  simp [Scopes.env, List.map_eq_singleton_iff]

theorem Context.env_signed (c : Context) (scope : Scope) (f : Bytes) (binding : Binding) (outer : Scope) :
    (c.signed scope f binding outer).env = [scope.names, (f, binding.meaning) :: outer.names] := rfl

/-- A function can be translated just if it keeps the rules. -/
theorem Definition.exists_run_function_iff (hc : c.scopes = [outer]) {f : Bytes} {params : List Param} {returns : TypeName}
    (hbody : body.Grouped) (names : Names) :
    (∃ output c', (Definition.function f params returns body).translate.run c = some (output, c') ∧ c'.env = [names]) ↔
      (Definition.function f params returns body).Valid outer.names names := by
  rw [Definition.run_translate_function hc]
  constructor
  · rintro ⟨output, c', hrun, henv⟩
    split at hrun
    · cases hrun
    · rename_i hf
      obtain ⟨scope, hscope, hrun⟩ := Option.bind_eq_some_iff.1 hrun
      obtain ⟨items, c1, hitems, hrun⟩ := run_bind_some_iff.1 hrun
      obtain ⟨_, c2, hpop, hrun⟩ := run_bind_some_iff.1 hrun
      cases hpop
      rw [run_require_bind] at hrun
      split at hrun
      · rename_i hreturns
        cases hrun
        obtain ⟨hvoid, hnodup, -, hnames⟩ := (Param.exists_scope?_iff params _ [] _).1 ⟨scope, hscope, rfl⟩
        have hvalid := (body.obeys returns.type false hbody _ _ _).1 ⟨items, c1, hitems, rfl, rfl⟩
        obtain ⟨inner, outer', hscopes, -⟩ := (body.growing_translate _ _ _ _ _ hitems).of_signed
        obtain ⟨_, houter, rfl⟩ := Scopes.env_eq_singleton.1 henv
        simp only [hscopes, List.tail_cons, List.cons.injEq, and_true] at houter
        subst houter
        have hinner : scope.names = Param.names params := by simpa [Scope.names] using hnames
        rw [Context.env_signed, hinner, Context.env, hscopes] at hvalid
        refine .function ?_ hvoid hnodup hvalid fun hne => ?_
        · rw [Bool.not_eq_true, Option.isSome_eq_false_iff, Option.isNone_iff_eq_none] at hf
          rw [Scope.lookup_names, hf]
          rfl
        · exact (Block.flow_of_valid hvalid).2.1 (hreturns.resolve_right hne)
      · cases hrun
  · intro hvalid
    cases hvalid with
    | @function _ _ inner _ _ _ _ hf hvoid hnodup hvalid hreturns =>
      rw [Scope.lookup_names, Option.map_eq_none_iff] at hf
      obtain ⟨scope, hscope, hnames⟩ := (Param.exists_scope?_iff params returns.type.slots [] (Param.names params)).2
        ⟨hvoid, hnodup, by simp, by simp [Scope.names]⟩
      have hflow := (Block.flow_of_valid hvalid).2
      rw [← hnames] at hvalid
      let c0 : Context := Context.signed { c with pool := c.pool ++ [.function f], locals := 0, functions := c.functions + 1 }
        scope f
        (.function (params.map (·.type.type)) returns.type c.functions c.pool.length) outer
      obtain ⟨items, c1, hitems, -, henv⟩ := (body.obeys returns.type false hbody c0 () [inner, names]).2 hvalid
      have hreturn : body.flow.returns = true ∨ returns.type = .void := by
        by_cases hne : returns.type = .void
        · exact .inr hne
        · exact .inl (hflow.2 (hreturns hne))
      rw [hf, if_neg (by simp), hscope, Option.bind_some, run_bind_of_some hitems, run_bind_of_some rfl,
        run_require_bind, if_pos hreturn]
      exact ⟨_, _, rfl, by simpa [Context.env, Scopes.env] using congrArg List.tail henv⟩

/-- A definition can be translated just if it keeps the rules. -/
theorem Definition.exists_run_iff {d : Definition} (hd : d.Grouped) (hc : c.scopes = [outer]) (names : Names) :
    (∃ output c', d.translate.run c = some (output, c') ∧ c'.env = [names]) ↔ d.Valid outer.names names := by
  cases d with
  | function f params returns body => exact exists_run_function_iff hc hd names
  | global d =>
    have hobeys : Obeys (Definition.global d).translate (fun _ => ()) fun Γ _ Γ' => d.Valid Γ Γ' :=
      .idle (fun _ => ⟨_, _, rfl, rfl⟩) fun _ => .map (d.obeys hd _) fun _ => rfl
    have henv : c.env = [outer.names] := by rw [Context.env, hc]; rfl
    constructor
    · rintro ⟨output, c', hrun, hnames⟩
      exact .global (henv ▸ (hobeys c () [names]).1 ⟨output, c', hrun, rfl, hnames⟩)
    · intro hvalid
      cases hvalid with
      | global hvalid =>
        obtain ⟨output, c', hrun, -, hnames⟩ := (hobeys c () [names]).2 (henv ▸ hvalid)
        exact ⟨output, c', hrun, hnames⟩

/-- The definitions of a program can be translated just if they keep the rules. -/
theorem Source.exists_run_iff (p : Source) (hp : p.Grouped) {c : Context} {outer : Scope}
    (hc : c.scopes = [outer]) (names : Names) :
    (∃ outputs c', p.outputs.run c = some (outputs, c') ∧ c'.env = [names]) ↔ p.Valid outer.names names := by
  induction p generalizing c outer with
  | nil =>
    have henv : c.env = [outer.names] := by rw [Context.env, hc]; rfl
    constructor
    · rintro ⟨_, _, hrun, hnames⟩
      cases hrun
      rw [henv] at hnames
      cases hnames
      exact .nil
    · intro hvalid
      cases hvalid with
      | nil => exact ⟨[], c, rfl, henv⟩
  | cons d ds ih =>
    obtain ⟨hd, hds⟩ := List.forall_mem_cons.1 hp
    constructor
    · rintro ⟨_, c', hrun, hnames⟩
      obtain ⟨output, c1, hrun1, hrun⟩ := run_bind_some_iff.1 hrun
      obtain ⟨outputs, c2, hrun2, hrun⟩ := run_bind_some_iff.1 hrun
      cases hrun
      obtain ⟨outer1, hc1⟩ : ∃ outer1, c1.scopes = [outer1] :=
        List.length_eq_one_iff.1 ((Definition.length_scopes_translate hrun1).trans (by rw [hc]; rfl))
      have hvalid := (d.exists_run_iff hd hc outer1.names).1 ⟨output, c1, hrun1, Scopes.env_eq_singleton.2 ⟨outer1, hc1, rfl⟩⟩
      exact .cons hvalid ((ih hds hc1).1 ⟨outputs, c', hrun2, hnames⟩)
    · intro hvalid
      cases hvalid with
      | cons hvalid hrest =>
        obtain ⟨output, c1, hrun1, hnames1⟩ := (d.exists_run_iff hd hc _).2 hvalid
        obtain ⟨outer1, hc1, rfl⟩ := Scopes.env_eq_singleton.1 hnames1
        obtain ⟨outputs, c2, hrun2, hnames2⟩ := (ih hds hc1).2 hrest
        exact ⟨output :: outputs, c2, run_bind_some_iff.2 ⟨_, _, hrun1, run_bind_some_iff.2 ⟨_, _, hrun2, rfl⟩⟩, hnames2⟩

theorem Source.obeys_mainCall : Obeys mainCall (fun _ => ()) fun Γ _ Γ' =>
    (∃ returns, Γ.find? Analysis.mainName = some (.function ⟨[], returns⟩)) ∧ Γ' = Γ := by
  refine .find? (S := fun m Γ _ Γ' => (∃ returns, m = some (.function ⟨[], returns⟩)) ∧ Γ' = Γ) Analysis.mainName ?_
  rintro (_ | ⟨type, const, assigned, home⟩ | ⟨_ | ⟨param, params⟩, returns, number, slot⟩)
  · exact (Obeys.failure _).congr fun Γ _ Γ' => by simp
  · exact (Obeys.failure _).congr fun Γ _ Γ' => by simp [Binding.meaning]
  · exact Obeys.done.congr fun Γ _ Γ' => by simp [Binding.meaning]
  · exact (Obeys.failure _).congr fun Γ _ Γ' => by simp [Binding.meaning]

/-- A program can be translated just if it keeps the static rules. -/
theorem Source.exists_translate_iff {p : Source} (hp : p.Grouped) : (∃ program, p.translate = some program) ↔ p.WellFormed := by
  have hfind (names : Names) (x : Bytes) : Env.find? [names] x = names.lookup x := by simp [Env.find?]
  have houtputs := p.exists_run_iff hp (show start.scopes = [[]] from rfl)
  constructor
  · rintro ⟨program, h⟩
    obtain ⟨⟨r, c'⟩, hrun, -⟩ := Option.bind_eq_some_iff.1 h
    obtain ⟨outputs, c1, hrun1, hrun⟩ := run_bind_some_iff.1 hrun
    obtain ⟨call, c2, hrun2, -⟩ := run_bind_some_iff.1 hrun
    obtain ⟨outer, hc1⟩ : ∃ outer, c1.scopes = [outer] := List.length_eq_one_iff.1 (p.changes_outputs hrun1).1
    have henv : c1.env = [outer.names] := Scopes.env_eq_singleton.2 ⟨outer, hc1, rfl⟩
    obtain ⟨⟨returns, hmain⟩, -⟩ := (obeys_mainCall c1 () _).1 ⟨call, c2, hrun2, rfl, rfl⟩
    rw [henv, hfind] at hmain
    exact ⟨outer.names, returns, (houtputs _).1 ⟨outputs, c1, hrun1, henv⟩, hmain⟩
  · rintro ⟨names, returns, hvalid, hmain⟩
    obtain ⟨outputs, c1, hrun1, henv⟩ := (houtputs names).2 hvalid
    obtain ⟨call, c2, hrun2, -⟩ := (obeys_mainCall c1 () c1.env).2 ⟨⟨returns, by rw [henv, hfind, hmain]⟩, rfl⟩
    have hrun : (do return (← p.outputs, ← mainCall) : Translation _).run start = some ((outputs, call), c2) :=
      run_bind_some_iff.2 ⟨outputs, c1, hrun1, run_bind_some_iff.2 ⟨call, c2, hrun2, rfl⟩⟩
    rw [Source.translate, hrun]
    exact ⟨_, rfl⟩

/-- An analysis accepts a list of tokens just if those before its end are the terminals of a program under the grammar that keeps
the static rules. -/
theorem analyze_accepts_iff (tokens : List Token) :
    (∃ program, analyze (Replay.ofTokens tokens) = .ok program) ↔
      ∃ p : Source, p.Grouped ∧ (tokens.takeWhile Replay.isInner).map Token.terminal = p.yield ∧ p.WellFormed := by
  constructor
  · rintro ⟨program, h⟩
    obtain ⟨p, hp, hy, hstop⟩ := analyze_reads h
    refine ⟨p, hp, hy, (Source.exists_translate_iff hp).1 ⟨program, ?_⟩⟩
    rw [← analyze_toOption hp hy hstop, h]
    rfl
  · rintro ⟨p, hp, hy, hwell⟩
    obtain ⟨program, htranslate⟩ := (Source.exists_translate_iff hp).2 hwell
    refine ⟨program, ?_⟩
    have hoption : (analyze (Replay.ofTokens tokens)).toOption = p.translate := analyze_toOption hp hy ⟨_, rfl⟩
    rw [htranslate] at hoption
    cases h : analyze (Replay.ofTokens tokens) with
    | error e => simp [h, Except.toOption] at hoption
    | ok program' =>
      rw [h] at hoption
      cases hoption
      rfl

end OnePass

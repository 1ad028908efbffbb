import OnePass.Proofs.Shapes.Code
import OnePass.Proofs.Shapes.Comparisons
import OnePass.Proofs.Typing.Rules

/-!
# What code does with variables

The code of a tree reads a variable by its address and a load right behind it; any other address waits for a store. So what code
may do with variables and functions (`Access`) can be seen from its instructions one by one (`Accesses`). The code of an
expression with a value waits for no store at all, and reads only variables that have a value.
-/

namespace OnePass

variable {code : List Instruction} {left right τ : ValueType} {i : Instruction} {items : List Item} {op : Operator} {R : Access}
  {place : Nat}

/-! ## What expressions read -/

mutual

/-- The variables that an expression reads. -/
def Expr.reads : Expr → List Bytes
  | .int _ | .double _ | .text _ _ => []
  | .name x => [x]
  | .assign _ value => value.reads
  | .call _ args => args.reads
  | .paren e | .neg e | .cast e _ => e.reads
  | .binary _ left right => left.reads ++ right.reads

/-- The variables that arguments read. -/
def Args.reads : Args → List Bytes
  | .nil => []
  | .cons first rest => first.reads ++ rest.reads

end

mutual

/-- The expression assigns to no variable. -/
def Expr.IsPure : Expr → Prop
  | .int _ | .double _ | .text _ _ | .name _ => True
  | .assign _ _ => False
  | .call _ args => args.IsPure
  | .paren e | .neg e | .cast e _ => e.IsPure
  | .binary _ left right => left.IsPure ∧ right.IsPure

/-- The arguments assign to no variable. -/
def Args.IsPure : Args → Prop
  | .nil => True
  | .cons first rest => first.IsPure ∧ rest.IsPure

end

theorem Operator.ne_void_of_code (h : op.code left right = .ok (code, τ)) (hcast : op ≠ .cast) :
    left ≠ .void ∧ right ≠ .void := by
  rcases code_ok h hcast with ⟨_, _, -, h⟩ | ⟨-, h⟩
  · rcases arithmetic_ok h with ⟨rfl, rfl, -, -⟩ | ⟨rfl, rfl, -, -⟩ <;> exact ⟨nofun, nofun⟩
  · rcases (comparison_ok h).1 with ⟨rfl, rfl, -⟩ | ⟨rfl, rfl, -⟩ <;> exact ⟨nofun, nofun⟩

theorem Operator.ne_void_of_cast (h : Operator.cast.code left right = .ok (code, τ)) : left ≠ .void := by
  rcases (cast_ok h).2 with ⟨-, rfl | rfl, -⟩ | ⟨rfl, -, -⟩ | ⟨rfl, -, -⟩ <;> nofun

theorem Signature.IsPlain.ne_void {s : Signature} (h : s.IsPlain) (hτ : τ ∈ s.params) : τ ≠ .void := by
  rcases h.1 τ hτ with rfl | rfl <;> nofun

section

variable {D : Declared} {P : List PoolEntry} {N : Scope}

mutual

/-- An assignment has no value, so there is none in an expression that has one. -/
theorem Expr.isPure_of_emits (hN : N.Fits D) : ∀ (e : Expr) {τ code}, e.Emits P N τ code → τ ≠ .void → e.IsPure
  | .int _, _, _, .int _, _ | .double _, _, _, .double _, _ | .text _ _, _, _, .text _ _, _ | .name _, _, _, .name _, _ => trivial
  | .assign _ _, _, _, .assign _ _, hτ => absurd rfl hτ
  | .call _ args, _, _, .function hf hargs, _ => args.isPure_of_emits hN hargs fun _ hτ => (hN.of_lookup hf).2.2.ne_void hτ
  | .call _ args, _, _, .primitive _ _ _ hargs, _ => args.isPure_of_emits hN hargs fun _ hτ =>
      (Primitive.isPlain_signature _).ne_void hτ
  | .paren e, _, _, .paren he, hτ => e.isPure_of_emits hN he hτ
  | .neg e, _, _, .negInt he, _ => e.isPure_of_emits hN he nofun
  | .neg e, _, _, .negDouble he, _ => e.isPure_of_emits hN he nofun
  | .binary _ left right, _, _, .binary hcast hleft hright hop, _ =>
    have hne := Operator.ne_void_of_code hop hcast
    ⟨left.isPure_of_emits hN hleft hne.1, right.isPure_of_emits hN hright hne.2⟩
  | .cast e _, _, _, .cast he hop, _ => e.isPure_of_emits hN he (Operator.ne_void_of_cast hop)

theorem Args.isPure_of_emits (hN : N.Fits D) : ∀ (args : Args) {params code}, args.Emits P N params code →
    (∀ τ ∈ params, τ ≠ .void) → args.IsPure
  | .nil, _, _, .nil, _ => trivial
  | .cons first rest, _, _, .cons hfirst hrest, hparams =>
    have ⟨hτ, hparams⟩ := List.forall_mem_cons.1 hparams
    ⟨first.isPure_of_emits hN hfirst hτ, rest.isPure_of_emits hN hrest hparams⟩

end

end

/-- The name is that of a variable that has a value. -/
def Env.HasValue (Γ : Env) (x : Bytes) : Prop := ∃ τ const, Γ.find? x = some (.variable τ const true)

mutual

/-- An expression without assignments reads only variables that have a value before it. -/
theorem Expr.hasValue_of_reads : ∀ (e : Expr) {Γ Γ' τ}, e.HasType Γ τ Γ' → e.IsPure →
    Γ' = Γ ∧ ∀ x ∈ e.reads, Γ.HasValue x
  | .int _, _, _, _, .int _, _ | .double _, _, _, _, .double _, _ | .text _ _, _, _, _, .text _ _, _ => ⟨rfl, nofun⟩
  | .name _, _, _, _, .name hx, _ => ⟨rfl, List.forall_mem_singleton.2 ⟨_, _, hx⟩⟩
  | .assign _ _, _, _, _, .assign _ _, h => h.elim
  | .call _ args, _, _, _, .call _ hargs, h => args.hasValue_of_reads hargs h
  | .paren e, _, _, _, .paren he, h => e.hasValue_of_reads he h
  | .neg e, _, _, _, .neg he _, h => e.hasValue_of_reads he h
  | .binary _ left right, _, _, _, .arithmetic _ hleft hright _, h | .binary _ left right, _, _, _,
      .comparison _ hleft hright _, h => by
    obtain ⟨rfl, hreads⟩ := left.hasValue_of_reads hleft h.1
    obtain ⟨rfl, hreads'⟩ := right.hasValue_of_reads hright h.2
    exact ⟨rfl, List.forall_mem_append.2 ⟨hreads, hreads'⟩⟩
  | .cast e _, _, _, _, .cast he _ _, h => e.hasValue_of_reads he h

theorem Args.hasValue_of_reads : ∀ (args : Args) {Γ Γ' τs}, args.HaveTypes Γ τs Γ' → args.IsPure →
    Γ' = Γ ∧ ∀ x ∈ args.reads, Γ.HasValue x
  | .nil, _, _, _, .nil, _ => ⟨rfl, nofun⟩
  | .cons first rest, _, _, _, .cons hfirst hrest, h => by
    obtain ⟨rfl, hreads⟩ := first.hasValue_of_reads hfirst h.1
    obtain ⟨rfl, hreads'⟩ := rest.hasValue_of_reads hrest h.2
    exact ⟨rfl, List.forall_mem_append.2 ⟨hreads, hreads'⟩⟩

end

/-! ## Accesses -/

/-- What code may do. -/
structure Access where
  reads : Home → Prop
  writes : Home → Prop
  calls : Nat → Prop
  /-- The code may store, branch and return. -/
  acts : Prop

/-- The operation neither takes nor makes an address, and goes on to the next instruction. -/
def Opcode.isSilent : Opcode → Bool
  | load | store | locA | argA | globA | call => false
  | op => op.isOrdinary

/-- The item by itself does no more than it may. -/
inductive Access.Allows (R : Access) : Item → Prop where
  | address {home : Home} (hhome : R.writes home) : Allows R (.instr home.address)
  | call {number : Nat} (hnumber : R.calls number) : Allows R (.instr (.withNat .call number))
  | act {item : Item} (hop : item.op = .store ∨ item.op.isOrdinary = false) (hacts : R.acts) : Allows R item
  | silent {item : Item} (hop : item.op.isSilent = true) : Allows R item

/-- The items do no more than they may. An address is that of a variable that is read at once, or of one that may be written. -/
inductive Accesses (R : Access) : List Item → Prop where
  | nil : Accesses R []
  | load {home : Home} {items : List Item} (hhome : R.reads home) (h : Accesses R items) :
    Accesses R (.instr home.address :: .instr { op := .load } :: items)
  | cons {item : Item} {items : List Item} (hitem : R.Allows item) (h : Accesses R items) : Accesses R (item :: items)

theorem Home.op_address (home : Home) : home.address.op = .globA ∨ home.address.op = .locA ∨ home.address.op = .argA := by
  cases home with
  | «global» => exact .inl rfl
  | «local» => exact .inr (.inl rfl)
  | argument => exact .inr (.inr rfl)

namespace Accesses

variable {R : Access} {items more : List Item}

theorem append (h : Accesses R items) (hmore : Accesses R more) : Accesses R (items ++ more) := by
  induction h with
  | nil => exact hmore
  | load hhome _ ih => exact .load hhome ih
  | cons hitem _ ih => exact .cons hitem ih

/-- Items do the same when they are completed, which changes branches only. -/
theorem close (h : Accesses R items) {complete : Nat → Item → Instruction} (hinstr : ∀ n i, complete n (.instr i) = i)
    (hop : ∀ n item, (complete n item).op = item.op) : Accesses R (plain (items.mapIdx complete)) := by
  induction h generalizing complete with
  | nil => exact .nil
  | load hhome _ ih =>
    rw [List.mapIdx_cons, List.mapIdx_cons, hinstr, hinstr]
    exact .load hhome (ih (fun n => hinstr (n + 1 + 1)) fun n => hop (n + 1 + 1))
  | @cons item _ hitem _ ih =>
    rw [List.mapIdx_cons]
    refine .cons ?_ (ih (fun n => hinstr (n + 1)) fun n => hop (n + 1))
    have hsame : (Item.instr (complete 0 item)).op = item.op := hop 0 item
    cases hitem with
    | address hhome => exact hinstr 0 _ ▸ .address hhome
    | call hnumber => exact hinstr 0 _ ▸ .call hnumber
    | act hitem hacts => exact .act (hsame ▸ hitem) hacts
    | silent hitem => exact .silent (hsame ▸ hitem)

end Accesses

/-- What an instruction does among items. -/
inductive Access.Does (R : Access) (items : List Item) (place : Nat) (i : Instruction) : Prop where
  | load {before : Nat} {home : Home} (hop : i.op = .load) (hplace : place = before + 1)
    (hbefore : items[before]? = some (.instr home.address)) (hhome : R.reads home)
  | read {home : Home} (hi : i = home.address) (hnext : items[place + 1]? = some (.instr { op := .load })) (hhome : R.reads home)
  | alone (hi : R.Allows (.instr i))

theorem Access.Does.cons (h : R.Does items place i) (item : Item) : R.Does (item :: items) (place + 1) i := by
  cases h with
  | load hop hplace hbefore hhome =>
    subst hplace
    exact .load hop rfl hbefore hhome
  | read hi hnext hhome => exact .read hi hnext hhome
  | alone hi => exact .alone hi

/-- Every instruction does what it may. -/
theorem Accesses.does (h : Accesses R items) (hi : items[place]? = some (.instr i)) : R.Does items place i := by
  induction h generalizing place with
  | nil => cases hi
  | @load home items hhome h ih =>
    rcases place with _ | _ | place
    · exact .read (Item.instr.inj (Option.some.inj hi)).symm rfl hhome
    · obtain rfl := Item.instr.inj (Option.some.inj hi)
      exact .load rfl rfl rfl hhome
    · exact ((ih hi).cons _).cons _
  | cons hitem h ih =>
    rcases place with _ | place
    · exact .alone (Option.some.inj hi ▸ hitem)
    · exact (ih hi).cons _

/-! ## The code of trees -/

section

variable {R : Access} {P : List PoolEntry} {N : Scope}

/-- If the name is that of a variable, it may be read. -/
def Scope.Reads (R : Access) (N : Scope) (x : Bytes) : Prop :=
  ∀ {type const assigned home}, N.lookup x = some (.variable type const assigned home) → R.reads home

/-- Every variable that is no constant may be written. -/
def Scope.Writes (R : Access) (N : Scope) : Prop :=
  ∀ {x type assigned home}, N.lookup x = some (.variable type false assigned home) → R.writes home

/-- Every function may be called. -/
def Scope.Calls (R : Access) (N : Scope) : Prop :=
  ∀ {f params returns number slot}, N.lookup f = some (.function params returns number slot) → R.calls number

theorem Operator.isSilent_of_code {τ1 τ2 : ValueType} (h : op.code τ1 τ2 = .ok (code, τ)) : ∀ i ∈ code, i.op.isSilent = true := by
  cases op <;> cases τ1 <;> cases τ2 <;> cases h <;> decide

theorem Accesses.of_isSilent (h : ∀ i ∈ code, i.op.isSilent = true) : Accesses R (plain code) := by
  induction code with
  | nil => exact .nil
  | cons i code ih => exact .cons (.silent (h i List.mem_cons_self)) (ih fun j hj => h j (List.mem_cons_of_mem i hj))

theorem Accesses.join {more : List Instruction} (h : Accesses R (plain code)) (hmore : Accesses R (plain more)) :
    Accesses R (plain (code ++ more)) := by
  rw [plain_append]
  exact h.append hmore

theorem Accesses.singleton {item : Item} (h : R.Allows item) : Accesses R [item] := .cons h .nil

mutual

/-- The code of an expression reads and calls what it may, and stores only if it may. -/
theorem Expr.accesses_of_emits (hcalls : N.Calls R) : ∀ (e : Expr) {τ code}, e.Emits P N τ code →
    (∀ x ∈ e.reads, N.Reads R x) → (e.IsPure ∨ R.acts ∧ N.Writes R) → Accesses R (plain code)
  | .int _, _, _, .int _, _, _ | .double _, _, _, .double _, _, _ | .text _ _, _, _, .text _ _, _, _ => .singleton (.silent rfl)
  | .name _, _, _, .name hx, hreads, _ => .load (hreads _ (List.mem_singleton_self _) hx) .nil
  | .assign _ value, _, _, .assign hx hvalue, hreads, hwrites => by
    obtain ⟨hacts, hwrites⟩ := hwrites.resolve_left id
    have hcode := value.accesses_of_emits hcalls hvalue hreads (.inr ⟨hacts, hwrites⟩)
    exact .cons (.address (hwrites hx)) (hcode.join (.singleton (.act (.inl rfl) hacts)))
  | .call _ args, _, _, .function hf hargs, hreads, hwrites => by
    have hcode := args.accesses_of_emits hcalls hargs hreads hwrites
    exact .cons (.silent rfl) (hcode.join (.singleton (.call (hcalls hf))))
  | .call _ args, _, _, .primitive _ _ _ hargs, hreads, hwrites => by
    have hcode := args.accesses_of_emits hcalls hargs hreads hwrites
    exact .cons (.silent rfl) (hcode.join (.singleton (.silent rfl)))
  | .paren e, _, _, .paren he, hreads, hwrites => e.accesses_of_emits hcalls he hreads hwrites
  | .neg e, _, _, .negInt he, hreads, hwrites | .neg e, _, _, .negDouble he, hreads, hwrites =>
    (e.accesses_of_emits hcalls he hreads hwrites).join (.singleton (.silent rfl))
  | .binary _ left right, _, _, .binary _ hleft hright hop, hreads, hwrites => by
    obtain ⟨hreads, hreads'⟩ := List.forall_mem_append.1 hreads
    have hcode := left.accesses_of_emits hcalls hleft hreads (hwrites.imp_left And.left)
    have hcode' := right.accesses_of_emits hcalls hright hreads' (hwrites.imp_left And.right)
    exact (hcode.join hcode').join (.of_isSilent (Operator.isSilent_of_code hop))
  | .cast e _, _, _, .cast he hop, hreads, hwrites =>
    (e.accesses_of_emits hcalls he hreads hwrites).join (.of_isSilent (Operator.isSilent_of_code hop))

theorem Args.accesses_of_emits (hcalls : N.Calls R) : ∀ (args : Args) {params code},
    args.Emits P N params code → (∀ x ∈ args.reads, N.Reads R x) → (args.IsPure ∨ R.acts ∧ N.Writes R) → Accesses R (plain code)
  | .nil, _, _, .nil, _, _ => .nil
  | .cons first rest, _, _, .cons hfirst hrest, hreads, hwrites => by
    obtain ⟨hreads, hreads'⟩ := List.forall_mem_append.1 hreads
    have hcode := first.accesses_of_emits hcalls hfirst hreads (hwrites.imp_left And.left)
    have hcode' := rest.accesses_of_emits hcalls hrest hreads' (hwrites.imp_left And.right)
    exact hcode.join hcode'

end

/-! ## Functions -/

/-- A function may do with its own variables what it likes. -/
structure Access.Owns (R : Access) : Prop where
  acts : R.acts
  reads {home : Home} (h : ∀ slot, home ≠ .global slot) : R.reads home
  writes {home : Home} (h : ∀ slot, home ≠ .global slot) : R.writes home

theorem Access.Owns.branch (hR : R.Owns) {item : Item} (h : item.op.isOrdinary = false) : R.Allows item := .act (.inr h) hR.acts

/-- What the name stands for may be used. -/
def Binding.Permitted (R : Access) : Binding → Prop
  | .variable _ const _ home => R.reads home ∧ (const = false → R.writes home)
  | .function _ _ number _ => R.calls number

/-- All names may be used. -/
def Scope.Permits (R : Access) (N : Scope) : Prop := ∀ entry ∈ N, entry.2.Permitted R

theorem Scope.Permits.of_lookup (hN : N.Permits R) {x : Bytes} {binding : Binding} (h : N.lookup x = some binding) :
    binding.Permitted R := by
  obtain ⟨before, after, rfl, -⟩ := List.lookup_eq_some_iff.1 h
  exact hN (x, binding) (by simp)

theorem Access.Owns.permitted (hR : R.Owns) {type : ValueType} {const assigned : Bool} {home : Home}
    (h : ∀ slot, home ≠ .global slot) :
    (Binding.variable type const assigned home).Permitted R := ⟨hR.reads h, fun _ => hR.writes h⟩

theorem Expr.accesses_of_permits (hR : R.Owns) (hN : N.Permits R) {e : Expr} (he : e.Emits P N τ code) :
    Accesses R (plain code) :=
  e.accesses_of_emits hN.of_lookup he (fun _ _ _ _ _ _ hx => (hN.of_lookup hx).1)
    (.inr ⟨hR.acts, fun hx => (hN.of_lookup hx).2 rfl⟩)

/-- A value that is stored. -/
theorem Accesses.store (hR : R.Owns) {home : Home} {code : List Instruction} (hhome : R.writes home)
    (h : Accesses R (plain code)) :
    Accesses R (plain (home.address :: code ++ [{ op := .store }])) :=
  .cons (.address hhome) (h.join (.singleton (.act (.inl rfl) hR.acts)))

theorem Declaration.accesses_of_emits (hR : R.Owns) (hN : N.Permits R) {d : Declaration} {n : Nat}
    (h : d.Emits P N (.local n) code) :
    Accesses R (plain code) := by
  cases h with
  | bare => exact .nil
  | value htype hvalue he =>
    have hentry : (d.entry (.local n)).2.Permitted R := hR.permitted nofun
    exact .store hR (hR.writes nofun) (Expr.accesses_of_permits hR (List.forall_mem_cons.2 ⟨hentry, hN⟩) he)

theorem Accesses.testCode (hR : R.Owns) (h : Accesses R (plain code)) : Accesses R (plain (testCode code)) :=
  h.join (.singleton (hR.branch rfl))

theorem Accesses.mapIdx_close (h : Accesses R items) (first stop : Nat) :
    Accesses R (plain (items.mapIdx (Item.close first stop))) :=
  h.close (fun _ _ => rfl) fun place item => item.op_close first stop place

theorem Stmt.permits_scope (hR : R.Owns) (hN : N.Permits R) (s : Stmt) (n : Nat) : Scope.Permits R (s.scope n ++ N) := by
  cases s with
  | declare d =>
    have hentry : (d.entry (.local n)).2.Permitted R := hR.permitted nofun
    exact List.forall_mem_cons.2 ⟨hentry, hN⟩
  | _ => exact hN

variable {returns : ValueType}

theorem ItemLaw.accesses (hR : R.Owns) : ItemLaw P returns fun _ N _ _ _ items => N.Permits R → Accesses R items where
  nil _ := .nil
  cons {_ _ n _ _ _ _ first} _ hfirst hrest hN := by
    have hitems := hfirst hN
    split
    · exact hitems
    · exact hitems.append (hrest (first.permits_scope hR hN n))
  declare hd hN := Declaration.accesses_of_emits hR hN hd
  effect he hN := by
    refine (Expr.accesses_of_permits hR hN he).join ?_
    split
    · exact .nil
    · exact .singleton (.silent rfl)
  exit _ := .singleton (hR.branch rfl)
  again _ := .singleton (hR.branch rfl)
  leave _ _ := .singleton (hR.branch rfl)
  result _ hvalue hN := by
    have hcode := Expr.accesses_of_permits hR hN hvalue
    have hargument : R.writes (.argument 0) := hR.writes nofun
    exact .cons (.address hargument) (hcode.join (.cons (.act (.inl rfl) hR.acts) (.singleton (hR.branch rfl))))
  loop hcondition _ hbody hN := by
    have htest := (Expr.accesses_of_permits hR hN hcondition).testCode hR
    refine (htest.append (.cons (hR.branch rfl) ((hbody hN).append ?_))).mapIdx_close ..
    split
    · exact .nil
    · exact .singleton (hR.branch rfl)
  arm hcondition _ hbody hothers hN := by
    have htest := (Expr.accesses_of_permits hR hN hcondition).testCode hR
    exact (htest.append (.cons (hR.branch rfl) (hbody hN))).append (.cons (hR.branch rfl) (hothers hN))

theorem Param.permits_scope (hR : R.Owns) (slot : Nat) (params : List Param) : (Param.scope slot params).Permits R := by
  induction params generalizing slot with
  | nil => nofun
  | cons param params ih => exact List.forall_mem_append.2 ⟨ih _, List.forall_mem_singleton.2 (hR.permitted nofun)⟩

/-- A function does no more than the names before it and its own name allow. -/
theorem Definition.accesses_of_emits (hR : R.Owns) {d : Definition} {number : Nat} {f : Function} {entry : Bytes × Binding}
    (h : d.Emits P N number (.function f) entry) (hN : N.Permits R) (hnumber : R.calls number) :
    Accesses R (plain f.code.toList) := by
  cases h with
  | @function name params returns body slot items hslot hparams hbody hreturns =>
    have hself : (Binding.function (params.map (·.type.type)) returns.type number slot).Permitted R := hnumber
    have hitems := (ItemLaw.accesses hR).block body hbody
      (List.forall_mem_append.2 ⟨Param.permits_scope hR _ params, List.forall_mem_cons.2 ⟨hself, hN⟩⟩)
    rw [List.toList_toArray, bodyCode]
    refine (hitems.mapIdx_close 0 0).join ?_
    split
    · exact .nil
    · exact .singleton (hR.branch rfl)

end

end OnePass

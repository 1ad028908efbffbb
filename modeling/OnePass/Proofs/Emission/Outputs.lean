import OnePass.Proofs.Emission.Laws
import OnePass.Proofs.Emission.Sizes

/-!
# The outputs of definitions

Each definition of a program has its output, at its place among those of all definitions (`Source.Emits.split`). The functions of
the program are the outputs of function definitions, and the entry routine has the code of the others, in the order of the text.
Each variable has one entry of the pool (`Source.Emits.distinctVariables`), and each literal text has one (`Source.Emits.texts`).
-/

namespace OnePass

variable {outputs : List Output} {N N' : Scope} {number : Nat} {P : List PoolEntry} {A : Source} {x : Bytes}

namespace Source

variable {post pre : Source}

/-! ## Places among outputs -/

@[simp] theorem entryOf_append (outputs more : List Output) : entryOf (outputs ++ more) = entryOf outputs ++ entryOf more :=
  List.flatMap_append ..

@[simp] theorem entryOf_entry (code : List Instruction) (outputs : List Output) :
    entryOf (.entry code :: outputs) = code ++ entryOf outputs := rfl

@[simp] theorem functionsOf_append (outputs more : List Output) :
    functionsOf (outputs ++ more) = functionsOf outputs ++ functionsOf more :=
  List.filterMap_append

@[simp] theorem functionsOf_function (f : Function) (outputs : List Output) :
    functionsOf (.function f :: outputs) = f :: functionsOf outputs := rfl

/-- Where a function stands among outputs. -/
theorem exists_function {j : Nat} {f : Function} (hf : (functionsOf outputs)[j]? = some f) :
    ∃ before after, outputs = before ++ .function f :: after ∧ (functionsOf before).length = j := by
  induction outputs generalizing j with
  | nil => cases hf
  | cons output outputs ih =>
    cases output with
    | entry code =>
      obtain ⟨before, after, rfl, hj⟩ := ih hf
      exact ⟨.entry code :: before, after, rfl, hj⟩
    | function g =>
      cases j with
      | zero =>
        cases hf
        exact ⟨[], outputs, rfl, rfl⟩
      | succ j =>
        obtain ⟨before, after, rfl, hj⟩ := ih (j := j) hf
        exact ⟨.function g :: before, after, rfl, congrArg Nat.succ hj⟩

/-- Where an instruction of the entry routine stands among outputs. -/
theorem exists_entry {place : Nat} {i : Instruction} (hi : (entryOf outputs)[place]? = some i) :
    ∃ before code after j, outputs = before ++ .entry code :: after ∧ code[j]? = some i ∧ place =
      (entryOf before).length + j := by
  induction outputs generalizing place with
  | nil => cases hi
  | cons output outputs ih =>
    cases output with
    | function g =>
      obtain ⟨before, code, after, j, rfl, hj, hplace⟩ := ih hi
      exact ⟨.function g :: before, code, after, j, rfl, hj, hplace⟩
    | entry code =>
      rw [entryOf_entry] at hi
      rcases Nat.lt_or_ge place code.length with hlt | hge
      · rw [List.getElem?_append_left hlt] at hi
        exact ⟨[], code, outputs, place, rfl, hi, (Nat.zero_add _).symm⟩
      · rw [List.getElem?_append_right hge] at hi
        obtain ⟨before, code', after, j, rfl, hj, hplace⟩ := ih hi
        refine ⟨.entry code :: before, code', after, j, rfl, hj, ?_⟩
        rw [entryOf_entry, List.length_append]
        omega

/-- The outputs of definitions are those of the first ones and those of the others. -/
theorem run_outputs_append {c c' : Context} (h : (Source.outputs (pre ++ post)).run c = some (outputs, c')) :
    ∃ before c1 after, pre.outputs.run c = some (before, c1) ∧ before.length = pre.length ∧
      post.outputs.run c1 = some (after, c') ∧
      outputs = before ++ after := by
  induction pre generalizing c outputs with
  | nil => exact ⟨[], c, outputs, rfl, rfl, h, rfl⟩
  | cons d pre ih =>
    obtain ⟨output, c1, hd, h⟩ := Translation.run_bind_some_iff.1 h
    obtain ⟨rest, c2, hrest, h⟩ := Translation.run_bind_some_iff.1 h
    cases h
    obtain ⟨before, c3, after, hbefore, hlength, hafter, rfl⟩ := ih hrest
    refine ⟨output :: before, c3, after, ?_, congrArg Nat.succ hlength, hafter, rfl⟩
    exact Translation.run_bind_some_iff.2 ⟨output, c1, hd, Translation.run_bind_some_iff.2 ⟨before, c3, hbefore, rfl⟩⟩

section

variable {P : List PoolEntry}

/-- Definitions come to their outputs one after another, each with the names of those before it. -/
theorem Emits.split {ds : Source} {before after : List Output} {output : Output}
    (h : ds.Emits P N number (before ++ output :: after) N') :
    ∃ pre d post N1 entry, ds = pre ++ d :: post ∧ Source.Emits P N number pre before N1 ∧
      d.Emits P N1 (number + pre.functions) output entry ∧ N1.lookup entry.1 = none ∧
      Source.Emits P (entry :: N1) (number + pre.functions + d.functions) post after N' := by
  induction before generalizing ds N number with
  | nil =>
    cases h with
    | cons hd hnew hds => exact ⟨[], _, _, _, _, rfl, .nil, hd, hnew, hds⟩
  | cons first before ih =>
    cases h with
    | @cons _ _ _ d ds _ _ entry hd hnew hds =>
      obtain ⟨pre, d', post, N1, entry', rfl, hpre, hd', hnew', hpost⟩ := ih hds
      refine ⟨d :: pre, d', post, N1, entry', rfl, .cons hd hnew hpre, ?_, hnew', ?_⟩
      · rwa [Source.functions, ← Nat.add_assoc]
      · rwa [Source.functions, ← Nat.add_assoc]

theorem Emits.length_eq (h : A.Emits P N number outputs N') : outputs.length = A.length := by
  induction h with
  | nil => rfl
  | cons _ _ _ ih => exact congrArg Nat.succ ih

/-- The output of a definition stands where the definition does. -/
theorem Emits.exists_output {d : Definition} (h : Source.Emits P N number (pre ++ d :: post) outputs N') :
    ∃ before output after N1 entry, outputs = before ++ output :: after ∧ Source.Emits P N number pre before N1 ∧
      d.Emits P N1 (number + pre.functions) output entry ∧ N1.lookup entry.1 = none := by
  induction pre generalizing N number outputs with
  | nil =>
    cases h with
    | @cons _ _ _ _ _ output outputs entry hd hnew _ => exact ⟨[], output, outputs, N, entry, rfl, .nil, hd, hnew⟩
  | cons first pre ih =>
    cases h with
    | @cons _ _ _ _ _ output _ entry hfirst hnew hrest =>
      obtain ⟨before, output', after, N1, entry', rfl, hpre, hd, hnew'⟩ := ih hrest
      refine ⟨output :: before, output', after, N1, entry', rfl, .cons hfirst hnew hpre, ?_, hnew'⟩
      rwa [Source.functions, ← Nat.add_assoc]

end

end Source

/-! ## Entries of variables -/

/-- The variable that a pool entry is for, if it is one's. -/
def PoolEntry.variable? : PoolEntry → Option Bytes
  | .variable _ x => some x
  | _ => none

/-- The variables that a program declares. -/
def Source.variables (A : Source) : List Bytes := A.filterMap fun
  | .global d => some d.name
  | .function .. => none

/-- No terminal needs an entry of a variable. -/
theorem Terminal.variable?_entry? (t : Terminal) : t.entry?.bind PoolEntry.variable? = none := by
  cases t with
  | name x =>
    change (if (Primitive.ofName? x).isSome then some (PoolEntry.primitive x) else none).bind PoolEntry.variable? = none
    split <;> rfl
  | _ => rfl

theorem Source.filterMap_entries (A : Source) : A.entries.filterMap PoolEntry.variable? = A.variables := by
  change (A.flatMap Definition.entries).filterMap PoolEntry.variable? = A.variables
  induction A with
  | nil => rfl
  | cons d A ih =>
    have hterminals : (d.yield.filterMap Terminal.entry?).filterMap PoolEntry.variable? = [] := by
      rw [List.filterMap_filterMap, List.filterMap_eq_nil_iff]
      exact fun t _ => t.variable?_entry?
    rw [List.flatMap_cons, List.filterMap_append, ih, Definition.entries, List.filterMap_cons, hterminals]
    cases d <;> rfl

/-- Variables have different names. -/
theorem Source.Emits.nodup_variables (h : A.Emits P N number outputs N') :
    A.variables.Nodup ∧ ∀ x ∈ A.variables, N.lookup x = none := by
  induction h with
  | nil => exact ⟨.nil, nofun⟩
  | @cons N N' number d A output outputs entry hd hnew hds ih =>
    have hlater (x : Bytes) (hx : x ∈ A.variables) : x ≠ entry.1 ∧ N.lookup x = none := by
      have hlookup := ih.2 x hx
      rw [List.lookup_cons] at hlookup
      split at hlookup
      · cases hlookup
      · rename_i hne
        exact ⟨fun heq => by simp [heq] at hne, hlookup⟩
    cases hd with
    | function => exact ⟨ih.1, fun x hx => (hlater x hx).2⟩
    | «global» =>
      exact ⟨List.nodup_cons.2 ⟨fun hmem => (hlater _ hmem).1 rfl, ih.1⟩,
        List.forall_mem_cons.2 ⟨hnew, fun x hx => (hlater x hx).2⟩⟩

/-- No two entries of the pool are for variables of one name. -/
def DistinctVariables (P : List PoolEntry) : Prop :=
  ∀ {i j : Nat} {c c' : Bool} {x : Bytes}, P[i]? = some (.variable c x) → P[j]? = some (.variable c' x) → i = j

/-- A variable has one entry. -/
theorem Source.Emits.distinctVariables (h : A.Emits P N number outputs N') (hpool : P.Sublist A.entries) :
    DistinctVariables P := by
  intro n m const const' x hn hm
  have hnodup : (P.filterMap PoolEntry.variable?).Nodup := (A.filterMap_entries ▸ h.nodup_variables.1).sublist (hpool.filterMap _)
  have hpairs := List.pairwise_iff_getElem.1 (List.pairwise_filterMap.1 hnodup)
  have hne {i j : Nat} {c c' : Bool} (hi : P[i]? = some (.variable c x)) (hj : P[j]? = some (.variable c' x)) : ¬ i < j := by
    intro hlt
    obtain ⟨hi, hientry⟩ := List.getElem?_eq_some_iff.1 hi
    obtain ⟨hj, hjentry⟩ := List.getElem?_eq_some_iff.1 hj
    exact hpairs i j hi hj hlt x (by rw [hientry]; rfl) x (by rw [hjentry]; rfl) rfl
  exact Nat.le_antisymm (Nat.not_lt.1 (hne hm hn)) (Nat.not_lt.1 (hne hn hm))

/-- The global of a variable is found by what it holds. -/
theorem DistinctVariables.getElem?_iff (h : DistinctVariables P) {slot : Nat} {const : Bool}
    (hslot : P[slot]? = some (.variable const x))
    (n : Nat) : (P.map PoolEntry.global).toArray[n]? = some { const, name := x } ↔ n = slot := by
  rw [List.getElem?_toArray, List.getElem?_map]
  constructor
  · intro hn
    obtain ⟨entry, hentry, hglobal⟩ := Option.map_eq_some_iff.1 hn
    cases entry with
    | «variable» const' y =>
      obtain rfl : y = x := congrArg Global.name hglobal
      exact h hentry hslot
    | function | literal | primitive => exact absurd (congrArg Global.value hglobal) nofun
  · rintro rfl
    rw [hslot]
    rfl

/-! ## Entries of texts -/

theorem Param.not_text_mem_more (params : List Param) (quote : Quote) (content : Bytes) :
    .text quote content ∉ Param.more params := by
  induction params with
  | nil => simp [Param.more]
  | cons param params ih => cases hconst : param.const <;> simpa [Param.more, Param.yield, hconst] using ih

theorem Param.not_text_mem_yields (params : List Param) (quote : Quote) (content : Bytes) :
    .text quote content ∉ Param.yields params := by
  cases params with
  | nil => simp [Param.yields]
  | cons param params =>
    cases hconst : param.const <;> simpa [Param.yields, Param.yield, hconst] using Param.not_text_mem_more params quote content

/-- Every text in a program has an entry in its pool, also one in code that is never reached. -/
theorem Source.Emits.texts {quote : Quote} {content : Bytes} (h : A.Emits P N number outputs N')
    (htext : .text quote content ∈ A.yield) :
    .literal content ∈ P := by
  induction h with
  | nil => cases htext
  | cons hd _ _ ih =>
    rw [Source.yield_cons, List.mem_append] at htext
    refine htext.elim (fun htext => ?_) ih
    cases hd with
    | function _ _ hbody _ =>
      exact (Block.affords _ hbody).texts _ _ (by simpa [Definition.yield, Param.not_text_mem_yields] using htext)
    | «global» _ hd => exact (Declaration.affords hd).texts _ _ htext

/-! ## Laws of programs -/

section

variable {T : List Instruction → Prop}

theorem Source.Emits.law_entryOf (hlaw : ∀ N, CodeLaw P N T) (h : A.Emits P N number outputs N') : T (entryOf outputs) := by
  induction h with
  | nil => exact (hlaw []).nil
  | cons hd _ _ ih =>
    cases hd with
    | function => exact ih
    | «global» _ hd => exact (hlaw N).append ((hlaw _).declaration hd) ih

/-- A law of the code of expressions that holds of the bodies of functions holds of all functions. -/
theorem Source.Makes.law_code {p : Program} (h : A.Makes P p) (hlaw : ∀ N, CodeLaw P N T) (hpopN : ∀ n, T [.withNat .popN n])
    (hret : T [{ op := .ret }])
    (hbody : ∀ {body : Block} {returns N items}, body.Emits P returns false N 0 items → T (items.mapIdx (Item.close 0 0)))
    {k : Nat} {f : Function} (hf : p.functions[k]? = some f) : T f.code.toList := by
  cases k with
  | zero =>
    obtain ⟨outputs, N, returns, number, slot, hA, hmain, rfl⟩ := h.exists_entry hf
    refine (hlaw N).append (hA.law_entryOf hlaw) ((hlaw N).append
      ((hlaw N).append ((hlaw N).stackAlloc _) ((hlaw N).call hmain)) ?_)
    split
    · exact (hlaw N).nil
    · exact hpopN _
  | succ k =>
    obtain ⟨pre, d, post, outputs, N, entry, -, -, -, hd, -⟩ := h.exists_definition hf
    cases hd with
    | function _ _ hitems _ =>
      refine (hlaw N).append (hbody hitems) ?_
      split
      · exact (hlaw N).nil
      · exact hret

end

end OnePass

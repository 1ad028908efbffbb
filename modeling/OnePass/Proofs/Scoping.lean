import Mathlib.Data.List.Forall2
import OnePass.Proofs.Translation

/-!
# Scopes in a symbol table

A symbol table stands for a list of scopes (`SymbolTable.Represents`): its array holds their names in the order of declaration,
its index finds the latest of each name, and every symbol remembers the one that it hides. Each operation of the table does to the
scopes what its name says.
-/

namespace OnePass

variable {x : Bytes} {n : Int} {entry : Binding} {symbols : List Symbol}

/-! ## Symbols and entries -/

/-- A symbol has this home. -/
def Home.Of (s : Symbol) : Home → Prop
  | global slot => s.storage = .global ∧ s.slot = slot
  | .local slot => s.storage = .local ∧ s.slot = slot
  | argument slot => s.storage = .parameter ∧ s.slot = slot

/-- A symbol says of its name what an entry says. -/
def Symbol.Shows (s : Symbol) : Binding → Prop
  | .variable type const assigned home =>
    s.kind ≠ .function ∧ s.type = type ∧ s.const = const ∧ s.assigned = assigned ∧ home.Of s
  | .function params returns number slot =>
    s.kind = .function ∧ s.params = params ∧ s.type = returns ∧ s.place = number ∧ s.storage = .global ∧ s.slot = slot

theorem Symbol.Shows.assign {s : Symbol} {entry : Binding} (h : s.Shows entry) :
    Symbol.Shows { s with assigned := true } entry.assign := by
  cases entry with
  | «variable» type const assigned home =>
    obtain ⟨hk, ht, hc, -, hh⟩ := h
    refine ⟨hk, ht, hc, rfl, ?_⟩
    cases home <;> exact hh
  | function params returns number slot => exact h

/-- The symbol of a parameter that has moved up by so many slots. -/
def Symbol.shift (n : Int) (s : Symbol) : Symbol := if s.storage = .parameter then { s with slot := s.slot + n } else s

/-- The entry of a parameter that has moved up by so many slots. -/
def Binding.shift (n : Nat) : Binding → Binding
  | .variable type const assigned (.argument slot) => .variable type const assigned (.argument (slot + n))
  | entry => entry

/-- The scope with the parameters in it moved up by so many slots. -/
def Scope.shift (n : Nat) (scope : Scope) : Scope := scope.map fun (x, binding) => (x, binding.shift n)

theorem Scope.shift_zero (scope : Scope) : scope.shift 0 = scope := by
  have hshift : ∀ b : Binding, b.shift 0 = b
    | .variable _ _ _ (.argument _) | .variable _ _ _ (.global _) | .variable _ _ _ (.local _) | .function .. => rfl
  simp [Scope.shift, hshift]

theorem Symbol.name_shift (s : Symbol) : (s.shift n).name = s.name := by
  unfold shift
  split <;> rfl

theorem Symbol.Shows.shift {s : Symbol} {entry : Binding} (n : Nat) (h : s.Shows entry) : (s.shift n).Shows (entry.shift n) := by
  cases entry with
  | function params returns number slot =>
    have hstorage : s.storage = .global := h.2.2.2.2.1
    rw [Symbol.shift, if_neg (by rw [hstorage]; simp)]
    exact h
  | «variable» type const assigned home =>
    obtain ⟨hk, ht, hc, ha, hh⟩ := h
    cases home with
    | argument slot =>
      obtain ⟨hstorage, hslot⟩ := hh
      rw [Symbol.shift, if_pos hstorage]
      exact ⟨hk, ht, hc, ha, hstorage, by simp [hslot]⟩
    | global slot =>
      rw [Symbol.shift, if_neg (by rw [hh.1]; simp)]
      exact ⟨hk, ht, hc, ha, hh⟩
    | «local» slot =>
      rw [Symbol.shift, if_neg (by rw [hh.1]; simp)]
      exact ⟨hk, ht, hc, ha, hh⟩

/-! ## Places of names -/

/-- The place of the latest symbol of a name, given the symbols from the latest on. -/
def placeOf (x : Bytes) : List Symbol → Option Nat
  | [] => none
  | s :: rest => if s.name = x then some rest.length else placeOf x rest

theorem placeOf_lt {x : Bytes} {place : Nat} : ∀ {l : List Symbol}, placeOf x l = some place → place < l.length
  | s :: rest, h => by
    rw [placeOf] at h
    split at h
    · cases h
      simp
    · have := placeOf_lt h
      simp only [List.length_cons]
      omega

/-- The latest symbol of a name, given the symbols from the latest on. -/
def latest (x : Bytes) (symbols : List Symbol) : Option Symbol := symbols.find? (·.name = x)

theorem latest_cons (x : Bytes) (s : Symbol) (symbols : List Symbol) :
    latest x (s :: symbols) = if s.name = x then some s else latest x symbols := by
  rw [latest, List.find?_cons]
  by_cases hname : s.name = x <;> simp [hname, latest]

theorem latest_append (x : Bytes) (inner outer : List Symbol) :
    latest x (inner ++ outer) = (latest x inner).or (latest x outer) :=
  List.find?_append

/-- At the place of a name is its latest symbol. -/
theorem getElem?_placeOf (x : Bytes) : ∀ symbols : List Symbol, ((placeOf x symbols).bind fun place => symbols.reverse[place]?) =
    latest x symbols
  | [] => rfl
  | s :: symbols => by
    rw [placeOf, latest_cons]
    split
    · simp
    · rw [← getElem?_placeOf x symbols]
      cases hplace : placeOf x symbols with
      | none => rfl
      | some place =>
        have hlt : place < symbols.reverse.length := by simpa using placeOf_lt hplace
        simp [List.getElem?_append_left hlt]

theorem placeOf_eq_none_iff (x : Bytes) (symbols : List Symbol) : placeOf x symbols = none ↔ latest x symbols = none := by
  induction symbols with
  | nil => simp [placeOf, latest]
  | cons s symbols ih =>
    rw [placeOf, latest_cons]
    split
    · simp
    · exact ih

theorem placeOf_append {inner : List Symbol} (h : latest x inner = none) (outer : List Symbol) :
    placeOf x (inner ++ outer) = placeOf x outer := by
  induction inner with
  | nil => rfl
  | cons s inner ih =>
    rw [latest_cons] at h
    split at h
    · cases h
    · rename_i hname
      rw [List.cons_append, placeOf, if_neg hname, ih h]

/-- The place of a name is one of the inner symbols if they have it. -/
theorem any_placeOf_append (x : Bytes) (outer : List Symbol) : ∀ inner : List Symbol,
    (placeOf x (inner ++ outer)).any (outer.length ≤ ·) = (latest x inner).isSome
  | [] => by
    cases hplace : placeOf x outer with
    | none => simp [hplace, latest]
    | some place => simpa [hplace, latest] using placeOf_lt hplace
  | s :: inner => by
    rw [List.cons_append, placeOf, latest_cons]
    split
    · simp
    · exact any_placeOf_append x outer inner

/-- The place of a name depends on the names only. -/
theorem placeOf_congr {symbols' : List Symbol} (h : symbols'.map Symbol.name = symbols.map Symbol.name) (x : Bytes) :
    placeOf x symbols' = placeOf x symbols := by
  induction symbols generalizing symbols' with
  | nil => rw [List.map_eq_nil_iff.1 h]
  | cons s symbols ih =>
    obtain ⟨s', rest, rfl, hname, hrest⟩ := List.map_eq_cons_iff.1 h
    have hlength : rest.length = symbols.length := by simpa using congrArg List.length hrest
    rw [placeOf, placeOf, hname, hlength, ih hrest]

/-- Symbols, from the latest on, that know what they hide. -/
inductive Chained : List Symbol → Prop where
  | nil : Chained []
  | cons {s : Symbol} {symbols : List Symbol} (hidden : s.hidden = placeOf s.name symbols) (rest : Chained symbols) :
      Chained (s :: symbols)

/-- Unbinding symbols from the latest on makes those before them visible again. -/
theorem Chained.unbind : ∀ {inner : List Symbol} {index : Std.TreeMap Bytes Nat}, Chained (inner ++ symbols) →
    (∀ x, index[x]? = placeOf x (inner ++ symbols)) → ∀ x, (inner.reverse.foldr SymbolTable.unbind index)[x]? = placeOf x symbols
  | [], _, _, hi, x => hi x
  | s :: inner, index, hl, hi, x => by
    cases hl with
    | cons hidden hl =>
      rw [List.reverse_cons, List.foldr_append]
      refine hl.unbind (fun y => ?_) x
      have hy := hi y
      rw [List.cons_append, placeOf] at hy
      rw [List.foldr_cons, List.foldr_nil, SymbolTable.unbind]
      by_cases hn : s.name = y
      · have hidden : s.hidden = placeOf s.name (inner ++ symbols) := hidden
        rw [← hn, ← hidden]
        cases s.hidden <;> simp
      · rw [if_neg hn] at hy
        cases s.hidden <;> simp [Std.TreeMap.getElem?_insert, Std.TreeMap.getElem?_erase, hn, hy]

theorem Chained.of_append : ∀ {inner : List Symbol}, Chained (inner ++ symbols) → Chained symbols
  | [], h => h
  | _ :: _, .cons _ h => h.of_append

/-- The name of a symbol and its link to what it hides. -/
def Symbol.link (s : Symbol) : Bytes × Option Nat := (s.name, s.hidden)

theorem map_name_of_link {symbols' : List Symbol} (h : symbols'.map Symbol.link = symbols.map Symbol.link) :
    symbols'.map Symbol.name = symbols.map Symbol.name := by
  simpa [Symbol.link, Function.comp_def] using congrArg (List.map Prod.fst) h

theorem Chained.congr {symbols' : List Symbol} (hchained : Chained symbols)
    (h : symbols'.map Symbol.link = symbols.map Symbol.link) :
    Chained symbols' := by
  induction hchained generalizing symbols' with
  | nil =>
    rw [List.map_eq_nil_iff.1 h]
    exact .nil
  | @cons s symbols hidden _ ih =>
    obtain ⟨s', rest, rfl, hs, hrest⟩ := List.map_eq_cons_iff.1 h
    have hname : s'.name = s.name := congrArg Prod.fst hs
    have hhidden : s'.hidden = s.hidden := congrArg Prod.snd hs
    exact .cons (by rw [hhidden, hname, placeOf_congr (map_name_of_link hrest), hidden]) (ih hrest)

/-! ## Tables with links -/

/-- Index and links of a table lead to the latest symbol of each name. -/
structure SymbolTable.Linked (t : SymbolTable) : Prop where
  chained : Chained t.symbols.toList.reverse
  index : ∀ x, t.index[x]? = placeOf x t.symbols.toList.reverse

namespace SymbolTable.Linked

variable {t u : SymbolTable}

theorem of_eq (h : t.Linked) (hsymbols : u.symbols = t.symbols) (hindex : u.index = t.index) : u.Linked :=
  ⟨by rw [hsymbols]; exact h.chained, by rw [hsymbols, hindex]; exact h.index⟩

/-- Symbols may be changed if their names and links stay. -/
theorem congr {u : SymbolTable} (h : t.Linked) (hindex : u.index = t.index)
    (hlinks : u.symbols.toList.map Symbol.link = t.symbols.toList.map Symbol.link) : u.Linked := by
  have hlinks : u.symbols.toList.reverse.map Symbol.link = t.symbols.toList.reverse.map Symbol.link := by
    rw [List.map_reverse, List.map_reverse, hlinks]
  exact ⟨h.chained.congr hlinks, fun x => by rw [hindex, h.index, placeOf_congr (map_name_of_link hlinks)]⟩

theorem shiftParams (h : t.Linked) (n : Int) : (t.shiftParams n).Linked := by
  refine h.congr rfl (List.ext_getElem (by simp [SymbolTable.shiftParams]) fun i h1 h2 => ?_)
  simp only [SymbolTable.shiftParams, Array.toList_mapIdx, List.getElem_map, List.getElem_mapIdx]
  split <;> rfl

/-- A name resolves to its latest symbol. -/
theorem resolve (h : t.Linked) (x : Bytes) : match latest x t.symbols.toList.reverse with
    | some s => ∃ place, t.resolve x = .ok place ∧ t.symbol? place = some s
    | none => t.resolve x = .error (.undeclared x) := by
  have hplace := getElem?_placeOf x t.symbols.toList.reverse
  rw [SymbolTable.resolve, h.index]
  cases hfound : placeOf x t.symbols.toList.reverse with
  | none => simp [(placeOf_eq_none_iff x _).1 hfound]
  | some place =>
    have hlt : place < t.symbols.size := by simpa using placeOf_lt hfound
    simp only [hfound, Option.bind_some, List.reverse_reverse, Array.getElem?_toList] at hplace
    rw [← hplace, Array.getElem?_eq_getElem hlt]
    exact ⟨place, rfl, Array.getElem?_eq_getElem hlt⟩

theorem lt_of_resolve (h : t.Linked) {x : Bytes} {place : Nat} (hplace : t.resolve x = .ok place) : place < t.symbols.size := by
  rw [SymbolTable.resolve, h.index] at hplace
  split at hplace
  · rename_i hfound
    cases hplace
    simpa using placeOf_lt hfound
  · cases hplace

/-- A change to a symbol that keeps its name and its link. -/
theorem update (h : t.Linked) {f : Symbol → Symbol} (hf : ∀ s, (f s).link = s.link) (place : Nat) :
    (t.update place f).Linked := by
  refine h.congr rfl (List.ext_getElem (by simp [SymbolTable.update]) fun i h1 h2 => ?_)
  simp only [SymbolTable.update, Array.toList_modify, List.getElem_map, List.getElem_modify]
  split
  · exact hf _
  · rfl

/-- The table with one more symbol, which links to what it hides. -/
theorem push (h : t.Linked) {s : Symbol} (hsymbols : u.symbols = t.symbols.push s)
    (hindex : u.index = t.index.insert s.name t.symbols.size) (hidden : s.hidden = t.index[s.name]?) : u.Linked := by
  have hreverse : u.symbols.toList.reverse = s :: t.symbols.toList.reverse := by simp [hsymbols]
  refine ⟨?_, fun x => ?_⟩
  · rw [hreverse]
    exact .cons (hidden.trans (h.index _)) h.chained
  · rw [hreverse, hindex, placeOf, Std.TreeMap.getElem?_insert, h.index]
    simp

/-- The table without its latest symbols. -/
theorem unbind (h : t.Linked) {u : SymbolTable} {height : Nat} (hsymbols : u.symbols = t.symbols.take height)
    (hindex : u.index = (t.symbols.toList.drop height).foldr SymbolTable.unbind t.index) : u.Linked := by
  have hsplit : t.symbols.toList.reverse = (t.symbols.toList.drop height).reverse ++ (t.symbols.toList.take height).reverse := by
    rw [← List.reverse_append, List.take_append_drop]
  have houter : u.symbols.toList.reverse = (t.symbols.toList.take height).reverse := by simp [hsymbols]
  have hchained := h.chained
  rw [hsplit] at hchained
  refine ⟨?_, fun x => ?_⟩
  · rw [houter]
    exact hchained.of_append
  · have hunbind := hchained.unbind (fun y => hsplit ▸ h.index y) x
    rw [houter, hindex, ← hunbind, List.reverse_reverse]

end SymbolTable.Linked

/-! ## Symbols of the names in scope -/

theorem modify_length_append {α : Type} (f : α → α) (l rest : List α) (a : α) :
    (l ++ a :: rest).modify l.length f = l ++ f a :: rest := by
  induction l with
  | nil => rfl
  | cons b l ih => simp [ih]

/-- Symbols, from the latest on, that have these names and show their entries. -/
def Lists : List Symbol → Scope → Prop := List.Forall₂ fun s named => s.name = named.1 ∧ s.Shows named.2

namespace Lists

variable {names a b : Scope}

theorem map_name (h : Lists symbols names) : symbols.map Symbol.name = names.map Prod.fst := by
  induction h with
  | nil => rfl
  | cons hs _ ih => rw [List.map_cons, List.map_cons, hs.1, ih]

theorem split (h : Lists symbols (a ++ b)) : ∃ inner outer, symbols = inner ++ outer ∧ Lists inner a ∧ Lists outer b :=
  ⟨_, _, (List.take_append_drop a.length symbols).symm, List.forall₂_take_append _ _ _ h, List.forall₂_drop_append _ _ _ h⟩

theorem isSome_latest (h : Lists symbols names) (x : Bytes) : (latest x symbols).isSome = (names.lookup x).isSome := by
  induction h with
  | nil => rfl
  | @cons s named _ _ hs _ ih =>
    rw [latest_cons, List.lookup_cons, hs.1]
    by_cases hname : named.1 = x
    · simp [hname]
    · simp [hname, beq_eq_false_iff_ne.2 (Ne.symm hname), ih]

theorem latest_eq_none (h : Lists symbols names) (hx : names.lookup x = none) : latest x symbols = none := by
  simpa [hx] using h.isSome_latest x

/-- The symbol of a name stands between those of the names after and before it. -/
theorem exists_at {entry : Binding} {before after : Scope} (h : Lists symbols (before ++ (x, entry) :: after)) :
    ∃ inner s outer, symbols = inner ++ s :: outer ∧ Lists inner before ∧ (s.name = x ∧ s.Shows entry) ∧ Lists outer after := by
  obtain ⟨inner, _, rfl, hinner, houter⟩ := h.split
  cases houter with
  | cons hs houter => exact ⟨inner, _, _, rfl, hinner, hs, houter⟩

theorem map_shift (h : Lists symbols names) (n : Nat) : Lists (symbols.map (Symbol.shift n)) (names.shift n) :=
  List.forall₂_map_left_iff.2 (List.forall₂_map_right_iff.2
    (h.imp fun s _ hs => ⟨(s.name_shift).trans hs.1, hs.2.shift n⟩))

end Lists

/-! ## Scopes -/

theorem Scope.assign_append (x : Bytes) (b : Scope) : ∀ a : Scope,
    Scope.assign x (a ++ b) = if (a.lookup x).isSome then a.assign x ++ b else a ++ b.assign x
  | [] => by simp
  | (y, e) :: a => by
    by_cases h : x = y
    · simp [Scope.assign, h]
    · simp only [Scope.assign, List.cons_append, if_neg h, List.lookup_cons, beq_eq_false_iff_ne.2 h, assign_append x b a]
      split <;> rfl

theorem Scope.length_assign (x : Bytes) : ∀ scope : Scope, (scope.assign x).length = scope.length
  | [] => rfl
  | (y, e) :: scope => by
    rw [Scope.assign]
    split
    · rfl
    · simp [length_assign x scope]

namespace Scopes

theorem flatten_assign (x : Bytes) : ∀ scopes : Scopes, (scopes.assign x).flatten = Scope.assign x scopes.flatten
  | [] => rfl
  | scope :: scopes => by
    rw [Scopes.assign, List.flatten_cons, Scope.assign_append]
    split
    · rfl
    · rw [List.flatten_cons, flatten_assign x scopes]

theorem length_flatten_assign (x : Bytes) (scopes : Scopes) : (scopes.assign x).flatten.length = scopes.flatten.length := by
  rw [flatten_assign, Scope.length_assign]

/-- The heights at which the scopes above the outermost one start. -/
def heights : Scopes → List Nat
  | [] => []
  | [_] => []
  | _ :: scope :: scopes => (scope :: scopes).flatten.length :: heights (scope :: scopes)

theorem length_heights : ∀ {scopes : Scopes}, scopes ≠ [] → scopes.heights.length + 1 = scopes.length
  | [_], _ => rfl
  | _ :: scope :: scopes, _ => congrArg (· + 1) (length_heights (List.cons_ne_nil scope scopes))

theorem heights_assign (x : Bytes) : ∀ scopes : Scopes, (scopes.assign x).heights = scopes.heights
  | [] => rfl
  | [scope] => by
    rw [Scopes.assign]
    split <;> rfl
  | scope :: next :: scopes => by
    have ih := heights_assign x (next :: scopes)
    have hl := length_flatten_assign x (next :: scopes)
    rw [Scopes.assign]
    split
    · rfl
    · obtain ⟨next', scopes', h⟩ : ∃ a b, (Scopes.assign x (next :: scopes)) = a :: b := by
        rw [Scopes.assign]
        split <;> exact ⟨_, _, rfl⟩
      rw [h] at ih hl ⊢
      rw [heights, heights, ih, hl]

end Scopes

/-! ## Tables -/

namespace SymbolTable

variable {t : SymbolTable}

/-- The table stands for these scopes. -/
structure Represents (t : SymbolTable) (scopes : Scopes) : Prop where
  linked : t.Linked
  lists : Lists t.symbols.toList.reverse scopes.flatten
  heights : t.scopes = scopes.heights
  nonempty : scopes ≠ []

namespace Represents

variable {t t' : SymbolTable} {scope : Scope} {scopes : Scopes}

theorem size_eq (h : t.Represents scopes) : t.symbols.size = scopes.flatten.length := by
  simpa using h.lists.length_eq

theorem depth_eq (h : t.Represents scopes) : t.depth + 1 = scopes.length := by
  rw [depth, h.heights, Scopes.length_heights h.nonempty]

theorem resolve_of_none (h : t.Represents scopes) (hx : scopes.find? x = none) : t.resolve x = .error (.undeclared x) := by
  rw [resolve, h.linked.index, (placeOf_eq_none_iff x _).2 (h.lists.latest_eq_none hx)]

/-- Where a name resolves to depends on the names in scope only. -/
theorem resolve_congr {scopes' : Scopes} (h : t.Represents scopes) (h' : t'.Represents scopes')
    (hn : scopes'.flatten.map Prod.fst = scopes.flatten.map Prod.fst) (x : Bytes) : t'.resolve x = t.resolve x := by
  rw [resolve, resolve, h.linked.index, h'.linked.index,
    placeOf_congr ((h'.lists.map_name.trans hn).trans h.lists.map_name.symm)]

/-- The symbol of a name stands after those of the names declared before it. -/
theorem exists_at (h : t.Represents scopes) {before after : Scope} (hn : scopes.flatten = before ++ (x, entry) :: after) :
    ∃ inner s outer, t.symbols.toList = outer.reverse ++ s :: inner.reverse ∧ Lists inner before ∧ (s.name = x ∧ s.Shows entry) ∧
      Lists outer after := by
  obtain ⟨inner, s, outer, hsymbols, hall⟩ := (hn ▸ h.lists).exists_at
  refine ⟨inner, s, outer, ?_, hall⟩
  rw [← List.reverse_reverse t.symbols.toList, hsymbols]
  simp

theorem symbol_at (h : t.Represents scopes) {before after : Scope} (hn : scopes.flatten = before ++ (x, entry) :: after) :
    ∃ s, t.symbol? after.length = some s ∧ s.Shows entry := by
  obtain ⟨inner, s, outer, hsymbols, -, hs, houter⟩ := h.exists_at hn
  refine ⟨s, ?_, hs.2⟩
  rw [symbol?, ← Array.getElem?_toList, hsymbols, ← houter.length_eq]
  simp

/-- A change to the symbol of a name changes what the name stands for. -/
theorem update (h : t.Represents scopes) {f : Symbol → Symbol} (hlink : ∀ s, (f s).link = s.link) {x : Bytes}
    {entry entry' : Binding} (hf : ∀ s : Symbol, s.Shows entry → (f s).Shows entry') {before after : Scope}
    (hn : scopes.flatten = before ++ (x, entry) :: after) {scopes' : Scopes}
    (hn' : scopes'.flatten = before ++ (x, entry') :: after)
    (hheights : scopes'.heights = scopes.heights) (hne : scopes' ≠ []) : (t.update after.length f).Represents scopes' := by
  obtain ⟨inner, s, outer, hsymbols, hinner, hs, houter⟩ := h.exists_at hn
  have hupdate : (t.update after.length f).symbols.toList.reverse = inner ++ f s :: outer := by
    have hlength : after.length = outer.reverse.length := by rw [List.length_reverse, houter.length_eq]
    rw [SymbolTable.update, Array.toList_modify, hsymbols, hlength, modify_length_append]
    simp
  refine ⟨h.linked.update hlink _, ?_, h.heights.trans hheights.symm, hne⟩
  rw [hupdate, hn']
  exact List.rel_append hinner (.cons ⟨(congrArg Prod.fst (hlink s)).trans hs.1, hf s hs.2⟩ houter)

/-- A name that stands for an entry resolves to a symbol that shows it; a value for the variable is noted there. -/
theorem resolve_of_some (h : t.Represents scopes) (hx : scopes.find? x = some entry) :
    ∃ place s, t.resolve x = .ok place ∧ t.symbol? place = some s ∧ s.Shows entry ∧
      (t.update place fun s => { s with assigned := true }).Represents (scopes.assign x) := by
  obtain ⟨before, after, hn, hbefore⟩ := List.lookup_eq_some_iff.1 hx
  have hbefore := List.lookup_eq_none_iff.2 hbefore
  obtain ⟨s, hs, hshows⟩ := h.symbol_at hn
  obtain ⟨inner, s', outer, hsymbols, hinner, hname, houter⟩ := (hn ▸ h.lists).exists_at
  have hplace : placeOf x t.symbols.toList.reverse = some after.length := by
    rw [hsymbols, placeOf_append (hinner.latest_eq_none hbefore), placeOf, if_pos hname.1, houter.length_eq]
  refine ⟨after.length, s, by rw [resolve, h.linked.index, hplace], hs, hshows, ?_⟩
  refine h.update (f := fun s => { s with assigned := true }) (fun _ => rfl) (fun _ => .assign) hn ?_
    (Scopes.heights_assign x scopes) ?_
  · rw [Scopes.flatten_assign, hn, Scope.assign_append, hbefore]
    simp [Scope.assign]
  · intro hnil
    rw [Scopes.assign.eq_def] at hnil
    split at hnil
    · exact h.nonempty rfl
    · split at hnil <;> cases hnil

theorem enterScope (h : t.Represents scopes) : t.enterScope.Represents ([] :: scopes) := by
  refine ⟨h.linked.of_eq rfl rfl, h.lists, ?_, by simp⟩
  cases scopes with
  | nil => exact absurd rfl h.nonempty
  | cons scope scopes => simp [SymbolTable.enterScope, Scopes.heights, ← h.heights, h.size_eq]

section

variable (h : t.Represents (scope :: scopes))

include h

/-- The symbols of the innermost scope come after those of the others. -/
theorem exists_innermost :
    ∃ inner outer, t.symbols.toList = outer.reverse ++ inner.reverse ∧ Lists inner scope ∧ Lists outer scopes.flatten := by
  obtain ⟨inner, outer, hl, hboth⟩ := Lists.split h.lists
  exact ⟨inner, outer, by rw [← List.reverse_append, ← hl, List.reverse_reverse], hboth⟩

theorem boundary_eq : t.boundary = scopes.flatten.length := by
  rw [boundary, h.heights]
  cases scopes <;> rfl

/-- Closing a scope takes its names away. -/
theorem exitScope (hne : scopes ≠ []) :
    ∃ t', t.exitScope = .ok t' ∧ t'.Represents scopes ∧ t'.nextGlobal = t.nextGlobal ∧ t'.nextLocal = t.nextLocal := by
  obtain ⟨inner, outer, hsymbols, -, houter⟩ := h.exists_innermost
  have hheights : t.scopes = outer.length :: scopes.heights := by
    rw [h.heights, houter.length_eq]
    cases scopes with
    | nil => exact absurd rfl hne
    | cons next scopes => rfl
  rw [SymbolTable.exitScope, hheights]
  refine ⟨_, rfl, ⟨h.linked.unbind rfl rfl, ?_, rfl, hne⟩, rfl, rfl⟩
  simpa [hsymbols, List.take_append] using houter

/-- The innermost scope declares a name if one of its names is the same. -/
theorem declaresHere_eq (x : Bytes) : t.declaresHere x = (scope.lookup x).isSome := by
  obtain ⟨inner, outer, hsymbols, hinner, houter⟩ := h.exists_innermost
  rw [declaresHere, h.linked.index, h.boundary_eq, ← houter.length_eq, hsymbols, ← List.reverse_append, List.reverse_reverse,
    any_placeOf_append, hinner.isSome_latest]

end

theorem of_eq (h : t.Represents scopes) (hsymbols : t'.symbols = t.symbols) (hindex : t'.index = t.index)
    (hscopes : t'.scopes = t.scopes) :
    t'.Represents scopes :=
  ⟨h.linked.of_eq hsymbols hindex, by rw [hsymbols]; exact h.lists, hscopes.trans h.heights, h.nonempty⟩

theorem beginFunction (h : t.Represents scopes) : t.beginFunction.Represents scopes := h.of_eq rfl rfl rfl

theorem endFunction (h : t.Represents scopes) : t.endFunction.Represents scopes := h.of_eq rfl rfl rfl

end Represents

section

variable (t : SymbolTable) (name : Bytes) (kind : SymbolKind) (type : ValueType) (const : Bool) (storage : Storage)

theorem symbols_allocSlot : (t.allocSlot storage).2.symbols = t.symbols := by
  cases storage <;> rfl

theorem index_allocSlot : (t.allocSlot storage).2.index = t.index := by
  cases storage <;> rfl

theorem scopes_allocSlot : (t.allocSlot storage).2.scopes = t.scopes := by
  cases storage <;> rfl

/-- The symbol that a declaration makes. -/
def fresh : Symbol :=
  { name, kind, type, const, storage, slot := (t.allocSlot storage).1, hidden := t.index[name]? }

/-- The table after a declaration. -/
def declared : SymbolTable :=
  { (t.allocSlot storage).2 with
    symbols := t.symbols.push (t.fresh name kind type const storage)
    index := t.index.insert name t.symbols.size }

theorem symbol?_declared :
    (t.declared name kind type const storage).symbol? t.symbols.size = some (t.fresh name kind type const storage) := by
  simp [symbol?, declared]

theorem size_declared : (t.declared name kind type const storage).symbols.size = t.symbols.size + 1 := Array.size_push _

variable {t name kind type const storage}

theorem Linked.declared (h : t.Linked) : (t.declared name kind type const storage).Linked := h.push rfl rfl rfl

theorem declare_eq_ok (h : t.declaresHere name = false) :
    t.declare name kind type const storage = .ok (t.symbols.size, t.declared name kind type const storage) := by
  rw [declare, h]
  simp [declared, fresh, symbols_allocSlot, index_allocSlot]

end

/-- Moving the parameters up moves those from the boundary on. -/
theorem reverse_shiftParams {inner outer : List Symbol} (hsymbols : t.symbols.toList = outer.reverse ++ inner.reverse)
    (hboundary : t.boundary = outer.length) : (t.shiftParams n).symbols.toList.reverse = inner.map (Symbol.shift n) ++ outer := by
  simp only [SymbolTable.shiftParams, Array.toList_mapIdx, hsymbols, List.mapIdx_append, hboundary, List.length_reverse]
  have houter : (outer.reverse.mapIdx fun place s => if outer.length ≤ place ∧ s.storage = .parameter then
      { s with slot := s.slot + n } else s) = outer.reverse := by
    refine List.ext_getElem (by simp) fun i h1 h2 => ?_
    have hlt : ¬ outer.length ≤ i := by simpa using h2
    rw [List.getElem_mapIdx, if_neg fun h => hlt h.1]
  have hinner : (inner.reverse.mapIdx fun place s => if outer.length ≤ place + outer.length ∧ s.storage = .parameter then
      { s with slot := s.slot + n } else s) = inner.reverse.map (Symbol.shift n) := by
    refine List.ext_getElem (by simp) fun i h1 h2 => ?_
    simp [Symbol.shift]
  rw [houter, hinner]
  simp

namespace Represents

variable {t : SymbolTable} {scope : Scope} {scopes : Scopes} (kind : SymbolKind) (type : ValueType)
  (const : Bool) (storage : Storage)

theorem declare_of_some (h : t.Represents (scope :: scopes)) (hx : (scope.lookup x).isSome) :
    t.declare x kind type const storage = .error (.duplicate x) := by
  rw [declare, h.declaresHere_eq, if_pos hx]

/-- Declaring a new name adds it to the innermost scope. -/
theorem declare_of_none (h : t.Represents (scope :: scopes)) (hx : scope.lookup x = none) :
    t.declare x kind type const storage = .ok (t.symbols.size, t.declared x kind type const storage) ∧
      (∀ entry, (t.fresh x kind type const storage).Shows entry →
        (t.declared x kind type const storage).Represents (((x, entry) :: scope) :: scopes)) := by
  refine ⟨declare_eq_ok (by rw [h.declaresHere_eq, hx]; rfl), fun entry hshow => ?_⟩
  refine ⟨h.linked.push rfl rfl rfl, ?_, ?_, by simp⟩
  · rw [show (t.declared x kind type const storage).symbols.toList.reverse =
      t.fresh x kind type const storage :: t.symbols.toList.reverse by simp [declared]]
    exact .cons ⟨rfl, hshow⟩ h.lists
  · rw [declared, scopes_allocSlot, h.heights]
    cases scopes <;> rfl

/-- Moving the parameters up moves them in the innermost scope. -/
theorem shiftParams (h : t.Represents (scope :: scopes)) (n : Nat) : (t.shiftParams n).Represents (scope.shift n :: scopes) := by
  obtain ⟨inner, outer, hsymbols, hinner, houter⟩ := h.exists_innermost
  refine ⟨h.linked.shiftParams n, ?_, ?_, by simp⟩
  · rw [reverse_shiftParams (n := (n : Int)) hsymbols (by rw [h.boundary_eq, houter.length_eq])]
    exact List.rel_append (hinner.map_shift n) houter
  · change t.scopes = _
    rw [h.heights]
    cases scopes <;> rfl

end Represents

end SymbolTable

end OnePass

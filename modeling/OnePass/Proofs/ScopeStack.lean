import OnePass.Proofs.Scoping

/-!
# A symbol table is a stack of scopes

The flat table with its index and its links answers every sequence of operations as a stack of finite maps does, one map for each
open scope and one for the global names (`SymbolTable.answers_as_scopeStack`). The table stands for a stack if its array, cut at
the heights where the scopes start, holds the names of each map (`Spans`), and if index and links lead to the latest symbol of a
name (`Linked`). Every operation keeps this and answers the same.
-/

namespace OnePass

variable {symbols symbols' : List Symbol} {names : NameMap}

/-- An operation on a symbol table. -/
inductive TableOp where
  | enterScope
  | exitScope
  | declare (name : Bytes) (kind : SymbolKind) (type : ValueType) (const : Bool) (storage : Storage)
  | resolve (name : Bytes)
  | allocGlobal
  | beginFunction
  | endFunction
  | shiftParams (n : Int)

/-- What an operation answers. -/
inductive Answer where
  | done
  | slot (n : Nat)
  /-- The symbol that has been declared or found; none if there is no symbol where there should be one. -/
  | symbol (s : Option Symbol)
  | refused (e : SymbolError)

/-- A symbol without its link to what it hides. -/
def Symbol.plain (s : Symbol) : Symbol := { s with hidden := none }

/-- Carries out an operation on a table. One that is refused leaves the table as it is. -/
def SymbolTable.perform (t : SymbolTable) : TableOp → Answer × SymbolTable
  | .enterScope => (.done, t.enterScope)
  | .exitScope =>
    match t.exitScope with
    | .ok u => (.done, u)
    | .error e => (.refused e, t)
  | .declare name kind type const storage =>
    match t.declare name kind type const storage with
    | .ok (place, u) => (.symbol ((u.symbol? place).map Symbol.plain), u)
    | .error e => (.refused e, t)
  | .resolve name =>
    match t.resolve name with
    | .ok place => (.symbol ((t.symbol? place).map Symbol.plain), t)
    | .error e => (.refused e, t)
  | .allocGlobal => (.slot t.allocGlobal.1, t.allocGlobal.2)
  | .beginFunction => (.done, t.beginFunction)
  | .endFunction => (.done, t.endFunction)
  | .shiftParams n => (.done, t.shiftParams n)

/-! ## Stacks of scopes -/

/-- The names of a scope and what they stand for. -/
abbrev NameMap := Std.TreeMap Bytes Symbol

/-- Scopes, one within another, and the slots handed out. -/
structure ScopeStack where
  /-- The innermost scope. -/
  top : NameMap := ∅
  /-- The scopes around it, of which the global one is the last. -/
  below : List NameMap := []
  nextGlobal : Nat := 0
  nextLocal : Nat := 0
  nextParam : Nat := 0

namespace ScopeStack

/-- The number of open scopes. -/
def depth (S : ScopeStack) : Nat := S.below.length

/-- What a name stands for in the innermost scope that has it. -/
def find? (S : ScopeStack) (name : Bytes) : Option Symbol := (S.top :: S.below).findSome? (·[name]?)

/-- Hands out the next slot of a storage class. -/
def allocSlot (S : ScopeStack) : Storage → Nat × ScopeStack
  | .global => (S.nextGlobal, { S with nextGlobal := S.nextGlobal + 1 })
  | .local => (S.nextLocal, { S with nextLocal := S.nextLocal + 1 })
  | .parameter => (S.nextParam, { S with nextParam := S.nextParam + 1 })
  | .foreign _ => (0, S)

/-- Carries out an operation on a stack of scopes. One that is refused leaves the stack as it is. -/
def perform (S : ScopeStack) : TableOp → Answer × ScopeStack
  | .enterScope => (.done, { S with top := ∅, below := S.top :: S.below })
  | .exitScope =>
    match S.below with
    | [] => (.refused .noOpenScope, S)
    | top :: below => (.done, { S with top, below })
  | .declare name kind type const storage =>
    if name ∈ S.top then (.refused (.duplicate name), S)
    else
      let (slot, S') := S.allocSlot storage
      let symbol : Symbol := { name, kind, type, const, storage, slot }
      (.symbol symbol, { S' with top := S.top.insert name symbol })
  | .resolve name =>
    match S.find? name with
    | some symbol => (.symbol symbol, S)
    | none => (.refused (.undeclared name), S)
  | .allocGlobal => (.slot S.nextGlobal, { S with nextGlobal := S.nextGlobal + 1 })
  | .beginFunction => (.done, { S with nextLocal := 0, nextParam := 0 })
  | .endFunction => (.done, { S with nextParam := 0 })
  | .shiftParams n => (.done, { S with top := S.top.map fun _ s => s.shift n })

theorem top_allocSlot (S : ScopeStack) (storage : Storage) : (S.allocSlot storage).2.top = S.top := by
  cases storage <;> rfl

end ScopeStack

/-- What can be seen of a sequence of operations: the answer to each, and the number of open scopes after it. -/
def answers {σ : Type} (perform : σ → TableOp → Answer × σ) (depth : σ → Nat) : List TableOp → σ → List (Answer × Nat)
  | [], _ => []
  | op :: ops, s => ((perform s op).1, depth (perform s op).2) :: answers perform depth ops (perform s op).2

/-! ## Tables that stand for stacks -/

theorem latest_map {f : Symbol → Symbol} (hname : ∀ s, (f s).name = s.name) (x : Bytes) (symbols : List Symbol) :
    latest x (symbols.map f) = (latest x symbols).map f := by
  rw [latest, List.find?_map, latest]
  congr 2
  funext s
  simp [hname]

/-- A scope with these symbols, from the latest on, has the names of a map. -/
def Holds (symbols : List Symbol) (names : NameMap) : Prop := ∀ x, names[x]? = (latest x symbols).map Symbol.plain

theorem Holds.insert (h : Holds symbols names) (s : Symbol) : Holds (s :: symbols) (names.insert s.name s.plain) := by
  intro x
  rw [Std.TreeMap.getElem?_insert, latest_cons, h x]
  by_cases hname : s.name = x <;> simp [hname]

theorem Holds.map_shift (h : Holds symbols names) (n : Int) :
    Holds (symbols.map (Symbol.shift n)) (names.map fun _ s => s.shift n) := by
  intro x
  have hplain (s : Symbol) : s.plain.shift n = (s.shift n).plain := by
    unfold Symbol.shift Symbol.plain
    split <;> rfl
  rw [Std.TreeMap.getElem?_map, latest_map Symbol.name_shift, h x, Option.map_map, Option.map_map]
  congr 1
  funext s
  exact hplain s

/-- Symbols, from the latest on, cut at heights into scopes that have the names of these maps. -/
inductive Spans : List Symbol → List Nat → NameMap → List NameMap → Prop where
  | global {symbols : List Symbol} {top : NameMap} (htop : Holds symbols top) : Spans symbols [] top []
  | scope {inner outer : List Symbol} {heights : List Nat} {top next : NameMap} {below : List NameMap} (htop : Holds inner top)
      (houter : Spans outer heights next below) : Spans (inner ++ outer) (outer.length :: heights) top (next :: below)

namespace Spans

variable {symbols : List Symbol} {heights : List Nat} {top : NameMap} {below : List NameMap}

theorem length_eq (h : Spans symbols heights top below) : heights.length = below.length := by
  induction h with
  | global => rfl
  | scope _ _ ih => simp [ih]

/-- The innermost scope, which may be changed alone. -/
theorem innermost (h : Spans symbols heights top below) :
    ∃ inner outer, symbols = inner ++ outer ∧ heights.headD 0 = outer.length ∧
    Holds inner top ∧ ∀ {inner' top'}, Holds inner' top' → Spans (inner' ++ outer) heights top' below := by
  cases h with
  | global htop => exact ⟨symbols, [], by simp, rfl, htop, fun h' => by simpa using .global h'⟩
  | @scope inner outer _ _ _ _ htop houter => exact ⟨inner, outer, rfl, rfl, htop, fun h' => .scope h' houter⟩

/-- The latest symbol of a name is in the innermost map that has it. -/
theorem findSome? (h : Spans symbols heights top below) (x : Bytes) :
    (top :: below).findSome? (·[x]?) = (latest x symbols).map Symbol.plain := by
  induction h with
  | global htop => simp [List.findSome?, htop x]; cases latest x _ <;> rfl
  | scope htop houter ih =>
    rw [List.findSome?_cons, latest_append, htop x]
    cases latest x _ with
    | none => simpa using ih
    | some s => rfl

end Spans

/-- A table stands for a stack of scopes. -/
structure SymbolTable.Refines (t : SymbolTable) (S : ScopeStack) : Prop where
  linked : t.Linked
  spans : Spans t.symbols.toList.reverse t.scopes S.top S.below
  nextGlobal : t.nextGlobal = S.nextGlobal
  nextLocal : t.nextLocal = S.nextLocal
  nextParam : t.nextParam = S.nextParam

namespace SymbolTable.Refines

variable {t : SymbolTable} {S : ScopeStack}

section

variable (h : t.Refines S)

include h

theorem depth_eq : t.depth = S.depth := h.spans.length_eq

theorem declaresHere_eq (x : Bytes) : t.declaresHere x = decide (x ∈ S.top) := by
  obtain ⟨inner, outer, hsymbols, hboundary, htop, -⟩ := h.spans.innermost
  rw [declaresHere, h.linked.index, hsymbols, boundary, hboundary, any_placeOf_append]
  have hmem : x ∈ S.top ↔ (latest x inner).isSome := by
    rw [← Std.TreeMap.isSome_getElem?_iff_mem, htop x, Option.isSome_map]
  rw [Bool.eq_iff_iff, decide_eq_true_iff, hmem]

theorem enterScope : t.enterScope.Refines { S with top := ∅, below := S.top :: S.below } := by
  refine { h with linked := h.linked.of_eq rfl rfl, spans := ?_ }
  have htop : Holds [] ∅ := fun _ => by simp [latest]
  have hspans := Spans.scope htop h.spans
  simpa [SymbolTable.enterScope] using hspans

/-- Closing a scope drops the innermost map, if there is another below it. -/
theorem exitScope : match S.below with
    | [] => t.exitScope = .error .noOpenScope
    | top :: below => ∃ u, t.exitScope = .ok u ∧ u.Refines { S with top, below } := by
  have hspans := h.spans
  rw [SymbolTable.exitScope]
  generalize hsymbols : t.symbols.toList.reverse = symbols at hspans
  generalize t.scopes = heights at hspans
  obtain ⟨top, below, nextGlobal, nextLocal, nextParam⟩ := S
  cases hspans with
  | global => rfl
  | @scope inner outer heights _ next below htop houter =>
    have hlist : t.symbols.toList = outer.reverse ++ inner.reverse := by
      rw [← List.reverse_append, ← hsymbols, List.reverse_reverse]
    refine ⟨_, rfl, h.linked.unbind rfl rfl, ?_, h.nextGlobal, h.nextLocal, h.nextParam⟩
    simpa [hlist, List.take_append] using houter

/-- The slot that a storage class hands out. -/
theorem allocSlot (storage : Storage) :
    (t.allocSlot storage).1 = (S.allocSlot storage).1 ∧ (t.allocSlot storage).2.Refines (S.allocSlot storage).2 := by
  cases storage with
  | global => exact ⟨h.nextGlobal, { h with linked := h.linked.of_eq rfl rfl, nextGlobal := congrArg (· + 1) h.nextGlobal }⟩
  | «local» => exact ⟨h.nextLocal, { h with linked := h.linked.of_eq rfl rfl, nextLocal := congrArg (· + 1) h.nextLocal }⟩
  | parameter => exact ⟨h.nextParam, { h with linked := h.linked.of_eq rfl rfl, nextParam := congrArg (· + 1) h.nextParam }⟩
  | foreign => exact ⟨rfl, h⟩

theorem declared (name : Bytes) (kind : SymbolKind) (type : ValueType) (const : Bool) (storage : Storage) :
    (t.declared name kind type const storage).Refines
      { (S.allocSlot storage).2 with
        top := (S.allocSlot storage).2.top.insert name
          { name, kind, type, const, storage, slot := (S.allocSlot storage).1 } } := by
  obtain ⟨hslot, hu⟩ := h.allocSlot storage
  obtain ⟨inner, outer, hsymbols, -, htop, hspans⟩ := hu.spans.innermost
  refine { hu with linked := h.linked.push rfl rfl rfl, spans := ?_ }
  have hinsert := hspans (htop.insert (t.fresh name kind type const storage))
  rw [List.cons_append, ← hsymbols, symbols_allocSlot] at hinsert
  simpa [SymbolTable.declared, fresh, Symbol.plain, hslot] using hinsert

theorem shiftParams (n : Int) : (t.shiftParams n).Refines { S with top := S.top.map fun _ s => s.shift n } := by
  obtain ⟨inner, outer, hsymbols, hboundary, htop, hspans⟩ := h.spans.innermost
  have hlist : t.symbols.toList = outer.reverse ++ inner.reverse := by
    rw [← List.reverse_append, ← hsymbols, List.reverse_reverse]
  have hshifted := reverse_shiftParams (n := n) hlist hboundary
  refine { h with linked := h.linked.shiftParams n, spans := ?_ }
  rw [hshifted]
  exact hspans (htop.map_shift n)

/-- An operation answers the same on a table and on the stack that it stands for, and leaves them so. -/
theorem perform (op : TableOp) : (t.perform op).1 = (S.perform op).1 ∧ (t.perform op).2.Refines (S.perform op).2 := by
  cases op with
  | enterScope => exact ⟨rfl, h.enterScope⟩
  | exitScope =>
    have hexit := h.exitScope
    rw [SymbolTable.perform, ScopeStack.perform]
    cases hbelow : S.below with
    | nil =>
      rw [hbelow] at hexit
      simp only [hexit]
      exact ⟨trivial, h⟩
    | cons top below =>
      rw [hbelow] at hexit
      obtain ⟨u, hu, hrefines⟩ := hexit
      simp only [hu]
      exact ⟨trivial, hrefines⟩
  | declare name kind type const storage =>
    have hhere := h.declaresHere_eq name
    rw [SymbolTable.perform, ScopeStack.perform]
    by_cases hmem : name ∈ S.top
    · rw [declare, hhere, if_pos (decide_eq_true hmem), if_pos hmem]
      exact ⟨rfl, h⟩
    · rw [declare_eq_ok (hhere.trans (decide_eq_false hmem)), if_neg hmem]
      simp only [symbol?_declared, Option.map_some, fresh, Symbol.plain, (h.allocSlot storage).1]
      exact ⟨trivial, ScopeStack.top_allocSlot S storage ▸ h.declared name kind type const storage⟩
  | resolve name =>
    have hresolve := h.linked.resolve name
    rw [SymbolTable.perform, ScopeStack.perform, ScopeStack.find?, h.spans.findSome?]
    cases hlatest : latest name t.symbols.toList.reverse with
    | none =>
      rw [hlatest] at hresolve
      simp only [hresolve, Option.map_none]
      exact ⟨trivial, h⟩
    | some s =>
      rw [hlatest] at hresolve
      obtain ⟨place, hplace, hsymbol⟩ := hresolve
      simp only [hplace, hsymbol, Option.map_some]
      exact ⟨trivial, h⟩
  | allocGlobal => exact ⟨congrArg _ h.nextGlobal, (h.allocSlot .global).2⟩
  | beginFunction => exact ⟨rfl, { h with linked := h.linked.of_eq rfl rfl, nextLocal := rfl, nextParam := rfl }⟩
  | endFunction => exact ⟨rfl, { h with linked := h.linked.of_eq rfl rfl, nextParam := rfl }⟩
  | shiftParams n => exact ⟨rfl, h.shiftParams n⟩

/-- What each operation answers alike, a sequence of them does. -/
theorem answers (ops : List TableOp) :
    answers SymbolTable.perform depth ops t = answers ScopeStack.perform ScopeStack.depth ops S := by
  induction ops generalizing t S with
  | nil => rfl
  | cons op ops ih =>
    obtain ⟨hanswer, hrefines⟩ := h.perform op
    rw [OnePass.answers, OnePass.answers, hanswer, hrefines.depth_eq, ih hrefines]

end

theorem empty : SymbolTable.Refines {} {} :=
  ⟨⟨.nil, fun _ => by simp [placeOf]⟩, .global fun _ => by simp [latest], rfl, rfl, rfl⟩

end SymbolTable.Refines

/-! ## Scopes and where they were entered -/

/-- A table and what it was when each of its open scopes was entered, the innermost first. -/
structure Session where
  table : SymbolTable := {}
  entered : List SymbolTable := []

/-- Carries out an operation and keeps track of where the open scopes were entered. -/
def Session.perform (s : Session) (op : TableOp) : Session where
  table := (s.table.perform op).2
  entered := match op with
    | .enterScope => s.table :: s.entered
    | .exitScope => s.entered.tail
    | _ => s.entered

/-- The session after a sequence of operations on a fresh table. -/
def Session.after (ops : List TableOp) : Session := ops.foldl Session.perform {}

/-- The scopes of a table start where these other tables end, whose symbols it still has. -/
inductive SymbolTable.Nests : SymbolTable → List SymbolTable → Prop where
  | global {t : SymbolTable} (hscopes : t.scopes = []) : Nests t []
  | scope {t u : SymbolTable} {entered : List SymbolTable} (hscopes : t.scopes = u.symbols.size :: u.scopes)
      (hsymbols : t.symbols.take u.symbols.size = u.symbols) (hu : Nests u entered) : Nests t (u :: entered)

namespace SymbolTable.Nests

variable {t u : SymbolTable} {entered : List SymbolTable}

section

variable (h : t.Nests entered)

include h

/-- The innermost scope may be changed alone. -/
theorem change (hscopes : u.scopes = t.scopes) (hsymbols : u.symbols.take t.boundary = t.symbols.take t.boundary) :
    u.Nests entered := by
  cases h with
  | global h => exact .global (hscopes.trans h)
  | scope h hbase hu =>
    rw [boundary, h] at hsymbols
    exact .scope (hscopes.trans h) (hsymbols.trans hbase) hu

theorem enterScope : t.enterScope.Nests (t :: entered) := .scope rfl (by simp [SymbolTable.enterScope]) h

theorem depth_eq : t.depth = entered.length := by
  induction h with
  | global hscopes => simp [depth, hscopes]
  | scope hscopes _ _ ih => simp [depth, hscopes, ← ih]

theorem boundary_le : t.boundary ≤ t.symbols.size := by
  cases h with
  | global h => simp [boundary, h]
  | scope h hbase hu =>
    have hsize := congrArg Array.size hbase
    rw [boundary, h, List.headD_cons]
    simp only [Array.take_eq_extract, Array.size_extract] at hsize
    omega

theorem declared (name : Bytes) (kind : SymbolKind) (type : ValueType) (const : Bool) (storage : Storage) :
    (t.declared name kind type const storage).Nests entered := by
  refine h.change (scopes_allocSlot t storage) ?_
  have hle := h.boundary_le
  simp only [SymbolTable.declared, Array.take_eq_extract]
  exact Array.extract_push_of_le hle

theorem shiftParams (n : Int) : (t.shiftParams n).Nests entered := by
  refine h.change rfl (Array.ext (by simp [SymbolTable.shiftParams]) fun i hi hi' => ?_)
  have hlt : ¬ t.boundary ≤ i := by
    simp only [Array.take_eq_extract, Array.size_extract] at hi'
    omega
  simp [SymbolTable.shiftParams, hlt]

end

/-- Closing a scope leaves the symbols that there were when it was entered. -/
theorem exitScope (h : t.Nests (u :: entered)) : ∃ t', t.exitScope = .ok t' ∧ t'.symbols = u.symbols ∧ t'.scopes = u.scopes := by
  cases h with
  | scope hscopes hsymbols hu =>
    rw [SymbolTable.exitScope, hscopes]
    exact ⟨_, rfl, hsymbols, rfl⟩

end SymbolTable.Nests

/-- A session whose tables stand for stacks of scopes, each nested in the one where its innermost scope was entered. -/
structure Session.Sound (s : Session) : Prop where
  refines : ∀ t ∈ s.table :: s.entered, ∃ S, t.Refines S
  nests : s.table.Nests s.entered

namespace Session.Sound

variable {s : Session}

theorem nests_perform (h : s.Sound) (op : TableOp) : (s.perform op).table.Nests (s.perform op).entered := by
  have hnests := h.nests
  cases op with
  | enterScope => exact hnests.enterScope
  | exitScope =>
    rw [perform, SymbolTable.perform]
    cases hentered : s.entered with
    | nil =>
      rw [hentered] at hnests
      cases hnests with
      | global hscopes =>
        simp only [SymbolTable.exitScope, hscopes]
        exact .global hscopes
    | cons u entered =>
      rw [hentered] at hnests
      obtain ⟨t', hexit, hsymbols, hscopes⟩ := hnests.exitScope
      simp only [hexit]
      cases hnests with
      | scope _ _ hu => exact hu.change hscopes (by rw [hsymbols])
  | declare name kind type const storage =>
    change (s.table.perform _).2.Nests s.entered
    rw [SymbolTable.perform]
    cases hhere : s.table.declaresHere name with
    | true =>
      rw [SymbolTable.declare, hhere]
      exact hnests
    | false =>
      rw [SymbolTable.declare_eq_ok hhere]
      exact hnests.declared name kind type const storage
  | resolve name =>
    change (s.table.perform _).2.Nests s.entered
    rw [SymbolTable.perform]
    cases s.table.resolve name <;> exact hnests
  | allocGlobal | beginFunction | endFunction => exact hnests.change rfl rfl
  | shiftParams n => exact hnests.shiftParams n

theorem perform (h : s.Sound) (op : TableOp) : (s.perform op).Sound := by
  refine ⟨fun t ht => ?_, h.nests_perform op⟩
  rcases List.mem_cons.1 ht with rfl | ht
  · obtain ⟨S, hS⟩ := h.refines s.table List.mem_cons_self
    exact ⟨_, (hS.perform op).2⟩
  · have hsub : t ∈ s.table :: s.entered := by
      cases op with
      | enterScope => exact ht
      | exitScope => exact List.mem_cons_of_mem _ (List.mem_of_mem_tail ht)
      | _ => exact List.mem_cons_of_mem _ ht
    exact h.refines t hsub

theorem after (ops : List TableOp) : (Session.after ops).Sound := by
  have hempty : Session.Sound {} := by
    refine ⟨fun t ht => ?_, .global rfl⟩
    rw [List.mem_singleton.1 ht]
    exact ⟨_, .empty⟩
  rw [Session.after]
  generalize ({} : Session) = s at hempty
  induction ops generalizing s with
  | nil => exact hempty
  | cons op ops ih => exact ih _ (hempty.perform op)

/-- Closing the innermost scope makes every name resolve to the symbol that it stood for when the scope was entered. -/
theorem exitScope (h : s.Sound) : match s.entered with
    | [] => s.table.exitScope = .error .noOpenScope
    | u :: _ => ∃ t, s.table.exitScope = .ok t ∧ t.symbols = u.symbols ∧ ∀ name, t.resolve name = u.resolve name := by
  have hnests := h.nests
  cases hentered : s.entered with
  | nil =>
    rw [hentered] at hnests
    cases hnests with
    | global hscopes => simp only [SymbolTable.exitScope, hscopes]
  | cons u entered =>
    rw [hentered] at hnests
    obtain ⟨t, hexit, hsymbols, hscopes⟩ := hnests.exitScope
    obtain ⟨S, hS⟩ := (h.perform .exitScope).refines t (by simp [Session.perform, SymbolTable.perform, hexit])
    obtain ⟨U, hU⟩ := h.refines u (by simp [hentered])
    refine ⟨t, hexit, hsymbols, fun name => ?_⟩
    rw [SymbolTable.resolve, SymbolTable.resolve, hS.linked.index, hU.linked.index, hsymbols]

end Session.Sound

/-- A symbol table answers every sequence of operations as a stack of finite maps does, one for each open scope and one for the
global names. Closing a scope is refused if none is open; else it leaves the very symbols that there were when that scope was
entered, and every name resolves to the same of them. -/
theorem SymbolTable.answers_as_scopeStack (ops : List TableOp) :
    answers SymbolTable.perform SymbolTable.depth ops {} = answers ScopeStack.perform ScopeStack.depth ops {} ∧
    (Session.after ops).table.depth = (Session.after ops).entered.length ∧
    match (Session.after ops).entered with
    | [] => (Session.after ops).table.exitScope = .error .noOpenScope
    | u :: _ => ∃ t, (Session.after ops).table.exitScope = .ok t ∧ t.symbols = u.symbols ∧
        ∀ name, t.resolve name = u.resolve name :=
  have h := Session.Sound.after ops
  ⟨Refines.empty.answers ops, h.nests.depth_eq, h.exitScope⟩

end OnePass

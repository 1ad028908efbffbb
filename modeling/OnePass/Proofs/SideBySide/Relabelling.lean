import OnePass.Proofs.Scoping

/-!
# Relabellings

A relabelling gives other names to what a program names, and other positions to its tokens. It keeps apart the names that occur,
and leaves alone those that mean something by themselves: that of the main function and those of the primitives. What it does to a
token it does to a fault, to a symbol, to a symbol table and to a pool, whose texts are no names (`Relabelling.Pools`). Every
operation on a table and on its relabelled one comes to the same (`Relabelling.Tables`).
-/

namespace OnePass

/-- New names and new positions for a program. -/
structure Relabelling where
  name : Bytes → Bytes
  pos : Pos → Pos
  /-- The names that occur in the program. -/
  Occurs : Bytes → Prop
  injective : ∀ {x y}, Occurs x → Occurs y → name x = name y → x = y
  occurs_main : Occurs Analysis.mainName
  name_main : name Analysis.mainName = Analysis.mainName
  occurs_primitive : ∀ p : Primitive, Occurs p.name
  name_primitive : ∀ p : Primitive, name p.name = p.name

/-- The name of the primitive that is found by it. -/
theorem Primitive.name_of_ofName? {x : Bytes} {p : Primitive} (h : Primitive.ofName? x = some p) : p.name = x := by
  have hp := List.find?_some h
  exact eq_of_beq hp

namespace Relabelling

variable (ρ : Relabelling)

/-- The lexeme of a token of a kind. Only names change. -/
def lexeme (kind : TokenKind) (text : Bytes) : Bytes := if kind = .identifier then ρ.name text else text

/-- The token with its new name and position. -/
def token (t : Token) : Token := { t with lexeme := ρ.lexeme t.kind t.lexeme, pos := ρ.pos t.pos }

/-- The fault with the new names that it speaks of. -/
def fault : Fault → Fault
  | .expected wanted got text => .expected wanted got (ρ.lexeme got text)
  | .expectedType got text => .expectedType got (ρ.lexeme got text)
  | .expectedDefinition got text => .expectedDefinition got (ρ.lexeme got text)
  | .expectedExpression got text => .expectedExpression got (ρ.lexeme got text)
  | .duplicate x => .duplicate (ρ.name x)
  | .undeclared x => .undeclared (ρ.name x)
  | .constantAssigned x => .constantAssigned (ρ.name x)
  | .unassigned x => .unassigned (ρ.name x)
  | .functionAsValue x => .functionAsValue (ρ.name x)
  | .assigned value wanted x => .assigned value wanted (ρ.name x)
  | .argument number f wanted got => .argument number (ρ.name f) wanted got
  | .arity f wanted got => .arity (ρ.name f) wanted got
  | .voidParameter x => .voidParameter (ρ.name x)
  | .voidVariable x => .voidVariable (ρ.name x)
  | .initialValue wanted x value => .initialValue wanted (ρ.name x) value
  | .notFunction x => .notFunction (ρ.name x)
  | .noFunction x => .noFunction (ρ.name x)
  | .openEnd f => .openEnd (ρ.name f)
  | fault => fault

/-- The diagnostic with its new names and position. -/
def diagnostic (d : Diagnostic) : Diagnostic := ⟨ρ.pos d.pos, ρ.fault d.fault⟩

/-- The failure with its new names and position. -/
def failure : Failure → Failure
  | .diagnostic d => .diagnostic (ρ.diagnostic d)
  | .breach b => .breach b

/-- The symbol with its new name. -/
def symbol (s : Symbol) : Symbol := { s with name := ρ.name s.name }

/-- The global with its new name, which a function has for its value. -/
def global (g : Global) : Global :=
  match g.value with
  | some f => { g with value := some (ρ.name f) }
  | none => { g with name := ρ.name g.name }

/-- The pending operators at their new positions. -/
def pending (p : Pending) : Pending := { p with ops := p.ops.map fun w => { w with pos := ρ.pos w.pos } }

/-- A new name makes no fault of another class. -/
@[simp] theorem kind_fault (f : Fault) : (ρ.fault f).kind = f.kind := by cases f <;> rfl

theorem fault_code {op : Operator} {left right : ValueType} {f : Fault} (h : op.code left right = .error f) : ρ.fault f = f := by
  cases op <;> cases left <;> cases right <;> cases h <;> rfl

/-- A name in scope or not, it is the name of a primitive just if the new one is. -/
theorem ofName?_name {x : Bytes} (hx : ρ.Occurs x) : Primitive.ofName? (ρ.name x) = Primitive.ofName? x := by
  have hiff (p : Primitive) : p.name = ρ.name x ↔ p.name = x := by
    constructor
    · intro h
      exact ρ.injective (ρ.occurs_primitive p) hx ((ρ.name_primitive p).trans h)
    · rintro rfl
      exact (ρ.name_primitive p).symm
  have hsame : (fun p : Primitive => p.name == ρ.name x) = fun p => p.name == x := by
    funext p
    rw [Bool.eq_iff_iff, beq_iff_eq, beq_iff_eq]
    exact hiff p
  rw [Primitive.ofName?, Primitive.ofName?, hsame]

/-- The name of a primitive stays. -/
theorem name_of_ofName? {x : Bytes} {p : Primitive} (h : Primitive.ofName? x = some p) : ρ.name x = x := by
  rw [← Primitive.name_of_ofName? h, ρ.name_primitive]

/-! ## Pending operators -/

theorem apply_pending (w : Waiting) (types : List ValueType) : Pending.apply { w with pos := ρ.pos w.pos } types =
      { Pending.apply w types with result := (Pending.apply w types).result.mapError ρ.diagnostic } := by
  rcases types with _ | ⟨right, _ | ⟨left, types⟩⟩
  · rfl
  · rfl
  · simp only [Pending.apply]
    cases hcode : w.op.code left right with
    | error f =>
      have hmoved : ρ.diagnostic ⟨w.pos, f⟩ = ⟨ρ.pos w.pos, f⟩ := by simp [diagnostic, ρ.fault_code hcode]
      dsimp only
      rw [← hmoved]
      rfl
    | ok r => rfl

theorem applyWhile_pending (due : Operator → Bool) (p : Pending) :
    Pending.applyWhile due (ρ.pending p).ops (ρ.pending p).types =
      ((Pending.applyWhile due p.ops p.types).map fun r => (ρ.pending r.1, r.2)).mapError ρ.diagnostic := by
  obtain ⟨ops, types⟩ := p
  induction ops generalizing types with
  | nil => rfl
  | cons w ops ih =>
    simp only [pending, List.map_cons, Pending.applyWhile]
    split
    · rw [apply_pending]
      cases hresult : (Pending.apply w types).result with
      | error d => rfl
      | ok code =>
        have hrest := ih (Pending.apply w types).types
        simp only [pending] at hrest
        have hok : (Except.ok code : Except Diagnostic (List Instruction)).mapError ρ.diagnostic = .ok code := rfl
        simp only [hok, hrest]
        cases Pending.applyWhile due ops (Pending.apply w types).types <;> rfl
    · rfl

/-! ## Pools -/

/-- The second pool is the first one with the new names. The texts among its globals stay. -/
structure Pools (IsText : Nat → Prop) (pool pool' : Array Global) : Prop where
  size : pool'.size = pool.size
  below : ∀ n, IsText n → n < pool.size
  text : ∀ n, IsText n → pool'[n]? = pool[n]?
  named : ∀ n, ¬ IsText n → pool'[n]? = pool[n]?.map ρ.global

namespace Pools

variable {ρ} {IsText IsText' : Nat → Prop} {pool pool' : Array Global}

theorem empty : ρ.Pools (fun _ => False) #[] #[] := ⟨rfl, fun _ => False.elim, fun _ => False.elim, by simp⟩

/-- A text behind the others. -/
theorem push_text (h : ρ.Pools IsText pool pool') (g : Global) (hiff : ∀ n, IsText' n ↔ n = pool.size ∨ IsText n) :
    ρ.Pools IsText' (pool.push g) (pool'.push g) where
  size := by simp [h.size]
  below n hn := by
    rw [Array.size_push]
    rcases (hiff n).1 hn with rfl | hn
    · exact Nat.lt_succ_self _
    · exact Nat.lt_succ_of_lt (h.below n hn)
  text n hn := by
    rw [Array.getElem?_push, Array.getElem?_push, h.size]
    split
    · rfl
    · exact h.text n (((hiff n).1 hn).resolve_left ‹_›)
  named n hn := by
    obtain ⟨hlast, hn⟩ := not_or.1 (mt (hiff n).2 hn)
    rw [Array.getElem?_push, Array.getElem?_push, h.size, if_neg hlast, if_neg hlast]
    exact h.named n hn

/-- A function or a variable behind the others. -/
theorem push_named (h : ρ.Pools IsText pool pool') (g : Global) : ρ.Pools IsText (pool.push g) (pool'.push (ρ.global g)) where
  size := by simp [h.size]
  below n hn := by
    rw [Array.size_push]
    exact Nat.lt_succ_of_lt (h.below n hn)
  text n hn := by
    have hlast := Nat.ne_of_lt (h.below n hn)
    rw [Array.getElem?_push, Array.getElem?_push, h.size, if_neg hlast, if_neg hlast]
    exact h.text n hn
  named n hn := by
    rw [Array.getElem?_push, Array.getElem?_push, h.size]
    split
    · rfl
    · exact h.named n hn

end Pools

/-! ## Symbol tables -/

/-- The second table is the first one with the new names. -/
structure Tables (t u : SymbolTable) : Prop where
  symbols : u.symbols = t.symbols.map ρ.symbol
  occurs : ∀ s ∈ t.symbols, ρ.Occurs s.name
  index : ∀ x, ρ.Occurs x → u.index[ρ.name x]? = t.index[x]?
  scopes : u.scopes = t.scopes
  nextGlobal : u.nextGlobal = t.nextGlobal
  nextLocal : u.nextLocal = t.nextLocal
  nextParam : u.nextParam = t.nextParam

namespace Tables

variable {ρ} {t u : SymbolTable}

theorem empty : ρ.Tables {} {} where
  symbols := Array.map_empty.symm
  occurs := by simp
  index x _ := by rw [Std.TreeMap.getElem?_emptyc, Std.TreeMap.getElem?_emptyc]
  scopes := rfl
  nextGlobal := rfl
  nextLocal := rfl
  nextParam := rfl

section

variable (h : ρ.Tables t u)

include h

theorem boundary : u.boundary = t.boundary := congrArg (List.headD · 0) h.scopes

theorem depth : u.depth = t.depth := congrArg List.length h.scopes

theorem size : u.symbols.size = t.symbols.size := by rw [h.symbols, Array.size_map]

theorem symbol? (place : Nat) : u.symbol? place = (t.symbol? place).map ρ.symbol := by
  rw [SymbolTable.symbol?, SymbolTable.symbol?, h.symbols, Array.getElem?_map]

/-- The new name is found where the old one is. -/
theorem resolve {x : Bytes} (hx : ρ.Occurs x) :
    (∃ place, t.resolve x = .ok place ∧ u.resolve (ρ.name x) = .ok place) ∨
      t.resolve x = .error (.undeclared x) ∧ u.resolve (ρ.name x) = .error (.undeclared (ρ.name x)) := by
  have hindex := h.index x hx
  rw [SymbolTable.resolve, SymbolTable.resolve, hindex]
  cases t.index[x]? with
  | none => exact .inr ⟨rfl, rfl⟩
  | some place => exact .inl ⟨place, rfl, rfl⟩

theorem enterScope : ρ.Tables t.enterScope u.enterScope :=
  { h with scopes := by rw [SymbolTable.enterScope, SymbolTable.enterScope, h.size, h.scopes] }

theorem beginFunction : ρ.Tables t.beginFunction u.beginFunction :=
  { h with nextLocal := rfl, nextParam := rfl }

theorem endFunction : ρ.Tables t.endFunction u.endFunction := { h with nextParam := rfl }

theorem allocGlobal : u.allocGlobal.1 = t.allocGlobal.1 ∧ ρ.Tables t.allocGlobal.2 u.allocGlobal.2 :=
  ⟨h.nextGlobal, { h with nextGlobal := congrArg Nat.succ h.nextGlobal }⟩

theorem allocSlot (storage : Storage) :
    (u.allocSlot storage).1 = (t.allocSlot storage).1 ∧ ρ.Tables (t.allocSlot storage).2 (u.allocSlot storage).2 := by
  cases storage with
  | global => exact h.allocGlobal
  | «local» => exact ⟨h.nextLocal, { h with nextLocal := congrArg Nat.succ h.nextLocal }⟩
  | parameter => exact ⟨h.nextParam, { h with nextParam := congrArg Nat.succ h.nextParam }⟩
  | foreign _ => exact ⟨rfl, h⟩

/-- A change of a symbol that has nothing to do with its name. -/
theorem update {f : Symbol → Symbol} (hf : ∀ s, f (ρ.symbol s) = ρ.symbol (f s)) (hname : ∀ s, (f s).name = s.name)
    (place : Nat) : ρ.Tables (t.update place f) (u.update place f) := by
  refine { h with symbols := ?_, occurs := ?_ }
  · refine Array.ext_getElem? fun i => ?_
    simp only [SymbolTable.update, h.symbols, Array.getElem?_map, Array.getElem?_modify]
    split
    · cases t.symbols[i]? <;> simp [hf]
    · rfl
  · intro s hs
    obtain ⟨i, hi, rfl⟩ := Array.mem_iff_getElem.1 hs
    simp only [SymbolTable.update, Array.getElem_modify]
    split
    · rw [hname]
      exact h.occurs _ (Array.getElem_mem _)
    · exact h.occurs _ (Array.getElem_mem _)

theorem shiftParams (n : Int) : ρ.Tables (t.shiftParams n) (u.shiftParams n) := by
  refine { h with symbols := ?_, occurs := ?_ }
  · refine Array.ext_getElem? fun i => ?_
    simp only [SymbolTable.shiftParams, h.symbols, h.boundary, Array.getElem?_map, Array.getElem?_mapIdx, Option.map_map]
    cases t.symbols[i]? with
    | none => rfl
    | some s =>
      by_cases hparam : t.boundary ≤ i ∧ s.storage = .parameter <;> simp [symbol, hparam]
  · intro s hs
    obtain ⟨i, hi, rfl⟩ := Array.mem_iff_getElem.1 hs
    have hsymbol := h.occurs _ (Array.getElem_mem (by simpa [SymbolTable.shiftParams] using hi))
    simp only [SymbolTable.shiftParams, Array.getElem_mapIdx]
    split <;> exact hsymbol

theorem index_insert {x : Bytes} (hx : ρ.Occurs x) (place : Nat) :
    ∀ y, ρ.Occurs y → (u.index.insert (ρ.name x) place)[ρ.name y]? = (t.index.insert x place)[y]? := by
  intro y hy
  rw [Std.TreeMap.getElem?_insert, Std.TreeMap.getElem?_insert, h.index y hy]
  by_cases hxy : x = y
  · simp [hxy]
  · have hne : ρ.name x ≠ ρ.name y := fun heq => hxy (ρ.injective hx hy heq)
    simp [hxy, hne]

theorem declared {x : Bytes} (hx : ρ.Occurs x) (kind : SymbolKind) (type : ValueType) (const : Bool)
    (storage : Storage) : ρ.Tables (t.declared x kind type const storage) (u.declared (ρ.name x) kind type const storage) := by
  obtain ⟨hslot, halloc⟩ := h.allocSlot storage
  refine { halloc with symbols := ?_, occurs := ?_, index := ?_ }
  · simp only [SymbolTable.declared, SymbolTable.fresh, h.symbols, h.index x hx, hslot, Array.map_push]
    rfl
  · intro s hs
    rcases Array.mem_push.1 hs with hs | rfl
    · exact h.occurs s hs
    · exact hx
  · rw [SymbolTable.declared, SymbolTable.declared, h.size]
    exact h.index_insert hx _

/-- The new name is new to the scope just if the old one is, and is declared in the same place. -/
theorem declare {x : Bytes} (hx : ρ.Occurs x) (kind : SymbolKind) (type : ValueType) (const : Bool)
    (storage : Storage) :
    (∃ place t' u', t.declare x kind type const storage = .ok (place, t') ∧
      u.declare (ρ.name x) kind type const storage = .ok (place, u') ∧ ρ.Tables t' u') ∨
    t.declare x kind type const storage = .error (.duplicate x) ∧
      u.declare (ρ.name x) kind type const storage = .error (.duplicate (ρ.name x)) := by
  have hhere : u.declaresHere (ρ.name x) = t.declaresHere x := by
    rw [SymbolTable.declaresHere, SymbolTable.declaresHere, h.index x hx, h.boundary]
  cases hdup : t.declaresHere x with
  | true =>
    rw [hdup] at hhere
    rw [SymbolTable.declare, SymbolTable.declare, if_pos hdup, if_pos hhere]
    exact .inr ⟨rfl, rfl⟩
  | false =>
    rw [hdup] at hhere
    refine .inl ⟨_, _, _, SymbolTable.declare_eq_ok hdup, ?_, h.declared hx kind type const storage⟩
    rw [SymbolTable.declare_eq_ok hhere, h.size]

end

/-- Closing a scope brings back the same symbols. -/
theorem index_unbind {symbols : List Symbol} (hoccurs : ∀ s ∈ symbols, ρ.Occurs s.name) {index index' : Std.TreeMap Bytes Nat}
    (h : ∀ x, ρ.Occurs x → index'[ρ.name x]? = index[x]?) : ∀ x, ρ.Occurs x →
      ((symbols.map ρ.symbol).foldr SymbolTable.unbind index')[ρ.name x]? = (symbols.foldr SymbolTable.unbind index)[x]? := by
  induction symbols with
  | nil => exact h
  | cons s symbols ih =>
    obtain ⟨hs, hsymbols⟩ := List.forall_mem_cons.1 hoccurs
    intro x hx
    have hrest := ih hsymbols x hx
    simp only [List.map_cons, List.foldr_cons, SymbolTable.unbind, symbol]
    have hiff : ρ.name s.name = ρ.name x ↔ s.name = x := ⟨ρ.injective hs hx, congrArg ρ.name⟩
    cases s.hidden <;> simp [Std.TreeMap.getElem?_insert, Std.TreeMap.getElem?_erase, hiff, hrest]

theorem exitScope (h : ρ.Tables t u) :
    (∃ t' u', t.exitScope = .ok t' ∧ u.exitScope = .ok u' ∧ ρ.Tables t' u') ∨
      t.exitScope = .error .noOpenScope ∧ u.exitScope = .error .noOpenScope := by
  rw [SymbolTable.exitScope, SymbolTable.exitScope, h.scopes]
  cases t.scopes with
  | nil => exact .inr ⟨rfl, rfl⟩
  | cons height scopes =>
    refine .inl ⟨_, _, rfl, rfl, { h with symbols := ?_, occurs := ?_, index := ?_, scopes := rfl }⟩
    · simp [h.symbols]
    · intro s hs
      obtain ⟨i, hi, rfl⟩ := Array.mem_iff_getElem.1 hs
      exact h.occurs _ (by simp)
    · have hoccurs : ∀ s ∈ t.symbols.toList.drop height, ρ.Occurs s.name := fun s hs =>
        h.occurs s (Array.mem_toList_iff.1 (List.mem_of_mem_drop hs))
      have hdrop : u.symbols.toList.drop height = (t.symbols.toList.drop height).map ρ.symbol := by
        rw [h.symbols, Array.toList_map, List.map_drop]
      rw [hdrop]
      exact index_unbind hoccurs h.index

end Tables

end Relabelling

end OnePass

import OnePass.Proofs.Lexical.Tiling
import OnePass.Proofs.Pool.Operands
import OnePass.Proofs.Shapes.Code
import OnePass.Proofs.Trees
import OnePass.Sidecar

/-!
# What a sidecar says of a pool

A sidecar is made from a program alone: a slot with a declared name is a variable's, one that a header names is a function's, one
that is called by name is a primitive's, and any other is taken for a literal. Of a compiled program this tells what each entry of
its pool was made for (`compile_describes_slots`), with one exception: where all calls of a primitive are in code that has been
dropped, no instruction names its slot, and it is taken for a literal.
-/

namespace OnePass

variable {A : Source} {entry : PoolEntry} {x : Bytes} {c c' : Context}

/-- Code that is kept calls the primitive. -/
def Source.calls (A : Source) (f : Bytes) : Bool := A.mentions.flatten.contains (.primitive f)

/-- How a sidecar describes an entry of the pool of a program. -/
def Source.slotEntry (A : Source) (entry : PoolEntry) (slot : Nat) : SlotEntry :=
  match entry with
  | .function f => { slot := .ofNat slot, kind := .function, name := f }
  | .variable const x => { slot := .ofNat slot, kind := if const then .constant else .var, name := x }
  | .literal content => { slot := .ofNat slot, kind := .string, text := content }
  | .primitive f =>
    if A.calls f then { slot := .ofNat slot, kind := .native, name := f } else { slot := .ofNat slot, kind := .string, text := f }

/-! ## Names -/

theorem Bytes.ofChars_ne_nil {cs : List Char} (h : cs ≠ []) : Bytes.ofChars cs ≠ [] := by
  obtain ⟨c, rest, rfl⟩ := List.exists_cons_of_ne_nil h
  intro hnil
  have hc := (List.append_eq_nil_iff.1 hnil).1
  have := String.length_utf8EncodeChar c
  have := c.utf8Size_pos
  rw [hc, List.length_nil] at *
  omega

/-- An identifier is not empty. -/
theorem Token.Spells.lexeme_ne_nil {t : Token} {span after : List Char} (h : t.Spells span after) (hkind : t.kind = .identifier) :
    t.lexeme ≠ [] := by
  cases h with
  | word hspan _ _ hlexeme =>
    obtain ⟨c, rest, rfl, -⟩ := hspan
    rw [hlexeme]
    exact Bytes.ofChars_ne_nil (List.cons_ne_nil _ _)
  | sign hspan =>
    have hsigns : ∀ entry ∈ Lexer.signs, entry.2 ≠ .identifier := by decide
    exact absurd hkind (hsigns _ hspan)
  | _ => simp_all

theorem Lexer.Tiled.spells {before last : List Char} {tiles : List Tile} (h : Tiled before tiles last)
    {tile : Tile} (htile : tile ∈ tiles) :
    ∃ after, tile.token.Spells tile.span after := by
  induction tiles generalizing before with
  | nil => cases htile
  | cons first tiles ih =>
    obtain ⟨hfits, htiled⟩ := h
    rcases List.mem_cons.1 htile with rfl | htile
    · exact ⟨_, hfits.spelling⟩
    · exact ih htiled htile

/-- No name in a source is empty. -/
theorem Source.IsTreeOf.name_ne_nil {source : Bytes} (hA : A.IsTreeOf source) (hx : .name x ∈ A.yield) : x ≠ [] := by
  have hmem : .name x ∈ (lex source).1.map Token.terminal := by
    rw [hA.tokens]
    exact List.mem_append_left _ hx
  obtain ⟨t, ht, hname⟩ := List.mem_map.1 hmem
  have hkind : t.kind = .identifier := by rw [← t.kind_terminal, hname]; rfl
  have hpos : (Lexer.Cursor.ofSource source).pos = .behind [] := rfl
  obtain ⟨tiles, last, -, htiled, htokens⟩ := Lexer.lexFrom_tiles hpos hA.lexes
  change (lex source).1 = _ at htokens
  rw [htokens] at ht
  rcases List.mem_append.1 ht with ht | ht
  · obtain ⟨tile, htile, rfl⟩ := List.mem_map.1 ht
    obtain ⟨after, hspells⟩ := htiled.spells htile
    rw [← Token.lexeme_of_name hname]
    exact hspells.lexeme_ne_nil hkind
  · rw [List.mem_singleton.1 ht] at hkind
    cases hkind

/-! ## Needs -/

mutual

theorem Expr.isShared_needs (N : Sight) : ∀ (e : Expr), ∀ need ∈ e.needs N, need.isShared = true
  | .int _ | .double _ | .name _ => by
    intro need hneed
    cases hneed
  | .text _ content => by
    intro need hneed
    rw [List.mem_singleton.1 hneed]
    rfl
  | .assign _ value | .paren value | .neg value | .cast value _ => value.isShared_needs N
  | .call f args => by
    intro need hneed
    rcases List.mem_append.1 hneed with hneed | hneed
    · split at hneed
      · cases hneed
      · rw [List.mem_singleton.1 hneed]
        rfl
    · exact args.isShared_needs N need hneed
  | .binary _ left right => List.forall_mem_append.2 ⟨left.isShared_needs N, right.isShared_needs N⟩

theorem Args.isShared_needs (N : Sight) : ∀ (args : Args), ∀ need ∈ args.needs N, need.isShared = true
  | .nil => by
    intro need hneed
    cases hneed
  | .cons first rest => List.forall_mem_append.2 ⟨first.isShared_needs N, rest.isShared_needs N⟩

end

theorem Declaration.isShared_needs (N : Sight) (d : Declaration) (kind : NameKind) :
    ∀ need ∈ d.needs N kind, need.isShared = true := by
  unfold Declaration.needs
  cases d.value? with
  | none =>
    intro need hneed
    cases hneed
  | some value => exact value.isShared_needs _

mutual

theorem Stmt.isShared_needs : ∀ (s : Stmt) (N : Sight), ∀ need ∈ s.needs N, need.isShared = true
  | .declare d, N => d.isShared_needs N .cell
  | .branch branches, N => branches.isShared_needs N
  | .loop condition body, N => List.forall_mem_append.2 ⟨condition.isShared_needs N, body.isShared_needs N⟩
  | .return (some value), N => value.isShared_needs N
  | .block body, N => body.isShared_needs N
  | .effect e, N => e.isShared_needs N
  | .break, _ | .continue, _ | .return none, _ | .empty, _ => by
    intro need hneed
    cases hneed

theorem Block.isShared_needs : ∀ (b : Block) (N : Sight), ∀ need ∈ b.needs N, need.isShared = true
  | .nil, _ => by
    intro need hneed
    cases hneed
  | .cons first rest, N => List.forall_mem_append.2 ⟨first.isShared_needs N, rest.isShared_needs _⟩

theorem Branches.isShared_needs : ∀ (b : Branches) (N : Sight), ∀ need ∈ b.needs N, need.isShared = true
  | .only condition body, N => List.forall_mem_append.2 ⟨condition.isShared_needs N, body.isShared_needs N⟩
  | .orElse condition body otherwise, N =>
    List.forall_mem_append.2 ⟨condition.isShared_needs N,
      List.forall_mem_append.2 ⟨body.isShared_needs N, otherwise.isShared_needs N⟩⟩
  | .orIf condition body rest, N =>
    List.forall_mem_append.2 ⟨condition.isShared_needs N, List.forall_mem_append.2 ⟨body.isShared_needs N, rest.isShared_needs N⟩⟩

end

/-- The variables among the needs of a program are those that it defines. -/
theorem Source.exists_global_of_mem_needs {N : Sight} {const : Bool} (h : .variable const x ∈ A.needs N) :
    ∃ d, .global d ∈ A ∧ d.name = x := by
  induction A generalizing N with
  | nil => cases h
  | cons first A ih =>
    rcases List.mem_append.1 h with h | h
    · cases first with
      | function name params returns body =>
        rcases List.mem_cons.1 h with h | h
        · cases h
        · cases body.isShared_needs _ _ h
      | «global» d =>
        rcases List.mem_cons.1 h with h | h
        · cases h
          exact ⟨d, List.mem_cons_self, rfl⟩
        · cases d.isShared_needs _ _ _ h
    · obtain ⟨d, hd, hname⟩ := ih h
      exact ⟨d, List.mem_cons_of_mem _ hd, hname⟩

/-! ## Pools -/

namespace PoolEntry

variable {needs pool : List PoolEntry}

theorem mem_of_mem_foldl_join (h : entry ∈ needs.foldl join pool) : entry ∈ pool ∨ entry ∈ needs := by
  induction needs generalizing pool with
  | nil => exact .inl h
  | cons need needs ih =>
    rcases ih h with h | h
    · rw [join] at h
      split at h
      · exact .inl h
      · rcases List.mem_append.1 h with h | h
        · exact .inl h
        · exact .inr (List.mem_cons.2 (.inl (List.mem_singleton.1 h)))
    · exact .inr (List.mem_cons_of_mem _ h)

/-- A shared entry stands in one place only. -/
def SharedOnce (pool : List PoolEntry) : Prop :=
  ∀ ⦃i j : Nat⦄ ⦃entry : PoolEntry⦄, entry.isShared = true → pool[i]? = some entry → pool[j]? = some entry → i = j

theorem SharedOnce.join {pool : List PoolEntry} (h : SharedOnce pool) (need : PoolEntry) : SharedOnce (join pool need) := by
  rw [PoolEntry.join]
  split
  · exact h
  · rename_i hnew
    -- a place behind the others is that of the new entry, which is not among them if it is shared
    have hlast {i : Nat} {entry : PoolEntry} (hentry : entry.isShared = true) (hi : (pool ++ [need])[i]? = some entry) :
        pool[i]? = some entry ∨ i = pool.length ∧ entry ∉ pool := by
      rcases Nat.lt_or_ge i pool.length with hlt | hge
      · exact .inl (by rwa [List.getElem?_append_left hlt] at hi)
      · rw [List.getElem?_append_right hge] at hi
        have hmem := List.mem_singleton.1 (List.mem_of_getElem? hi)
        have hlt := (List.getElem?_eq_some_iff.1 hi).1
        rw [List.length_singleton] at hlt
        subst hmem
        exact .inr ⟨by omega, fun hpool => hnew ⟨hentry, hpool⟩⟩
    intro i j entry hentry hi hj
    rcases hlast hentry hi with hi | ⟨hi, hnot⟩ <;> rcases hlast hentry hj with hj | ⟨hj, hnot'⟩
    · exact h hentry hi hj
    · exact absurd (List.mem_of_getElem? hi) hnot'
    · exact absurd (List.mem_of_getElem? hj) hnot
    · rw [hi, hj]

theorem SharedOnce.foldl_join (h : SharedOnce pool) (needs : List PoolEntry) : SharedOnce (needs.foldl PoolEntry.join pool) := by
  induction needs generalizing pool with
  | nil => exact h
  | cons need needs ih => exact ih (h.join need)

/-- The places of functions in a pool. -/
def functionPlaces (pool : List PoolEntry) : List Nat :=
  pool.zipIdx.filterMap fun
    | (.function _, place) => some place
    | _ => none

theorem mem_functionPlaces {place : Nat} : place ∈ functionPlaces pool ↔ ∃ f, pool[place]? = some (.function f) := by
  rw [functionPlaces, List.mem_filterMap]
  constructor
  · rintro ⟨⟨entry, place'⟩, hmem, hplace⟩
    rw [List.mem_zipIdx_iff_getElem?] at hmem
    cases entry <;> cases hplace
    exact ⟨_, hmem⟩
  · rintro ⟨f, hf⟩
    exact ⟨(.function f, place), List.mem_zipIdx_iff_getElem?.2 hf, rfl⟩

theorem functionPlaces_append_function (pool : List PoolEntry) (f : Bytes) :
    functionPlaces (pool ++ [.function f]) = functionPlaces pool ++ [pool.length] := by
  simp [functionPlaces, List.zipIdx_append]

theorem functionPlaces_append_other (h : ∀ f, entry ≠ .function f) (pool : List PoolEntry) :
    functionPlaces (pool ++ [entry]) = functionPlaces pool := by
  cases entry with
  | function f => exact absurd rfl (h f)
  | _ => simp [functionPlaces, List.zipIdx_append]

theorem functionPlaces_foldl_join (h : ∀ need ∈ needs, need.isShared = true) (pool : List PoolEntry) :
    functionPlaces (needs.foldl join pool) = functionPlaces pool := by
  induction needs generalizing pool with
  | nil => rfl
  | cons need needs ih =>
    obtain ⟨hneed, hneeds⟩ := List.forall_mem_cons.1 h
    rw [List.foldl_cons, ih hneeds, join]
    split
    · rfl
    · refine functionPlaces_append_other (fun f hf => ?_) pool
      rw [hf] at hneed
      cases hneed

end PoolEntry

open PoolEntry Translation

/-- A definition gives its function the place of the entry that it adds. -/
theorem Definition.functionPlaces_translate {d : Definition} {output : Output} (h : d.translate.run c = some (output, c')) :
    (functionPlaces c'.pool).map UInt32.ofNat =
      (functionPlaces c.pool).map UInt32.ofNat ++ (Source.functionsOf [output]).map (·.header.slot) := by
  obtain ⟨binding, n, ds, -, hchanges⟩ := d.changes_translate h
  have hpool := hchanges.pool
  cases d with
  | function name params returns body =>
    obtain ⟨number, c1, hnumber, h⟩ := run_bind_some_iff.1 h
    cases hnumber
    obtain ⟨slot, c2, hslot, h⟩ := run_bind_some_iff.1 h
    cases hslot
    obtain ⟨-, c3, -, h⟩ := run_bind_some_iff.1 h
    obtain ⟨items, c4, -, h⟩ := run_bind_some_iff.1 h
    obtain ⟨-, c5, -, h⟩ := run_bind_some_iff.1 h
    obtain ⟨-, c6, -, h⟩ := run_bind_some_iff.1 h
    cases h
    rw [hpool, Definition.needs, List.foldl_cons, functionPlaces_foldl_join (body.isShared_needs _), join,
      if_neg (fun hshared => Bool.false_ne_true hshared.1), functionPlaces_append_function, List.map_append]
    rfl
  | «global» d =>
    obtain ⟨slot, c1, -, h⟩ := run_bind_some_iff.1 h
    obtain ⟨code, c2, -, h⟩ := run_bind_some_iff.1 h
    cases h
    rw [hpool, Definition.needs, List.foldl_cons, functionPlaces_foldl_join (d.isShared_needs _ _), join,
      if_neg (fun hshared => Bool.false_ne_true hshared.1), functionPlaces_append_other (fun f hf => by cases hf)]
    exact (List.append_nil _).symm

theorem Source.functionPlaces_outputs {outputs : List Output} (h : A.outputs.run c = some (outputs, c')) :
    (functionPlaces c'.pool).map UInt32.ofNat = (functionPlaces c.pool).map UInt32.ofNat ++
    (functionsOf outputs).map (·.header.slot) := by
  induction A generalizing c outputs with
  | nil =>
    cases h
    exact (List.append_nil _).symm
  | cons d A ih =>
    obtain ⟨output, c1, hd, h⟩ := run_bind_some_iff.1 h
    obtain ⟨rest, c2, hrest, h⟩ := run_bind_some_iff.1 h
    cases h
    rw [ih hrest, Definition.functionPlaces_translate hd, List.append_assoc, ← List.map_append]
    congr 2
    exact (List.filterMap_append (l := [output])).symm

/-! ## Programs -/

/-- The program has the pool of the tree, which it refers to as the tree does. -/
structure Source.Fills (A : Source) (p : Program) : Prop where
  globals : p.globals.toList = A.pool.map PoolEntry.global
  headers : p.functions.toList.map (·.header.slot) = (functionPlaces A.pool).map UInt32.ofNat
  references : List.Forall₂ (Mention.Denotes A.pool) A.mentions.flatten (p.functions.toList.map Function.references).flatten
  sharedOnce : SharedOnce A.pool

theorem Source.sharedOnce_pool (A : Source) : SharedOnce A.pool := by
  rw [A.pool_eq]
  refine .foldl_join (fun i j entry hentry hi _ => ?_) _
  rw [List.mem_singleton.1 (List.mem_of_getElem? hi)] at hentry
  cases hentry

theorem Source.fills_of_translate {p : Program} (hg : A.Grouped) (h : A.translate = some p) : A.Fills p := by
  obtain ⟨hglobals, hreferences⟩ := Source.refers_of_translate hg h
  obtain ⟨outputs, c, returns, number, slot, hrun, -, -, -, rfl⟩ := Source.exists_outputs hg h
  refine ⟨hglobals, ?_, ?_, A.sharedOnce_pool⟩
  · rw [← Source.pool_of_outputs hrun, Source.functionPlaces_outputs hrun]
    rfl
  · exact List.rel_flatten (List.forall₂_map_right_iff.2 hreferences)

namespace Source.Fills

variable {A : Source} {p : Program} {slot : Nat}

theorem length_pool (h : A.Fills p) : A.pool.length = p.globals.size := by
  rw [← Array.length_toList, h.globals, List.length_map]

variable (h : A.Fills p) (hsize : p.globals.size ≤ 2 ^ 32)

include h hsize

/-- The slots that headers name are those of functions. -/
theorem isFunctionSlot_iff (hslot : slot < A.pool.length) :
    Sidecar.isFunctionSlot p slot = true ↔ ∃ f, A.pool[slot]? = some (.function f) := by
  have hmem : Sidecar.isFunctionSlot p slot = true ↔ UInt32.ofNat slot ∈ p.functions.toList.map (·.header.slot) := by
    rw [Sidecar.isFunctionSlot, ← Array.any_toList, List.any_eq_true, List.mem_map]
    exact exists_congr fun f => and_congr_right fun _ => beq_iff_eq
  have hlength := h.length_pool
  rw [hmem, h.headers, List.mem_map, ← mem_functionPlaces]
  constructor
  · rintro ⟨place, hplace, heq⟩
    obtain ⟨f, hf⟩ := mem_functionPlaces.1 hplace
    have hlt := (List.getElem?_eq_some_iff.1 hf).1
    have hnat := congrArg UInt32.toNat heq
    rw [UInt32.toNat_ofNat_of_lt' (by change _ < 2 ^ 32; omega), UInt32.toNat_ofNat_of_lt' (by change _ < 2 ^ 32; omega)] at hnat
    rwa [← hnat]
  · exact fun hplace => ⟨slot, hplace, rfl⟩

/-- The slots that are called by name are those of primitives that are called. -/
theorem isCalledByName_iff :
    Sidecar.isCalledByName p slot = true ↔ ∃ f, A.pool[slot]? = some (.primitive f) ∧ A.calls f = true := by
  have hmem : Sidecar.isCalledByName p slot = true ↔
      ∃ i ∈ (p.functions.toList.map Function.references).flatten, i.op = .callName ∧ i.operand.toInt = slot := by
    simp only [Sidecar.isCalledByName, ← Array.any_toList, List.any_eq_true, Bool.and_eq_true, beq_iff_eq,
      List.mem_flatten, List.mem_map]
    constructor
    · rintro ⟨f, hf, i, hi, hop, hslot⟩
      exact ⟨i, ⟨f.references, ⟨f, hf, rfl⟩, List.mem_filter.2 ⟨hi, by rw [hop]; rfl⟩⟩, hop, hslot⟩
    · rintro ⟨i, ⟨-, ⟨f, hf, rfl⟩, hi⟩, hop, hslot⟩
      exact ⟨f, hf, i, (List.mem_filter.1 hi).1, hop, hslot⟩
  have hoperand {place : Nat} {entry : PoolEntry} (hplace : A.pool.idxOf? entry = some place) :
      (Instruction.withNat .callName place).operand.toInt = place := by
    have hlt := (List.getElem?_eq_some_iff.1 (getElem?_of_idxOf? hplace)).1
    have hlength := h.length_pool
    exact toInt_withNat (Nat.lt_of_lt_of_le hlt (Nat.le_trans (by omega) (show 2 ^ 32 ≤ placeLimit by decide)))
  rw [hmem]
  constructor
  · rintro ⟨i, hi, hop, hslot⟩
    obtain ⟨mention, hmention, hdenotes⟩ := exists_mem_of_forall₂ h.references.flip hi
    cases hdenotes with
    | @primitive f place hplace =>
      rw [hoperand hplace] at hslot
      obtain rfl : place = slot := Int.ofNat.inj hslot
      exact ⟨f, getElem?_of_idxOf? hplace, List.contains_iff_mem.2 hmention⟩
    | _ => cases hop
  · rintro ⟨f, hf, hcalls⟩
    obtain ⟨i, hi, hdenotes⟩ := exists_mem_of_forall₂ h.references (List.contains_iff_mem.1 hcalls)
    cases hdenotes with
    | @primitive _ place hplace =>
      refine ⟨_, hi, rfl, ?_⟩
      rw [hoperand hplace, h.sharedOnce rfl (getElem?_of_idxOf? hplace) hf]

/-- The sidecar describes each global as the entry that it was made for. -/
theorem ofGlobal_eq (hnames : ∀ const x, .variable const x ∈ A.pool → x ≠ [])
    (hentry : A.pool[slot]? = some entry) : Sidecar.ofGlobal p slot entry.global = A.slotEntry entry slot := by
  have hslot := (List.getElem?_eq_some_iff.1 hentry).1
  have hfunction := h.isFunctionSlot_iff hsize hslot
  have hcalled : Sidecar.isCalledByName p slot = true ↔ _ := h.isCalledByName_iff hsize
  simp only [hentry, Option.some.injEq] at hfunction hcalled
  unfold Sidecar.ofGlobal
  cases entry with
  | function f =>
    have hyes : Sidecar.isFunctionSlot p slot = true := hfunction.2 ⟨f, rfl⟩
    simp [PoolEntry.global, Source.slotEntry, hyes]
  | «variable» const x =>
    have hx : x ≠ [] := hnames const x (List.mem_of_getElem? hentry)
    cases const <;> simp [PoolEntry.global, Source.slotEntry, hx]
  | literal content =>
    have hno : Sidecar.isFunctionSlot p slot = false := by simpa using hfunction
    have hno' : Sidecar.isCalledByName p slot = false := by simpa using hcalled
    simp [PoolEntry.global, Source.slotEntry, hno, hno']
  | primitive f =>
    have hno : Sidecar.isFunctionSlot p slot = false := by simpa using hfunction
    have hsame : Sidecar.isCalledByName p slot = A.calls f := by
      rw [Bool.eq_iff_iff, hcalled]
      simp
    simp [PoolEntry.global, Source.slotEntry, hno, hsame]

end Source.Fills

/-- The sidecar of a compiled program describes its pool entry by entry: functions, variables and constants by their names,
literals by their texts, and primitives by their names if code that is kept calls them. (A header has 32 bits for the slot of its
function.) -/
theorem compile_describes_slots {source : Bytes} {p : Program} (h : compile source = .ok p)
    (hsize : p.globals.size ≤ 2 ^ 32) (path : Bytes) :
    (∃ A : Source, A.IsTreeOf source) ∧ ∀ A : Source, A.IsTreeOf source →
      (Sidecar.ofProgram p path).slots = A.pool.zipIdx.map fun (entry, slot) => A.slotEntry entry slot := by
  refine ⟨Source.exists_isTreeOf h, fun A hA => ?_⟩
  have htranslate := Source.toOption_compile hA
  rw [h] at htranslate
  have hfills := Source.fills_of_translate hA.grouped htranslate.symm
  have hnames (const : Bool) (x : Bytes) (hx : .variable const x ∈ A.pool) : x ≠ [] := by
    rw [A.pool_eq] at hx
    rcases mem_of_mem_foldl_join hx with hx | hx
    · cases List.mem_singleton.1 hx
    · obtain ⟨d, hd, rfl⟩ := Source.exists_global_of_mem_needs hx
      exact hA.name_ne_nil (List.mem_flatMap.2 ⟨_, hd, List.mem_cons_of_mem _ List.mem_cons_self⟩)
  rw [Sidecar.ofProgram, hfills.globals, List.zipIdx_map, List.map_map]
  refine List.map_congr_left fun ⟨entry, slot⟩ hentry => ?_
  exact hfills.ofGlobal_eq hsize hnames (List.mem_zipIdx_iff_getElem?.1 hentry)

/-- A program whose only call of a primitive has been dropped. -/
def silenced : Bytes := Bytes.ofString "fn main() -> void \x7b return; putln(); \x7d"

def silencedTree : Source :=
  [.function (Bytes.ofString "main") [] .void
    (.cons (.return none) (.cons (.effect (.call (Bytes.ofString "putln") .nil)) .nil))]

/-- The primitive has an entry in the pool, which the sidecar takes for a literal. -/
theorem compile_describes_slots_silenced : ∃ p, compile silenced = .ok p ∧ p.globals.size ≤ 2 ^ 32 ∧
    silencedTree.IsTreeOf silenced ∧
    silencedTree.pool =
      [.function (Bytes.ofString "_start"), .function (Bytes.ofString "main"), .primitive (Bytes.ofString "putln")] ∧
    (Sidecar.ofProgram p []).slots =
      [{ slot := 0, kind := .function, name := Bytes.ofString "_start" },
        { slot := 1, kind := .function, name := Bytes.ofString "main" },
        { slot := 2, kind := .string, text := Bytes.ofString "putln" }] := by
  have hsize : (compile silenced).toOption.any (fun p => decide (p.globals.size ≤ 2 ^ 32)) = true := by decide +kernel
  rcases hp : compile silenced with e | p
  · rw [hp] at hsize
    cases hsize
  · rw [hp] at hsize
    have hsize : p.globals.size ≤ 2 ^ 32 := of_decide_eq_true hsize
    have hgrouped : silencedTree.Grouped := by
      simp [silencedTree, Source.Grouped, Definition.Grouped, Block.Grouped, Stmt.Grouped, Expr.Grouped, Args.Grouped]
    have htree : silencedTree.IsTreeOf silenced := ⟨hgrouped, by decide +kernel, by decide +kernel⟩
    refine ⟨p, rfl, hsize, htree, by decide +kernel, ?_⟩
    rw [(compile_describes_slots hp hsize []).2 silencedTree htree]
    decide +kernel

end OnePass

import OnePass.Proofs.Upkeep.Branches

/-!
# An analysis ends in a program or in a fault

Statements and definitions keep the rules of an analysis, as expressions do. So every list of tokens, however it came about, is
analysed to a program or to a diagnostic about it (`analyze_tokens_fairly`).
-/

namespace OnePass

/-- A state that is in order but for the pool, which lacks the global of the symbol at a place. -/
structure AnalysisState.Owes {σ : Type} (s : AnalysisState σ) (place : Nat) : Prop where
  tidy : ∀ g, Tidy { s with pool := s.pool.push g }
  symbol : ∃ symbol, s.table.symbol? place = some symbol ∧ symbol.slot.toNat = s.pool.size

/-- The symbol may change, but for its name, its link and its slot. -/
theorem AnalysisState.Owes.update {σ : Type} {s : AnalysisState σ} {place : Nat} (h : s.Owes place) {f : Symbol → Symbol}
    (hlink : ∀ symbol, (f symbol).link = symbol.link) (hslot : ∀ symbol, (f symbol).slot = symbol.slot) :
    Owes { s with table := s.table.update place f } place := by
  refine ⟨fun g => { h.tidy g with linked := (h.tidy g).linked.update hlink place }, ?_⟩
  obtain ⟨symbol, hsymbol, hsize⟩ := h.symbol
  refine ⟨f symbol, ?_, hslot symbol ▸ hsize⟩
  rw [SymbolTable.symbol?] at hsymbol ⊢
  simp [SymbolTable.update, Array.getElem?_modify, hsymbol]

/-- The statements of a block start in this state, in a scope of their own if the block has one. -/
structure AnalysisState.Opens {σ : Type} (inner : Bool) (s s' : AnalysisState σ) : Prop where
  body : s'.body = s.body
  loops : s'.loops = s.loops
  symbols : s'.table.symbols = s.table.symbols
  scopes : s'.table.scopes = if inner then s.table.symbols.size :: s.table.scopes else s.table.scopes

namespace Analysis

variable {σ α : Type} [TokenSource σ]
variable {s s1 s2 : AnalysisState σ} {handle place : Nat}

/-! ## Declarations -/

namespace Leaves

variable {s : AnalysisState σ} (name : Token) (kind : SymbolKind) (type : ValueType) (const : Bool)

/-- A name that is declared has the next place. -/
theorem declare (s : AnalysisState σ) (storage : Storage) :
    Leaves (declare name kind type const storage) s fun place s' =>
      place = s.table.symbols.size ∧ s' = { s with table := s.table.declared name.lexeme kind type const storage } := by
  cases hhere : s.table.declaresHere name.lexeme with
  | true =>
    refine .of_error (e := .diagnostic ⟨name.pos, .duplicate name.lexeme⟩) ?_ (.inl nofun)
    rw [Analysis.declare, run_get_bind, SymbolTable.declare, hhere]
    rfl
  | false =>
    refine .of_ok ?_ ⟨rfl, rfl⟩
    rw [Analysis.declare, run_get_bind, SymbolTable.declare_eq_ok hhere]
    rfl

/-- A global name, whose global is still missing. -/
theorem declare_global (hs : s.Tidy) :
    Leaves (Analysis.declare name kind type const .global) s fun place s' =>
      s'.Owes place ∧ s.Grows s' ∧ place < s'.table.symbols.size := by
  refine (declare name kind type const s .global).imp ?_
  rintro _ _ ⟨rfl, rfl⟩
  have hsize := s.table.size_declared name.lexeme kind type const .global
  refine ⟨⟨fun g => { hs with linked := hs.linked.declared .., pool := ?_ }, _, SymbolTable.symbol?_declared .., ?_⟩,
    ⟨List.prefix_rfl, rfl, rfl, ?_⟩, ?_⟩
  · change s.table.nextGlobal + 1 = _
    rw [hs.pool, Array.size_push]
  · exact hs.pool
  · exact hsize ▸ Nat.le_succ _
  · simp only [hsize, Nat.lt_succ_self]

/-- The global of a symbol joins the pool. -/
theorem settle (h : s.Owes place) (g : Global) {K : Symbol → Analysis σ α} {T : α → AnalysisState σ → Prop}
    (hK : ∀ symbol, Leaves (K symbol) { s with pool := s.pool.push g } T) :
    Leaves (Analysis.symbolAt place >>= fun symbol => addGlobal symbol.slot.toNat g >>= fun _ => K symbol) s T := by
  obtain ⟨symbol, hsymbol, hslot⟩ := h.symbol
  have hrun : (Analysis.symbolAt place >>= fun symbol => addGlobal symbol.slot.toNat g >>= fun _ => Pure.pure symbol).run s =
      .ok (symbol, { s with pool := s.pool.push g }) :=
    (run_bind_of_ok (run_symbolAt hsymbol)).trans (run_bind_of_ok (run_addGlobal hslot g))
  have hall := run_bind (f := K) hrun (hK symbol)
  simpa [bind_assoc] using hall

end Leaves

namespace Upholds

variable {s : AnalysisState σ}

/-- A local variable or a parameter. -/
theorem declare (hs : s.Tidy) (name : Token) (kind : SymbolKind) (type : ValueType) (const : Bool) {storage : Storage}
    (hstorage : storage ≠ .global) :
    Upholds (declare name kind type const storage) s fun place s' => place < s'.table.symbols.size := by
  refine (Leaves.declare name kind type const s storage).imp ?_
  rintro _ _ ⟨rfl, rfl⟩
  have hsize := s.table.size_declared name.lexeme kind type const storage
  refine ⟨{ hs with linked := hs.linked.declared .., pool := ?_ }, ⟨List.prefix_rfl, rfl, ?_, ?_⟩, ?_⟩
  · rw [← hs.pool]
    cases storage with
    | global => exact absurd rfl hstorage
    | «local» | parameter | foreign => rfl
  · exact SymbolTable.scopes_allocSlot s.table storage
  · exact hsize ▸ Nat.le_succ _
  · simp only [hsize, Nat.lt_succ_self]

theorem declareVariable (hs : s.Tidy) (const : Bool) (name : Token) (type : ValueType) :
    Upholds (declareVariable const name type) s fun r s' => r.2 < s'.table.symbols.size := by
  by_cases hdepth : s.table.depth = 0
  · have hrun : (declarationPlace : Analysis σ _).run s = .ok ((.entry, .global), s) := by
      rw [declarationPlace, run_get_bind, if_pos hdepth]
      rfl
    refine Leaves.run_bind hrun ?_
    refine Leaves.bind (Leaves.declare_global name .variable type const hs) fun place s' ⟨howes, hgrows, hplace⟩ => ?_
    exact Leaves.settle howes _ fun _ => .of_ok rfl
      ⟨howes.tidy _, ⟨hgrows.body, hgrows.loops, hgrows.scopes, hgrows.symbols⟩, hplace⟩
  · have hrun : (declarationPlace : Analysis σ _).run s = .ok ((.body, .local), s) := by
      rw [declarationPlace, run_get_bind, if_neg hdepth]
      rfl
    refine Leaves.run_bind hrun ?_
    exact (declare hs name .variable type const (by nofun)).bind fun place s' hs' _ hplace => .pure hs' hplace

end Upholds

section Declarations

variable [Supply σ]

namespace Upkeep

theorem takesValue (const : Bool) : Upkeep (takesValue const : Analysis σ Bool) :=
    ite ((expect _).bind fun _ => pure _) (accept _)

end Upkeep

theorem Upholds.initialValue (hs : s.Tidy) (out : Section) (name : Token) (hplace : place < s.table.symbols.size)
    (type : ValueType) (d : Nat) : Upholds (initialValue out name place type d) s fun _ _ => True := by
  refine (symbolAt hs hplace).bind fun symbol s1 hs1 _ _ => ?_
  refine Upkeep.upholds ((Upkeep.emitAddress out symbol).bind fun _ => Upkeep.peek.bind fun _ => ?_) hs1
  refine (Upkeep.expression out d).bind fun _ => .ite (.fail _ (by nofun)) ?_
  exact (Upkeep.emit out (by nofun)).bind fun _ => .markAssigned place

theorem Upkeep.declaration (d : Nat) : Upkeep (declaration d : Analysis σ Unit) := by
  refine next.bind fun word => (expect _).bind fun name => (expect _).bind fun _ => typeName.bind fun p => ?_
  obtain ⟨typeToken, type⟩ := p
  refine ite (fail _ (by nofun)) fun s hs => ?_
  refine (Upholds.declareVariable hs _ name type).bind fun r s1 hs1 _ hplace => ?_
  obtain ⟨out, place⟩ := r
  refine (takesValue _ s1 hs1).bind fun hasValue s2 hs2 hgrows _ => ?_
  have hstop : Upkeep (Analysis.expect .semicolon >>= fun _ => Pure.pure () : Analysis σ Unit) := (expect _).bind fun _ => pure _
  refine .ite (fun _ => ?_) fun _ => hstop s2 hs2
  refine (Upholds.initialValue hs2 out name (Nat.lt_of_lt_of_le hplace hgrows.symbols) type d).bind
    fun _ s3 hs3 _ _ => hstop s3 hs3

end Declarations

/-! ## Branches and loops -/

theorem map_op_modify (code : List Instruction) (n : Nat) {f : Instruction → Instruction} (hf : ∀ i, (f i).op = i.op) :
    (code.modify n f).map Instruction.op = code.map Instruction.op := by
  refine List.ext_getElem? fun k => ?_
  by_cases hk : n = k
  · cases hi : code[k]? <;> simp [hk, hi, hf]
  · simp [hk]

/-- A branch without a distance is emitted at the end of the part, and its handle given. -/
def Opening (part : Analysis σ Nat) (s : AnalysisState σ) : Prop :=
  Leaves part s fun handle s' => ∃ s1, s1.Tidy ∧ s.Grows s1 ∧ handle = s1.body.size ∧ s' = s1.append .body [{ op := .br }]

theorem Opening.emitOpenBranch (hs : s.Tidy) : Opening emitOpenBranch s := .of_ok rfl ⟨s, hs, .refl s, rfl, rfl⟩

namespace Upkeep

theorem here : Upkeep (here : Analysis σ Nat) := fun s hs => .of_ok rfl hs (.refl s) trivial

theorem emitBranchTo (target : Nat) : Upkeep (emitBranchTo target : Analysis σ Unit) := here.bind fun _ => emit _ (by nofun)

end Upkeep

/-- The innermost loop is the first of those that are open. -/
theorem Leaves.innermostLoop (s : AnalysisState σ) (pos : Pos) {fault : Fault} (hfault : ∀ op, fault ≠ .missingOperand op) :
    Leaves (innermostLoop pos fault) s fun loop s' => s' = s ∧ ∃ loops, s.loops = loop :: loops := by
  cases hloops : s.loops with
  | nil =>
    refine .of_error (e := .diagnostic ⟨pos, fault⟩) ?_ (.inl hfault)
    rw [Analysis.innermostLoop, run_get_bind, hloops]
    rfl
  | cons loop loops =>
    refine .of_ok ?_ ⟨rfl, loops, rfl⟩
    rw [Analysis.innermostLoop, run_get_bind, hloops]
    rfl

theorem Leaves.exitScope {s : AnalysisState σ} (hs : s.Tidy) {height : Nat} {scopes : List Nat}
    (hscopes : s.table.scopes = height :: scopes) :
    Leaves exitScope s fun _ s' => s'.Tidy ∧ s'.body = s.body ∧ s'.loops = s.loops ∧ s'.table.scopes = scopes ∧
      s'.table.symbols.size = min height s.table.symbols.size := by
  have hexit : s.table.exitScope = .ok { s.table with
      symbols := s.table.symbols.take height
      index := (s.table.symbols.toList.drop height).foldr SymbolTable.unbind s.table.index
      scopes } := by rw [SymbolTable.exitScope, hscopes]
  have hrun : Analysis.exitScope.run s = .ok ((), { s with table := { s.table with
      symbols := s.table.symbols.take height
      index := (s.table.symbols.toList.drop height).foldr SymbolTable.unbind s.table.index
      scopes } }) := by
    rw [Analysis.exitScope, run_get_bind, hexit]
    rfl
  refine .of_ok hrun ⟨{ hs with linked := hs.linked.unbind rfl rfl }, rfl, rfl, rfl, ?_⟩
  simp

theorem Leaves.openBlock (hs : s.Tidy) (inner : Bool) : Leaves (openBlock inner) s fun _ s' => s'.Tidy ∧ s.Opens inner s' := by
  cases inner with
  | true => exact .of_ok rfl ⟨{ hs with linked := hs.linked.of_eq rfl rfl }, rfl, rfl, rfl, rfl⟩
  | false => exact .of_ok rfl ⟨hs, rfl, rfl, rfl, rfl⟩

section Statements

variable [Supply σ]

theorem Opening.condition (hs : s.Tidy) (d : Nat) : Opening (condition d) s := by
  refine Leaves.bind (Upkeep.peek s hs) fun first s1 ⟨hs1, hgrows1, _⟩ => ?_
  refine Leaves.bind (Upkeep.expression .body d s1 hs1) fun type s2 ⟨hs2, hgrows2, _⟩ => ?_
  have hgrows3 := s2.grows_append .body [{ op := .brTrue, operand := 1 }]
  have hs3 := hs2.append .body (.one (i := { op := .brTrue, operand := 1 }) nofun)
  split
  · exact .of_error rfl (.inl nofun)
  · exact .of_ok rfl ⟨_, hs3, hgrows1.trans (hgrows2.trans hgrows3), rfl, rfl⟩

namespace Upkeep

theorem returnStatement (returns : ValueType) (d : Nat) : Upkeep (returnStatement returns d : Analysis σ Flow) := by
  have hstop : Upkeep (do
      Analysis.emit .body { op := .ret }
      let _ ← Analysis.expect .semicolon
      return { returns := true } : Analysis σ Flow) := (emit _ (by nofun)).bind fun _ => (expect _).bind fun _ => pure _
  refine (expect _).bind fun _ => peek.bind fun _ => ite (ite (fail _ (by nofun)) hstop) (ite (fail _ (by nofun)) ?_)
  refine (emit _ (by nofun)).bind fun _ => (expression .body d).bind fun _ => ite (fail _ (by nofun)) ?_
  exact (emit _ (by nofun)).bind fun _ => hstop

theorem expressionStatement (d : Nat) : Upkeep (expressionStatement d : Analysis σ Unit) :=
  (expression .body d).bind fun _ =>
    ite ((emit _ (by nofun)).bind fun _ => (expect _).bind fun _ => pure _) ((expect _).bind fun _ => pure _)

end Upkeep

end Statements

end Analysis

namespace Watched

open AnalysisState Analysis
open StateT (lift)

variable {σ : Type} [TokenSource σ] {s s0 s1 s2 : AnalysisState σ} {L L1 : Ledger} {W : List Nat} {handle place : Nat}

namespace Shadows

/-- A branch that is emitted waits. -/
theorem held {part : Analysis σ Nat} (h : s0.Keeps W L s) (hpart : Opening part s) :
    Shadows (held part) part L s fun handle L' s' => s0.Keeps (handle :: W) L' s' := by
  refine (Shadows.lift hpart).watch_after ?_
  rintro _ L _ ⟨rfl, s1, hs1, hgrows, rfl, rfl⟩
  have h1 := h.grow hs1 hgrows
  refine ⟨{ L with waiting := L.waiting ++ [s1.body.size] }, rfl, ?_⟩
  refine ⟨hs1.append .body (.one nofun), h1.covers.trans (s1.grows_append .body _).covers, ?_, ?_⟩
  · have hkept := (h1.kept.1.emit { op := .br }).perm (L.entries_hold s1.loops _)
    rw [Ledger.Kept, AnalysisState.append, Stream.toList_emitAll, Stream.size_eq]
    exact ⟨hkept, h1.kept.2⟩
  · exact List.perm_append_singleton _ _ |>.trans (h.waiting.cons _)

/-- A branch that waits is patched in place, to the next instruction. -/
theorem settle_patches (h : s0.Keeps (handle :: W) L s) : Shadows (settle handle) (patch handle) L s fun _ L' s' =>
    s0.Keeps W L' s' ∧ L.Patches L' [handle] s.body.size ∧ s'.body.size = s.body.size := by
  have hmem : handle ∈ L.waiting := h.waiting.mem_iff.2 List.mem_cons_self
  have hplace := h.kept.1.perm (Ledger.entries_erase s.loops hmem)
  have hlt : handle < s.body.size := hplace.lt_length (by simp)
  refine .watch_bind (run_watch h.kept) (.watch_bind (b := L) rfl ?_)
  have hrun : (patch handle).run s = .ok ((),
      { s with body := ⟨s.body.code.modify handle fun i => { i with operand := s.body.distance handle }⟩ }) := by
    rw [patch, run_get_bind, Stream.patch?, if_pos hlt]
    rfl
  have hsize : (s.body.code.modify handle fun i => { i with operand := s.body.distance handle }).size =
    s.body.size := Array.size_modify
  rw [if_pos hmem]
  refine (Shadows.lift (.of_ok hrun rfl)).watch_after (Q := fun _ L' s' => L' = L ∧ s' = _) ?_
  rintro _ _ _ ⟨rfl, rfl⟩
  refine ⟨_, rfl, ⟨{ h.tidy with body := ?_ }, { h.covers with body := ?_ }, ⟨?_, h.kept.2.note _⟩, ?_⟩, ?_, hsize⟩
  · simp only [Array.toList_modify]
    exact h.tidy.body.modify handle fun i hi hop => hi hop
  · simpa [map_op_modify] using h.covers.body
  · have hbranch : ({ op := .br, operand := s.body.distance handle } : Instruction) = branchBy (s.body.size - (handle + 1)) := by
      rw [branchBy, Stream.distance, Int.sub_sub]
    have hpatched := hplace.modify_head fun i => { i with operand := s.body.distance handle }
    rw [hbranch] at hpatched
    rw [Array.toList_modify, Stream.size, hsize]
    exact hpatched.perm (Ledger.entries_note _ s.loops handle s.body.size)
  · simpa using h.waiting.erase handle
  · exact ⟨rfl, rfl, List.subset_cons_self _ _, by simp [Stream.size, hsize]⟩

theorem settle (h : s0.Keeps (handle :: W) L s) : Shadows (settle handle) (patch handle) L s fun _ L' s' => s0.Keeps W L' s' :=
  (settle_patches h).imp fun _ _ _ h' => h'.1

theorem settles_patches {handles : List Nat} (h : s0.Keeps (handles ++ W) L s) :
    Shadows (handles.forM Watched.settle) (handles.forM patch) L s fun _ L' s' =>
      s0.Keeps W L' s' ∧ L.Patches L' handles s.body.size ∧ s'.body.size = s.body.size := by
  induction handles generalizing L s with
  | nil => exact of_ok rfl rfl ⟨h, .refl L, rfl⟩
  | cons handle handles ih =>
    refine (settle_patches h).bind fun _ L' s' ⟨h', hpatches, hsize⟩ => (ih h').imp fun _ L'' s'' ⟨h'', hpatches', hsize'⟩ => ?_
    exact ⟨h'', hpatches.append (hsize ▸ hpatches'), hsize'.trans hsize⟩

theorem settles {handles : List Nat} (h : s0.Keeps (handles ++ W) L s) :
    Shadows (handles.forM Watched.settle) (handles.forM patch) L s fun _ L' s' => s0.Keeps W L' s' :=
  (settles_patches h).imp fun _ _ _ h' => h'.1

end Shadows

namespace Watches

variable [Supply σ]

theorem breakStatement : Watches (breakStatement : Watched σ Flow) Analysis.breakStatement := by
  refine (lift (.expect _)).bind fun token L s hs hL => ?_
  refine (Shadows.lift (Leaves.innermostLoop s token.pos (by nofun))).bind ?_
  rintro loop L s ⟨rfl, rfl, loops, hloops⟩
  refine (Shadows.lift (P := fun handle s' => handle = s.body.size ∧ s' = s.append .body [{ op := .br }])
    (.of_ok rfl ⟨rfl, rfl⟩)).bind ?_
  rintro _ L _ ⟨rfl, rfl, rfl⟩
  have hrun : (noteBreak s.body.size).run (s.append .body [{ op := .br }]) = .ok ((),
      { s.append .body [{ op := .br }] with loops := { loop with breaks := s.body.size :: loop.breaks } :: loops }) := by
    cases s
    cases hloops
    rfl
  refine (Shadows.lift (P := fun _ s' => s' = _) (.of_ok hrun rfl)).bind ?_
  rintro _ L _ ⟨rfl, rfl⟩
  refine .watch_bind rfl ?_
  exact ((lift (.expect _)).bind fun _ => pure _).after ((Keeps.refl hs hL).noteBreak hloops)

theorem continueStatement : Watches (continueStatement : Watched σ Flow) Analysis.continueStatement := by
  refine (lift (.expect _)).bind fun token L s hs hL => ?_
  refine (Shadows.lift (Leaves.innermostLoop s token.pos (by nofun))).bind ?_
  rintro loop L s ⟨rfl, rfl, loops, hloops⟩
  refine .watch_bind (b := s.body.size) rfl ?_
  refine (Shadows.lift (P := fun _ s' => s' = s.append .body [branchBy (loop.first - (s.body.size + 1))]) (.of_ok rfl rfl)).bind
    ?_
  rintro _ L _ ⟨rfl, rfl⟩
  refine .watch_bind rfl (.watch_bind rfl ?_)
  exact ((lift (.expect _)).bind fun _ => pure _).after ((Keeps.refl hs hL).note_continue hloops)

end Watches

/-- The code of a block from a handle on is dropped; what was there before the block stays. -/
theorem leaves_dropFrom (h1 : L1.Kept s1) (hwaiting : L1.waiting.Perm W) (h : s1.Keeps W L s) (hhandle : s1.body.size ≤ handle) :
    Leaves (dropFrom handle) s fun _ s' => s1.Keeps W (L.dropFrom handle) s' := by
  -- what waits and what the outer loops noted stands before the block
  have hbefore : ∀ n ∈ W ++ s.loops.tail.flatMap Loop.breaks, n < handle := by
    rw [h.covers.loops]
    intro n hn
    refine Nat.lt_of_lt_of_le (h1.1.lt_length ?_) hhandle
    simp only [Ledger.map_fst_entries, List.mem_append, List.mem_flatMap] at hn ⊢
    exact .inl (hn.imp hwaiting.mem_iff.2 fun ⟨loop, hloop, hn⟩ => ⟨loop, List.mem_of_mem_tail hloop, hn⟩)
  obtain ⟨loops, hrun, htail, hlength, htracks, hsublist, hloops⟩ : ∃ loops,
      (dropFrom handle).run s = .ok ((), { s with body := s.body.truncate handle, loops }) ∧
      loops.tail = s.loops.tail ∧ loops.length = s.loops.length ∧ (L.dropFrom handle).Tracks loops ∧
      (loops.flatMap Loop.breaks).Sublist (s.loops.flatMap Loop.breaks) ∧ ∀ n ∈ loops.flatMap Loop.breaks, n < handle := by
    refine ⟨_, rfl, ?_⟩
    have houter := (List.forall_mem_append.1 hbefore).2
    have htracks := h.kept.2.dropFrom houter
    cases hloops : s.loops with
    | nil =>
      rw [hloops] at htracks
      exact ⟨rfl, rfl, htracks, .refl _, by simp⟩
    | cons loop loops =>
      rw [hloops] at htracks houter
      exact ⟨rfl, rfl, htracks, List.filter_sublist.append (.refl _), List.forall_mem_append.2 ⟨by simp, houter⟩⟩
  have hcode : (s.body.truncate handle).code.toList = s.body.code.toList.take handle := by simp [Stream.truncate]
  refine .of_ok hrun ⟨{ h.tidy with body := ?_ },
    { h.covers with body := ?_, nesting := hlength.trans h.covers.nesting, loops := htail.trans h.covers.loops },
      ⟨?_, htracks⟩, h.waiting⟩
  · exact hcode ▸ h.tidy.body.take handle
  · rw [hcode, List.map_take, List.prefix_take_iff, List.length_map]
    exact ⟨h.covers.body, hhandle⟩
  · rw [hcode]
    refine h.kept.1.take ?_ ?_
    · exact ((hsublist.append_left L.waiting).map _).append (List.filter_sublist.map _)
    · rw [Ledger.map_fst_entries]
      refine List.forall_mem_append.2 ⟨List.forall_mem_append.2 ⟨fun n hn => ?_, hloops⟩, by simp [Ledger.dropFrom]⟩
      exact hbefore n (List.mem_append_left _ (h.waiting.mem_iff.1 hn))

/-- The scope of a block is closed; what was there before the block stays. -/
theorem leaves_exit_block (h : s.Opens true s1) (h2 : s1.Keeps W L s2) : Leaves exitScope s2 fun _ s' => s.Keeps W L s' := by
  refine (Leaves.exitScope h2.tidy (h2.covers.scopes.trans h.scopes)).imp fun _ s' ⟨hs', hbody, hloops, hscopes, hsize⟩ => ?_
  refine ⟨hs', ⟨?_, ?_, ?_, hscopes, ?_⟩, ?_, h2.waiting⟩
  · rw [hbody, ← h.body]
    exact h2.covers.body
  · rw [hloops, h2.covers.nesting, h.loops]
  · rw [hloops, h2.covers.loops, h.loops]
  · rw [hsize]
    exact Nat.le_min.2 ⟨Nat.le_refl _, h.symbols ▸ h2.covers.symbols⟩
  · rw [Ledger.Kept, hbody, hloops]
    exact h2.kept

namespace Shadows

theorem closeBlock {inner : Bool} (h : s.Opens inner s1) (h1 : L1.Kept s1) (hwaiting : L1.waiting.Perm W) (h2 : s1.Keeps W L s2)
    {dead : Option Nat} (hdead : ∀ h ∈ dead, s1.body.size ≤ h) :
    Shadows (closeBlock inner dead) (Analysis.closeBlock inner dead) L s2 fun _ L' s' => s.Keeps W L' s' := by
  have hdrop : ∃ L', ((dead.forM fun handle => modify (Ledger.dropFrom handle) : Watched σ Unit).run L).run s2 =
    .ok (((), L'), s2) ∧
      Leaves (dead.forM dropFrom) s2 fun _ s' => s1.Keeps W L' s' := by
    cases dead with
    | none => exact ⟨L, rfl, .of_ok rfl h2⟩
    | some handle => exact ⟨L.dropFrom handle, rfl, leaves_dropFrom h1 hwaiting h2 (hdead handle rfl)⟩
  obtain ⟨L', hrun, hdrop⟩ := hdrop
  refine .watch_bind hrun (.of_leaves (hdrop.bind fun _ s3 h3 => ?_))
  cases inner with
  | true => exact leaves_exit_block h h3
  | false =>
    have hcovers : s.Covers s3 := ⟨h.body ▸ h3.covers.body, h3.covers.nesting.trans (congrArg _ h.loops),
      h3.covers.loops.trans (congrArg _ h.loops), h3.covers.scopes.trans h.scopes, h.symbols ▸ h3.covers.symbols⟩
    exact .of_ok rfl { h3 with covers := hcovers }

/-- The branches out of a loop go to its end from here on. -/
theorem settleLoop {exit : Nat} {record : LoopRecord} (h : s0.Keeps (exit :: (record.breaks ++ W)) L s)
    (hagain : ∀ j ∈ record.again, j ∈ L.settled) : Shadows (settleLoop exit record.breaks record)
      (patch exit >>= fun _ => record.breaks.forM patch) L s fun _ L' s' => s0.Keeps W L' s' := by
  refine (settle_patches h).bind fun _ L2 s2 ⟨h2, hexit, _⟩ => (settles_patches h2).watch_after fun _ L3 s3
    ⟨h3, hbreaks, hsize⟩ => ?_
  refine ⟨_, rfl, h3.tidy, h3.covers, ⟨h3.kept.1, h3.kept.2.close ?_ ?_⟩, h3.waiting⟩
  · exact fun n hn => hsize ▸ hbreaks.patched n hn
  · exact fun j hj => hbreaks.settled (hexit.settled (hagain j hj))

/-- Ending a loop takes it off and closes it. -/
theorem endLoop {exit : Nat} {loop : Loop} {loops : List Loop} (hs : s.Tidy) (hloops : s.loops = loop :: loops)
    (hcovers : s0.Covers { s with loops }) (hL : L.Kept s) (hwaiting : L.waiting.Perm (exit :: W)) (first : Nat) (f : Flow) :
    Shadows (endLoop first exit f) (Analysis.endLoop first exit f) L s fun _ L' s' => s0.Keeps W L' s' := by
  obtain ⟨hcode, htracks⟩ := hL
  rw [hloops] at hcode htracks
  obtain ⟨record, records, haround, rfl, rfl⟩ := htracks.exists_around
  obtain ⟨htargets, hclosed⟩ := List.forall_mem_append.1 htracks.2
  rw [haround] at htargets
  obtain ⟨hagain, houter⟩ := List.forall_mem_append.1 htargets
  have hclose : closeLoop.run s = .ok (record.breaks, { s with loops := records.map LoopRecord.loop }) := by
    cases s
    cases hloops
    rfl
  refine (Shadows.lift (P := fun handles s' => handles = record.breaks ∧ s' = _) (.of_ok hclose ⟨rfl, rfl⟩)).bind ?_
  rintro _ L _ ⟨rfl, rfl, rfl⟩
  have hleave {s : AnalysisState σ} : (leaveLoop.run L).run s = .ok ((record, { L with around := records }), s) := by
    cases L
    cases haround
    rfl
  refine .watch_bind hleave (.watch_bind rfl ?_)
  have h1 : s0.Keeps (exit :: (record.breaks ++ W)) { L with waiting := L.waiting ++ record.breaks, around := records }
      { s with loops := records.map LoopRecord.loop } := by
    refine ⟨{ hs with }, hcovers, ⟨?_, rfl, List.forall_mem_append.2 ⟨houter, hclosed⟩⟩,
      (hwaiting.append_right _).trans (List.perm_append_comm.cons _)⟩
    simpa [Ledger.entries, LoopRecord.loop] using hcode
  refine .ite (fun _ => ?_) fun _ => settleLoop h1 hagain
  refine (Shadows.lift (Upkeep.emitBranchTo first _ h1.tidy)).bind ?_
  rintro _ _ s2 ⟨rfl, hs2, hgrows, -⟩
  exact settleLoop (h1.grow hs2 hgrows) hagain

end Shadows

/-! ## Statements with parts -/

/-- The parts of a statement keep all branches in place. -/
structure Statements (σ : Type) [TokenSource σ] (returns : ValueType) (d : Nat) : Prop where
  statement : Watches (statement returns d : Watched σ Flow) (Analysis.statement returns d)
  block : ∀ inner, Watches (block returns inner d : Watched σ Flow) (Analysis.block returns inner d)
  /-- Code is dropped from no handle before the block. -/
  statements : ∀ {s0 s : AnalysisState σ} {W L}, s0.Keeps W L s → ∀ flow {dead : Option Nat}, (∀ h ∈ dead, s0.body.size ≤ h) →
    Shadows (statements returns d flow dead) (Analysis.statements returns d flow dead) L s fun r L' s' =>
      s0.Keeps W L' s' ∧ ∀ h ∈ r.2, s0.body.size ≤ h
  /-- The branches to the end of an `if` wait. -/
  ifArms : ∀ {s0 s : AnalysisState σ} {W L} (arms : Arms), s0.Keeps (arms.ends ++ W) L s →
    Shadows (ifArms returns d arms) (Analysis.ifArms returns d arms) L s fun arms L' s' => s0.Keeps (arms.ends ++ W) L' s'
  whileStatement : Watches (whileStatement returns d : Watched σ Flow) (Analysis.whileStatement returns d)

/-- One more level of depth. -/
theorem Statements.succ [Supply σ] {returns : ValueType} {d : Nat} (ih : Statements σ returns d) :
    Statements σ returns (d + 1) where
  statement := by
    refine .watched ((Watches.lift .peek).bind fun token => ?_)
    cases token.kind
    case «let» => exact (Watches.lift (.declaration d)).bind fun _ => .pure _
    case const => exact (Watches.lift (.declaration d)).bind fun _ => .pure _
    case «if» =>
      refine (Watches.lift (.expect _)).bind fun _ L s hs hL => ?_
      refine (ih.ifArms {} (Keeps.refl hs hL)).bind fun arms L1 s1 h1 => ?_
      exact (Shadows.settles h1).bind fun _ L2 s2 h2 => .of_ok rfl rfl h2
    case «while» => exact ih.whileStatement
    case «break» => exact .breakStatement
    case «continue» => exact .continueStatement
    case «return» => exact .lift (.returnStatement returns d)
    case lbrace => exact ih.block true
    case semicolon => exact (Watches.lift .next).bind fun _ => .pure _
    all_goals exact (Watches.lift (.expressionStatement d)).bind fun _ => .pure _
  block inner := by
    refine (Watches.lift (.expect _)).bind fun _ L s hs hL => ?_
    refine (Shadows.lift (Leaves.openBlock hs inner)).bind ?_
    rintro _ L s1 ⟨rfl, hs1, hopens⟩
    have hL1 : L.Kept s1 := by
      rw [Ledger.Kept, hopens.body, hopens.loops]
      exact hL
    have hnone : ∀ h ∈ (none : Option Nat), s1.body.size ≤ h := by simp
    refine (ih.statements (Keeps.refl hs1 hL1) {} hnone).bind ?_
    rintro ⟨flow, dead⟩ L2 s2 ⟨h2, hdead⟩
    refine ((Watches.lift .next).after h2).bind fun _ L3 s3 h3 => ?_
    exact (Shadows.closeBlock hopens hL1 (.refl _) h3 hdead).bind fun _ L4 s4 h4 => .of_ok rfl rfl h4
  statements {s0 s W L} h flow {dead} hdead := by
    refine ((Watches.lift .peek).after h).bind fun token L1 s1 h1 => ?_
    cases token.kind
    case rbrace => exact .of_ok rfl rfl ⟨h1, hdead⟩
    case eof => exact .of_leaves (.of_error rfl (.inl (by simp)))
    all_goals
      refine (ih.statement.after h1).bind fun f L2 s2 h2 => .ite (fun _ => ?_) fun _ => ih.statements h2 flow hdead
      refine .bind (Q := fun n L' s' => n = s2.body.size ∧ L' = L2 ∧ s' = s2) (.of_ok rfl rfl ⟨rfl, rfl, rfl⟩) ?_
      rintro _ _ _ ⟨rfl, rfl, rfl⟩
      exact ih.statements h2 f fun _ hmem => Option.some.inj hmem ▸ h2.covers.size_le
  ifArms {s0 s W L} arms h := by
    refine (Shadows.held h (.condition h.tidy d)).bind fun skip L1 s1 h1 => ((ih.block true).after h1).bind fun f L2 s2 h2 => ?_
    refine (Shadows.held h2 (.emitOpenBranch h2.tidy)).bind fun handle L3 s3 h3 => ?_
    have h3 : s0.Keeps (skip :: (arms.ends ++ [handle] ++ W)) L3 s3 :=
      h3.perm (by simpa using (List.Perm.swap ..).trans (List.perm_middle.symm.cons skip))
    refine (Shadows.settle h3).bind fun _ L4 s4 h4 => ?_
    refine ((Watches.lift (.accept _)).after h4).bind fun hasElse L5 s5 h5 => .ite (fun _ => ?_) fun _ => .of_ok rfl rfl h5
    refine ((Watches.lift (.accept _)).after h5).bind fun isIf L6 s6 h6 => .ite (fun _ => ih.ifArms _ h6) fun _ => ?_
    exact ((ih.block true).after h6).bind fun _ L7 s7 h7 => .of_ok rfl rfl h7
  whileStatement := by
    refine (Watches.lift (.expect _)).bind fun _ => (Watches.lift .here).bind fun first L s hs hL => ?_
    refine (Shadows.held (Keeps.refl hs hL) (.condition hs d)).bind fun exit L1 s1 h1 => ?_
    have hs2 : AnalysisState.Tidy { s1 with loops := { first } :: s1.loops } := { h1.tidy with }
    refine (Shadows.lift (P := fun _ s' => s' = _) (.of_ok (m := openLoop first) rfl rfl)).bind ?_
    rintro _ L1 _ ⟨rfl, rfl⟩
    refine .watch_bind rfl ?_
    have hL2 : Ledger.Kept { L1 with around := { first } :: L1.around } { s1 with loops := { first } :: s1.loops } :=
      ⟨h1.kept.1, congrArg (_ :: ·) h1.kept.2.1, h1.kept.2.2⟩
    refine (ih.block true _ _ hs2 hL2).bind fun f L3 s3 h3 => ?_
    obtain ⟨loop, hloops⟩ : ∃ loop, s3.loops = loop :: s1.loops := by
      have hnesting := h3.covers.nesting
      have htail := h3.covers.loops
      cases hloops : s3.loops with
      | nil => simp [hloops] at hnesting
      | cons loop loops =>
        rw [hloops] at htail
        exact ⟨loop, congrArg _ htail⟩
    have hcovers : s.Covers { s3 with loops := s1.loops } := { h1.covers with
      body := h1.covers.body.trans h3.covers.body
      scopes := h3.covers.scopes.trans h1.covers.scopes
      symbols := Nat.le_trans h1.covers.symbols h3.covers.symbols }
    exact (Shadows.endLoop h3.tidy hloops hcovers h3.kept (h3.waiting.trans h1.waiting) first f).bind fun _ L4 s4 h4 =>
      .of_ok rfl rfl h4

theorem statements_watched [Supply σ] (returns : ValueType) : ∀ d, Statements σ returns d
  | 0 => ⟨.lift .tooDeep, fun _ => .lift .tooDeep, fun _ _ _ _ => .of_leaves (.of_error rfl rfl),
    fun _ _ => .of_leaves (.of_error rfl rfl), .lift .tooDeep⟩
  | d + 1 => (statements_watched returns d).succ

end Watched

namespace Analysis

variable {σ : Type} [TokenSource σ] {s s1 s2 : AnalysisState σ} {place : Nat}

/-! ## Definitions -/

namespace Upkeep

theorem noteReturns (place : Nat) (returns : ValueType) : Upkeep (noteReturns place returns : Analysis σ Unit) := by
  have hshift : Upkeep (modify fun s => { s with table := s.table.shiftParams returns.slots } : Analysis σ Unit) := by
    intro s hs
    refine .of_ok rfl { hs with linked := hs.linked.shiftParams _ } ⟨List.prefix_rfl, rfl, rfl, ?_⟩ trivial
    simp [SymbolTable.shiftParams]
  exact (updateSymbol place (by exact fun _ => rfl)).bind fun _ => ite hshift (pure _)

theorem endBody (name : Token) (returns : ValueType) (flow : Flow) : Upkeep (endBody name returns flow : Analysis σ Unit) :=
  ite (ite (fail _ (by nofun)) (emit _ (by nofun))) (pure _)

variable [Supply σ]

theorem parameter (function : Nat) : Upkeep (parameter function : Analysis σ Unit) := by
  refine (accept _).bind fun const => (expect _).bind fun name => (expect _).bind fun _ => typeName.bind fun p => ?_
  obtain ⟨typeToken, type⟩ := p
  refine ite (fail _ (by nofun)) fun s hs => ?_
  refine (Upholds.declare hs name .parameter type const (by nofun)).bind fun place s1 hs1 _ _ => ?_
  exact upholds ((markAssigned place).bind fun _ => updateSymbol function (by exact fun _ => rfl)) hs1

theorem parameters (function : Nat) : ∀ d, Upkeep (parameters function d : Analysis σ Unit)
  | 0 => tooDeep
  | d + 1 => (parameter function).bind fun _ => (accept _).bind fun _ => ite (parameters function d) (pure _)

theorem parameterList (function d : Nat) : Upkeep (parameterList function d : Analysis σ Unit) :=
  (expect _).bind fun _ => (accept _).bind fun _ =>
    ite (pure _) ((parameters function d).bind fun _ => (expect _).bind fun _ => pure _)

end Upkeep

/-- A function is declared, and its parameters and its body start in a scope of their own. -/
theorem Leaves.openFunction (hs : s.Tidy) (name : Token) : Leaves (openFunction name) s fun r s' =>
    s'.Tidy ∧ r.1 < s'.table.symbols.size ∧ (s'.body.code.toList.map Instruction.op)[r.2]? = some .marker ∧
      ∃ s0, s.Grows s0 ∧ s0.Opens true s' := by
  refine Leaves.bind (declare_global name .function .void true hs) fun place s1 ⟨howes, hgrows, hplace⟩ => ?_
  have hgrows2 : s.Grows { s1 with functionCount := s1.functionCount + 1 } :=
    ⟨hgrows.body, hgrows.loops, hgrows.scopes, hgrows.symbols⟩
  have howes2 : AnalysisState.Owes { s1 with functionCount := s1.functionCount + 1 } place :=
    ⟨fun g => { howes.tidy g with }, howes.symbol⟩
  refine Leaves.bind (Q := fun _ s2 => s2.Owes place ∧ s.Grows s2 ∧ place < s2.table.symbols.size)
    (.of_ok rfl ⟨howes2, hgrows2, hplace⟩) fun number s2 ⟨howes, hgrows, hplace⟩ => ?_
  have hsize {g : Symbol → Symbol} : (s2.table.update place g).symbols.size =
    s2.table.symbols.size := by simp [SymbolTable.update]
  refine Leaves.bind (Q := fun _ s3 => s3.Owes place ∧ s.Grows s3 ∧ place < s3.table.symbols.size)
    (.of_ok rfl ⟨howes.update (fun _ => rfl) fun _ => rfl, ⟨hgrows.body, hgrows.loops, hgrows.scopes, ?_⟩, ?_⟩)
    fun _ s3 ⟨howes, hgrows, hplace⟩ => ?_
  · rw [hsize]
    exact hgrows.symbols
  · rw [hsize]
    exact hplace
  refine Leaves.settle howes _ fun symbol => ?_
  have hmarker : Headed [.start { slot := .ofNat symbol.slot.toNat }] := .one fun _ => rfl
  have hs4 := (howes.tidy { const := true, value := some name.lexeme }).append .body hmarker
  have hgrows4 := hgrows.trans (s3.grows_append .body [.start { slot := .ofNat symbol.slot.toNat }])
  refine .of_ok rfl ⟨{ hs4 with linked := hs4.linked.of_eq rfl rfl }, hplace, ?_, _, hgrows4, rfl, rfl, rfl, rfl⟩
  simp [Stream.emit, Stream.size, Instruction.start]

/-! ## Programs -/

theorem Upkeep.mainFunction (stop : Pos) : Upkeep (mainFunction stop : Analysis σ Symbol) := by
  intro s hs
  refine .get_bind ?_
  split
  · exact .fail _ (by nofun)
  · rename_i place hplace
    refine (Upholds.symbolAt hs (hs.linked.lt_of_resolve hplace)).bind fun symbol s' hs' _ _ => ?_
    exact upholds (ite (fail _ (by nofun)) (ite (fail _ (by nofun)) (pure _))) hs'

theorem Upkeep.closeEntry (stop : Pos) : Upkeep (closeEntry stop : Analysis σ Unit) :=
  (mainFunction stop).bind fun _ => (emit _ (by nofun)).bind fun _ => (emit _ (by nofun)).bind fun _ =>
    ite (emit _ (by nofun)) (pure _)

/-- The code falls into functions. -/
theorem Leaves.assemble (hs : s.Tidy) : Leaves assemble s fun p s' =>
    s' = s ∧ splitFunctions (s.entry.code.toList ++ s.body.code.toList) = .ok p.functions := by
  rw [Leaves, Analysis.assemble, run_get_bind]
  obtain ⟨header, rest, hopened⟩ := hs.opened
  obtain ⟨functions, hsplit⟩ : ∃ functions, splitFunctions (s.entry.code.toList ++ s.body.code.toList) = .ok functions := by
    refine (hs.entry.append hs.body).exists_splitFrom fun _ i hi => ?_
    rw [hopened] at hi
    cases hi
    rfl
  rw [hsplit]
  exact ⟨rfl, rfl⟩

theorem Leaves.openEntry (source : σ) : Leaves openEntry { source } fun _ s' => s'.Tidy ∧ s'.loops = [] := by
  refine .of_ok rfl ⟨⟨⟨.nil, fun x => ?_⟩, rfl, ⟨_, _, rfl⟩, .one fun _ => rfl, nofun⟩, rfl⟩
  exact Std.TreeMap.getElem?_emptyc

end Analysis

namespace Watched

open AnalysisState Analysis
open StateT (lift)

variable {σ : Type} [TokenSource σ] {s s1 s2 : AnalysisState σ} {L : Ledger} {W : List Nat}

/-- A function is closed; what was there before it stays. -/
theorem leaves_closeFunction (h : s.Opens true s1) (h2 : s1.Keeps W L s2) {place marker : Nat}
    (hplace : place < s2.table.symbols.size)
    (hmarker : (s1.body.code.toList.map Instruction.op)[marker]? = some .marker) (returns : ValueType) :
    Leaves (closeFunction place marker returns) s2 fun _ s' => s.Keeps W L s' := by
  refine Leaves.bind (Upholds.symbolAt h2.tidy hplace) ?_
  rintro symbol s2 ⟨-, -, rfl⟩
  refine Leaves.bind (Q := fun _ s' => s1.Keeps W L s')
    (.of_ok rfl ⟨{ h2.tidy with body := ?_ }, { h2.covers with body := ?_ }, ⟨?_, h2.kept.2⟩, h2.waiting⟩) fun _ s3 h3 => ?_
  · simp only [Stream.setHeader, Array.toList_modify]
    exact h2.tidy.body.modify marker fun _ _ _ => rfl
  · simpa [Stream.setHeader, map_op_modify] using h2.covers.body
  · -- no branch stands at the marker
    simp only [Stream.setHeader, Array.toList_modify]
    refine h2.kept.1.modify (fun hmem => ?_) _
    obtain ⟨e, he, rfl⟩ := List.mem_map.1 hmem
    obtain ⟨more, hmore⟩ := h2.covers.body
    have hop : (s2.body.code.toList.map Instruction.op)[e.1]? = some .marker := by
      rw [← hmore, List.getElem?_append_left (List.getElem?_eq_some_iff.1 hmarker).1, hmarker]
    rw [List.getElem?_map, h2.kept.1.2 e he, Option.map_some, Ledger.op_of_mem_entries he] at hop
    cases hop
  · refine Leaves.bind (leaves_exit_block h h3) fun _ s4 h4 => ?_
    exact .of_ok rfl { h4 with tidy := { h4.tidy with linked := h4.tidy.linked.of_eq rfl rfl }, covers := { h4.covers with } }

namespace Watches

variable [Supply σ]

theorem function (d : Nat) : Watches (function d : Watched σ Unit) (Analysis.function d) := by
  refine (lift (.expect _)).bind fun _ => (lift (.expect _)).bind fun name L s hs hL => ?_
  refine (Shadows.lift (Leaves.openFunction hs name)).bind ?_
  rintro ⟨place, marker⟩ L s1 ⟨rfl, hs1, hplace, hmarker, s0, hgrows, hopens⟩
  have hL1 : L.Kept s1 := by
    rw [Ledger.Kept, hopens.body, hopens.loops, hgrows.loops]
    exact ⟨hL.1.grow hgrows.body, hL.2⟩
  refine ((lift (.parameterList place d)).after (Keeps.refl hs1 hL1)).bind fun _ L2 s2 h2 => ?_
  refine ((lift (.expect _)).after h2).bind fun _ L3 s3 h3 => ((lift .typeName).after h3).bind fun p L4 s4 h4 => ?_
  refine ((lift (.noteReturns place p.2)).after h4).bind fun _ L5 s5 h5 => ?_
  refine (((statements_watched p.2 d).block false).after h5).bind fun flow L6 s6 h6 => ?_
  refine ((lift (.endBody name p.2 flow)).after h6).bind fun _ L7 s7 h7 => .of_leaves ?_
  refine (leaves_closeFunction hopens h7 (Nat.lt_of_lt_of_le hplace h7.covers.symbols) hmarker p.2).imp fun _ s8 h8 => ?_
  exact { h8 with covers := hgrows.covers.trans h8.covers }

theorem definitions : ∀ d, Watches (definitions d : Watched σ Token) (Analysis.definitions d)
  | 0 => lift .tooDeep
  | d + 1 => by
    refine (lift .peek).bind fun token => ?_
    cases token.kind
    case fn => exact (function d).bind fun _ => definitions d
    case «let» => exact (lift (.declaration d)).bind fun _ => definitions d
    case const => exact (lift (.declaration d)).bind fun _ => definitions d
    case eof => exact pure _
    all_goals exact lift (.fail _ (by nofun))

end Watches

theorem Shadows.program [Supply σ] (source : σ) (d : Nat) : Shadows (program d) (Analysis.program d) {} { source } fun p L s =>
    splitFunctions (s.entry.code.toList ++ s.body.code.toList) = .ok p.functions ∧ L.waiting = [] ∧ L.around = [] ∧ L.Kept s := by
  refine (lift (Leaves.openEntry source)).bind ?_
  rintro _ _ s1 ⟨rfl, hs1, hloops⟩
  have hL : Ledger.Kept {} s1 := by
    rw [Ledger.Kept, hloops]
    exact ⟨⟨List.nodup_nil, by simp [Ledger.entries]⟩, rfl, by simp [Ledger.targets]⟩
  refine (Watches.definitions d _ s1 hs1 hL).bind fun stop L2 s2 h2 => ?_
  refine ((Watches.lift (.closeEntry stop.pos)).after h2).bind fun _ L3 s3 h3 => of_leaves ((Leaves.assemble h3.tidy).imp ?_)
  rintro p _ ⟨rfl, hsplit⟩
  have hnone : L3.around.length = 0 := by
    have hnesting := h3.covers.nesting
    rwa [h3.kept.2.1, List.length_map, hloops] at hnesting
  exact ⟨hsplit, h3.waiting.eq_nil, List.length_eq_zero_iff.1 hnone, h3.kept⟩

/-- An analysis does the same under watch, and leaves every branch of the ledger in the code of the functions. Otherwise it fails
fairly. -/
theorem analyze_shadows [Supply σ] (source : σ) : match OnePass.analyze source with
    | .ok p => ∃ L, analyze source = .ok (p, L) ∧ L.waiting = [] ∧ L.around = [] ∧ (∀ j ∈ L.targets, j ∈ L.settled) ∧
      ∃ entry body : List Instruction, splitFunctions (entry ++ body) = .ok p.functions ∧
        ∀ j ∈ L.settled, body[j.1]? = some (branchBy (j.2 - (j.1 + 1)))
    | .error e => analyze source = .error e ∧ e.IsFair σ := by
  have hprogram := Shadows.program source (depthBound (TokenSource.remaining source))
  rw [Shadows] at hprogram
  rw [OnePass.analyze, Watched.analyze, StateT.run'_eq, StateT.run'_eq]
  cases hrun : (Analysis.program (depthBound (TokenSource.remaining source))).run { source } with
  | error e =>
    rw [hrun] at hprogram
    exact ⟨congrArg _ hprogram.1, hprogram.2⟩
  | ok r =>
    rw [hrun] at hprogram
    obtain ⟨L, hw, hsplit, hwaiting, haround, hcode, -, htargets⟩ := hprogram
    refine ⟨L, congrArg _ hw, hwaiting, haround, htargets, _, _, hsplit, fun j hj => ?_⟩
    exact hcode.2 _ (List.mem_append_right _ (List.mem_map_of_mem hj))

end Watched

/-- An analysis fails only with a diagnostic, which is either the source's own or blames no operator for a lost operand. -/
theorem analyze_fails {σ : Type} [TokenSource σ] [Supply σ] (source : σ) {e : Failure} (h : analyze source = .error e) :
    ∃ d, e = .diagnostic d ∧ ((∀ op, d.fault ≠ .missingOperand op) ∨ ∃ source : σ, (TokenSource.peek source).1 = .error d) := by
  have hshadows := Watched.analyze_shadows source
  rw [h] at hshadows
  cases e with
  | diagnostic d => exact ⟨d, rfl, hshadows.2⟩
  | breach b =>
    have hdeep : b = .tooDeep := hshadows.2
    exact absurd (hdeep ▸ h) (analyze_ne_tooDeep source)

/-- Whatever tokens an analysis is given, in whatever order, it ends in a program or in a diagnostic. None of its own rules is
broken: the pool stays in step, every scope that is closed was opened, every branch that is patched is there, no operator lacks an
operand, and the code falls into functions. -/
theorem analyze_tokens_fairly (tokens : List Token) :
    (∃ p, analyze (Replay.ofTokens tokens) = .ok p) ∨
    ∃ d, analyze (Replay.ofTokens tokens) = .error (.diagnostic d) ∧ ∀ op, d.fault ≠ .missingOperand op := by
  cases h : analyze (Replay.ofTokens tokens) with
  | ok p => exact .inl ⟨p, rfl⟩
  | error e =>
    obtain ⟨d, rfl, hfault | ⟨source, hsource⟩⟩ := analyze_fails _ h
    · exact .inr ⟨d, rfl, hfault⟩
    · -- a list of tokens has no diagnostics of its own
      cases hsource

end OnePass

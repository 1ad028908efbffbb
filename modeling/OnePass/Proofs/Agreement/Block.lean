import OnePass.Proofs.Agreement.Statement

/-!
# Blocks, analysed and translated

Statements in statements: blocks, whose code after a statement that leaves is dropped when the block ends, branches, whose ends
are patched together, and loops, which are closed by patching the branches out of them. Every statement is compiled as it is
translated (`stmtAgrees`).
-/

namespace OnePass

variable {c c' : Context} {inLoop : Bool} {items : List Item} {rest ys : List Terminal}

/-! ## Dead code -/

/-- The terminals of the statements of a block, without the closing brace. -/
def Block.inner : Block → List Terminal
  | .nil => []
  | .cons first rest => first.yield ++ rest.inner

theorem Block.yield_eq (b : Block) : b.yield = b.inner ++ [.mark .rbrace] := by
  cases b with
  | nil => rfl
  | cons first rest => rw [Block.yield, Block.inner, rest.yield_eq, List.append_assoc]

namespace AnalysisState

variable {σ : Type} [TokenSource σ] [Supply σ]

/-- Between two states statements were compiled, of which only these items will be kept. -/
structure Wasted (s : AnalysisState σ) (ys : List Terminal) (items : List Item) (c : Context) (s' : AnalysisState σ) : Prop where
  knows : s'.Knows c
  takes : Takes s ys s'
  entry : s'.entry = s.entry
  code : ∃ junk, s'.body.code.toList = s.body.code.toList ++ (emitted (loopFirst s.loops) s.body.size items ++ junk)
  loops : ∃ places, (∀ p ∈ places, s.body.size + items.length ≤ p ∧ p < s'.body.size) ∧
    s'.loops = noteExits (exits s.body.size items ++ places) s.loops

namespace Wasted

variable {s s1 s2 : AnalysisState σ} {ys zs : List Terminal} {items : List Item} {c c1 c2 : Context}

theorem of_ran (h : Ran s ys items c s1) : Wasted s ys items c s1 :=
  ⟨h.knows, h.takes, h.entry, ⟨[], by rw [h.code, List.append_nil]⟩, [], by simp, by rw [h.loops, List.append_nil]⟩

/-- All of it is waste. -/
theorem of_ran_nil (h : Ran s ys items c s1) : Wasted s ys [] c s1 := by
  refine ⟨h.knows, h.takes, h.entry, ⟨_, h.code⟩, exits s.body.size items, fun p hp => ?_, h.loops⟩
  rw [h.size_eq]
  exact le_of_mem_exits hp

theorem size_le (h : Wasted s ys items c s1) : s.body.size + items.length ≤ s1.body.size := by
  obtain ⟨junk, hjunk⟩ := h.code
  rw [Stream.size_eq s1.body, hjunk, List.length_append, List.length_append, length_emitted, ← Stream.size_eq]
  omega

theorem trans (h : Wasted s ys items c1 s1) (h' : Wasted s1 zs [] c2 s2) : Wasted s (ys ++ zs) items c2 s2 := by
  obtain ⟨junk, hjunk⟩ := h.code
  obtain ⟨junk', hjunk'⟩ := h'.code
  obtain ⟨places, hplaces, hloops⟩ := h.loops
  obtain ⟨places', hplaces', hloops'⟩ := h'.loops
  have hsize := h.size_le
  have hsize' := h'.size_le
  refine ⟨h'.knows, h.takes.trans h'.takes, h'.entry.trans h.entry, ⟨junk ++ junk', ?_⟩, places ++ places', fun p hp => ?_, ?_⟩
  · rw [hjunk', hjunk]
    simp [emitted]
  · rcases List.mem_append.1 hp with hp | hp
    · have := hplaces p hp
      simp only [List.length_nil] at hsize'
      omega
    · have := hplaces' p hp
      simp only [List.length_nil] at this
      omega
  · rw [hloops', hloops, ← noteExits_append]
    simp [exits]

theorem of_ran_trans {more : List Item} (h : Ran s ys items c1 s1) (h' : Wasted s1 zs more c2 s2) :
    Wasted s (ys ++ zs) (items ++ more) c2 s2 := by
  obtain ⟨junk, hjunk⟩ := h'.code
  obtain ⟨places, hplaces, hloops⟩ := h'.loops
  refine ⟨h'.knows, h.takes.trans h'.takes, h'.entry.trans h.entry, ⟨junk, ?_⟩, places, fun p hp => ?_, ?_⟩
  · rw [hjunk, h.code, h.loops, loopFirst_noteExits, h.size_eq, emitted_append]
    simp
  · have := hplaces p hp
    rw [h.size_eq] at this
    rw [List.length_append]
    omega
  · rw [hloops, h.loops, h.size_eq, exits_append, ← noteExits_append, List.append_assoc]

theorem faces (h : Wasted s ys items c1 s1) (hs : s.Faces c (ys ++ rest)) : s1.Faces c1 rest :=
  ⟨h.knows, h.takes.readable hs.readable, List.append_cancel_left (h.takes.terminals.symm.trans hs.terminals)⟩

end Wasted

/-- What comes after the kept items is dropped. -/
theorem Wasted.dropFrom {s s' : AnalysisState σ} (h : Wasted s ys items c' s') (hs : s.Inside c inLoop) :
    ∃ s'', (Analysis.dropFrom (s.body.size + items.length)).run s' = .ok ((), s'') ∧ Ran s ys items c' s'' := by
  obtain ⟨junk, hjunk⟩ := h.code
  obtain ⟨places, hplaces, hloops⟩ := h.loops
  refine ⟨_, rfl, ⟨?_, ?_, ?_, ?_, ?_⟩⟩
  · exact { h.knows with }
  · exact { h.takes with }
  · exact h.entry
  · have hlength : (s.body.code.toList ++ emitted (loopFirst s.loops) s.body.size items).length = s.body.size + items.length := by
      rw [List.length_append, length_emitted, Stream.size_eq]
    have htake : (s'.body.truncate (s.body.size + items.length)).code.toList =
        s'.body.code.toList.take (s.body.size + items.length) := by simp [Stream.truncate]
    rw [← List.append_assoc] at hjunk
    exact htake.trans (hjunk ▸ List.take_left' hlength)
  · have hbreaks := hs.breaks
    simp only [hloops]
    cases hl : s.loops with
    | nil => rfl
    | cons loop loops =>
      simp only [hl, List.head?_cons, Option.mem_some_iff, forall_eq'] at hbreaks
      have hkept : (exits s.body.size items).reverse.filter (· < s.body.size + items.length) =
        (exits s.body.size items).reverse :=
        List.filter_eq_self.2 fun p hp => by simpa using (le_of_mem_exits (List.mem_reverse.1 hp)).2
      have hold : loop.breaks.filter (· < s.body.size + items.length) = loop.breaks :=
        List.filter_eq_self.2 fun p hp => by
          have := hbreaks p hp
          simpa using (by omega : p < s.body.size + items.length)
      have hdropped : places.reverse.filter (· < s.body.size + items.length) = [] :=
        List.filter_eq_nil_iff.2 fun p hp => by
          have := (hplaces p (List.mem_reverse.1 hp)).1
          simpa using this
      simp only [noteExits, List.reverse_append, List.filter_append, hkept, hold, hdropped, List.nil_append]

end AnalysisState

/-! ## Blocks -/

/-- The kinds of the tokens that a statement can start with. -/
def TokenKind.opensStmt : TokenKind → Bool
  | .let | .const | .if | .while | .break | .continue | .return | .lbrace | .semicolon => true
  | kind => kind.opensExpr

theorem TokenKind.opensStmt_of_opensExpr {kind : TokenKind} (h : kind.opensExpr = true) : kind.opensStmt = true := by
  unfold opensStmt
  split
  all_goals first | rfl | exact h

theorem Stmt.opensStmt_yield (rest : List Terminal) (st : Stmt) : (frontKind (st.yield ++ rest)).opensStmt = true := by
  cases st with
  | declare d => cases d <;> rfl
  | effect e =>
    rw [Stmt.yield, List.append_assoc]
    exact TokenKind.opensStmt_of_opensExpr (e.opensExpr_yield _)
  | «return» value => cases value <;> rfl
  | _ => rfl

namespace Analysis

open AnalysisState Translation

variable {σ : Type} [TokenSource σ] [Supply σ]
variable {s s' : AnalysisState σ} {b : Block} {e : Expr} {flow flow' : Flow} {returns : ValueType}
  {depth : Nat} {arms arms' : Arms} {t : Token} {first : Stmt}

/-- Where the tokens of a statement are ahead, compiling them is translating it. -/
def StmtAgrees (σ : Type) [TokenSource σ] [Supply σ] (st : Stmt) : Prop :=
  ∀ (s : AnalysisState σ) (c : Context) (rest : List Terminal) (returns : ValueType) (inLoop : Bool) (depth : Nat),
    s.Faces c (st.yield ++ rest) → s.Inside c inLoop → frontKind rest ≠ .else → 4 * s.ahead.length + 3 ≤ depth →
    Follows (fun _ => statement returns depth) s ((st.translate returns inLoop).run c) (Compiled s st.yield st.flow)

/-- The statements of a block were compiled, none of them after one that leaves so far. -/
def LiveBlock (s : AnalysisState σ) (b : Block) (items : List Item) (c : Context) (r : Flow × Option Nat)
    (s' : AnalysisState σ) : Prop :=
  r.1 = b.flow ∧
    if b.flow.leaves then r.2 = some (s.body.size + items.length) ∧ Wasted s b.inner items c s'
    else r.2 = none ∧ Ran s b.inner items c s'

/-- Where the tokens of the statements of a block are ahead, compiling them is translating them, also if they are dead. -/
structure BlockAgrees (σ : Type) [TokenSource σ] [Supply σ] (b : Block) : Prop where
  live (s : AnalysisState σ) (c : Context) (rest : List Terminal) (returns : ValueType) (inLoop : Bool) (depth : Nat) :
    s.Faces c (b.yield ++ rest) → s.Inside c inLoop → 4 * s.ahead.length + 4 ≤ depth →
    Follows (fun _ => statements returns depth {} none) s ((b.translate returns inLoop).run c) (LiveBlock s b)
  dead (s : AnalysisState σ) (c : Context) (rest : List Terminal) (returns : ValueType) (inLoop : Bool)
    (depth : Nat) (flow : Flow)
    (handle : Nat) : s.Faces c (b.yield ++ rest) → s.Inside c inLoop → 4 * s.ahead.length + 4 ≤ depth →
    Follows (fun _ => statements returns depth flow (some handle)) s ((b.translate returns inLoop).run c)
      fun _ c' r s' => r = (flow, some handle) ∧ Wasted s b.inner [] c' s'

omit [Supply σ] in
theorem run_statements_nil (hf : s.front = .ok t) (hk : t.kind = .rbrace) (returns : ValueType) (depth : Nat) (flow : Flow)
    (dead : Option Nat) : (statements returns (depth + 1) flow dead).run s = .ok ((flow, dead), s.looked) := by
  rw [statements, run_bind_of_ok (run_peek_ok hf), hk]
  rfl

omit [Supply σ] in
theorem run_statements_cons (hf : s.front = .ok t) (hk : t.kind.opensStmt = true) (returns : ValueType)
    (depth : Nat) (flow : Flow) (dead : Option Nat) :
    (statements returns (depth + 1) flow dead).run s = (do
      let f ← statement returns depth
      if dead.isNone && f.leaves then statements returns depth f (some (← here))
      else statements returns depth flow dead : Analysis σ (Flow × Option Nat)).run s.looked := by
  rw [statements, run_bind_of_ok (run_peek_ok hf)]
  split
  · rename_i h
    rw [h] at hk
    cases hk
  · rename_i h
    rw [h] at hk
    cases hk
  · rfl

theorem blockAgrees_nil : BlockAgrees σ .nil where
  live s c rest returns inLoop depth h hi hd := by
    obtain _ | depth := depth
    · omega
    obtain ⟨t, hf, -, hk, -, -⟩ := h.front_cons
    rw [Block.translate]
    exact .of_ok (run_statements_nil hf hk returns depth {} none) ⟨rfl, rfl, .of_after (.looked h.knows .body)⟩
  dead s c rest returns inLoop depth flow handle h hi hd := by
    obtain _ | depth := depth
    · omega
    obtain ⟨t, hf, -, hk, -, -⟩ := h.front_cons
    rw [Block.translate]
    exact .of_ok (run_statements_nil hf hk returns depth flow _)
      ⟨rfl, .of_ran (.of_after (.looked h.knows .body))⟩

/-- The first statement of a block, and then the others. -/
theorem statements_first (hfirst : StmtAgrees σ first) {rest : Block} {after : List Terminal} {dead : Option Nat}
    (h : s.Faces c (first.yield ++ (rest.yield ++ after))) (hi : s.Inside c inLoop) (hd : 4 * s.ahead.length + 3 ≤ depth)
    {good : List Item → Context → Flow × Option Nat → AnalysisState σ → Prop}
    (hgood : ∀ items c1 s1, Ran s first.yield items c1 s1 → s1.Faces c1 (rest.yield ++ after) → s1.Inside c1 inLoop →
      4 * s1.ahead.length + 4 ≤ depth →
      Follows (fun _ => if dead.isNone && first.flow.leaves then
      statements returns depth first.flow (some (s.body.size + items.length))
      else statements returns depth flow dead) s1
      ((do
      let more ← rest.translate returns inLoop
      return if first.flow.leaves then items else items ++ more : Translation _).run c1) good) :
    Follows (fun _ => statements returns (depth + 1) flow dead) s
      (((Block.cons first rest).translate returns inLoop).run c) good := by
  obtain ⟨t, hf, hk⟩ := h.front
  have hopens : t.kind.opensStmt = true := hk ▸ first.opensStmt_yield _
  have helse : frontKind (rest.yield ++ after) ≠ .else := by
    cases rest with
    | nil => nofun
    | cons second rest =>
      intro heq
      have hopens := second.opensStmt_yield (rest.yield ++ after)
      rw [← List.append_assoc, ← Block.yield, heq] at hopens
      cases hopens
  rw [Block.translate]
  refine .of_run_eq (run_statements_cons hf hopens returns depth flow dead) ?_
  refine .bind (hfirst s.looked c _ returns inLoop depth h.looked hi.looked helse (by simpa using hd)) ?_
  rintro items c1 _ s1 hrun ⟨rfl, hran⟩
  have hran1 := (Ran.of_after (After.looked h.knows .body)).trans hran
  have hlength := hran1.takes.length_eq
  have hpos := List.length_pos_iff.2 first.yield_ne_nil
  have hnext := hgood items c1 s1 hran1 (hran1.faces h) (hran1.inside hi (first.growing_translate returns inLoop _ _ _ hrun))
    (by simp only [List.nil_append] at hlength; omega)
  have hhere : here.run s1 = .ok (s.body.size + items.length, s1) := by
    rw [← show s1.body.size = s.body.size + items.length from hran1.size_eq]
    rfl
  cases hleaves : dead.isNone && first.flow.leaves with
  | true =>
    rw [hleaves] at hnext
    exact .ite_pos rfl (.step hhere (by simpa using hnext))
  | false =>
    rw [hleaves] at hnext
    exact .ite_neg (by simp) (by simpa using hnext)

theorem blockAgrees_cons {rest : Block} (hfirst : StmtAgrees σ first) (hrest : BlockAgrees σ rest) :
    BlockAgrees σ (.cons first rest) where
  live s c after returns inLoop depth h hi hd := by
    obtain _ | depth := depth
    · omega
    rw [Block.yield, List.append_assoc] at h
    refine statements_first hfirst h hi (by omega) fun items c1 s1 hran hs1 hi1 hd1 => ?_
    cases hleaves : first.flow.leaves with
    | true =>
      have hflow : (Block.cons first rest).flow = first.flow := by rw [Block.flow, if_pos hleaves]
      refine .map (hrest.dead s1 c1 after returns inLoop depth first.flow _ hs1 hi1 hd1) ?_
      rintro more c2 _ s2 ⟨rfl, hwaste⟩
      refine ⟨hflow.symm, ?_⟩
      rw [hflow, if_pos hleaves]
      exact ⟨rfl, (Wasted.of_ran hran).trans hwaste⟩
    | false =>
      have hflow : (Block.cons first rest).flow = rest.flow := by rw [Block.flow, if_neg (by simp [hleaves])]
      refine .map (hrest.live s1 c1 after returns inLoop depth hs1 hi1 hd1) ?_
      rintro more c2 ⟨_, dead⟩ s2 ⟨rfl, hlive⟩
      refine ⟨hflow.symm, ?_⟩
      simp only [hflow, Bool.false_eq_true, if_false]
      split at hlive
      · rename_i hlate
        rw [if_pos hlate]
        obtain ⟨hdead, hwaste⟩ := hlive
        refine ⟨?_, .of_ran_trans hran hwaste⟩
        refine hdead.trans ?_
        rw [hran.size_eq, List.length_append, Nat.add_assoc]
      · rename_i hlate
        rw [if_neg hlate]
        exact ⟨hlive.1, hran.trans hlive.2⟩
  dead s c after returns inLoop depth flow handle h hi hd := by
    obtain _ | depth := depth
    · omega
    rw [Block.yield, List.append_assoc] at h
    refine statements_first hfirst h hi (by omega) fun items c1 s1 hran hs1 hi1 hd1 => ?_
    refine .map (hrest.dead s1 c1 after returns inLoop depth flow handle hs1 hi1 hd1) ?_
    rintro more c2 _ s2 ⟨rfl, hwaste⟩
    exact ⟨rfl, (Wasted.of_ran_nil hran).trans hwaste⟩

/-- The end of a block: the closing brace is taken, and dead code is dropped. -/
theorem LiveBlock.close {r : Flow × Option Nat} (h : LiveBlock s b items c' r s') (hs : s.Faces c (b.yield ++ rest))
    (hi : s.Inside c inLoop) :
    ∃ t s'', s'.front = .ok t ∧ (r.2.forM dropFrom).run s'.taken = .ok ((), s'') ∧ Ran s b.yield items c' s'' := by
  rw [b.yield_eq, List.append_assoc] at hs
  obtain ⟨-, h⟩ := h
  split at h
  · obtain ⟨hdead, hwaste⟩ := h
    obtain ⟨t, hf, -, -, htake, hs'⟩ := (hwaste.faces hs).front_cons
    have hwaste' : Wasted s b.yield items c' s'.taken :=
      ⟨hs'.knows, b.yield_eq ▸ hwaste.takes.trans htake, hwaste.entry, hwaste.code, hwaste.loops⟩
    obtain ⟨s'', hdrop, hran⟩ := hwaste'.dropFrom hi
    rw [hdead]
    exact ⟨t, s'', hf, hdrop, hran⟩
  · obtain ⟨hdead, hran⟩ := h
    obtain ⟨t, hf, -, -, htake, -⟩ := (hran.faces hs).front_cons
    rw [hdead]
    refine ⟨t, s'.taken, hf, rfl, ?_⟩
    rw [b.yield_eq]
    simpa using hran.trans (.of_after (.taken hran.knows .body htake))

/-- A block in the scope of the parameters. -/
theorem block_follows (hb : BlockAgrees σ b) (h : s.Faces c (.mark .lbrace :: (b.yield ++ rest))) (hi : s.Inside c inLoop)
    (hd : 4 * s.ahead.length + 1 ≤ depth) :
    Follows (fun _ => block returns false depth) s ((b.translate returns inLoop).run c)
      (Compiled s (.mark .lbrace :: b.yield) b.flow) := by
  obtain _ | depth := depth
  · omega
  rw [block]
  refine .expect h rfl fun _ _ hs1 htake => .step (run_pure () _) ?_
  have hlength : s.ahead.length = 1 + s.taken.ahead.length := (htake .body).takes.length_eq
  refine .and_then (hb.live s.taken c rest returns inLoop depth hs1 hi.taken (by omega)) ?_
  intro items c' r s2 hlive
  obtain ⟨t', s3, hf', hdrop, hran⟩ := hlive.close hs1 hi.taken
  refine ⟨r.1, s3, ?_, hlive.1, ?_⟩
  · rw [run_bind_of_ok (run_next_ok hf'), closeBlock, bind_assoc, run_bind_of_ok hdrop]
    rfl
  · simpa using (Ran.of_after (htake .body)).trans hran

/-- A block in a scope of its own. -/
theorem inner_block_follows (hb : BlockAgrees σ b) (h : s.Faces c (.mark .lbrace :: (b.yield ++ rest))) (hi : s.Inside c inLoop)
    (hd : 4 * s.ahead.length + 1 ≤ depth) :
    Follows (fun _ => block returns true depth) s ((inScope (b.translate returns inLoop)).run c)
      (Compiled s (.mark .lbrace :: b.yield) b.flow) := by
  obtain _ | depth := depth
  · omega
  rw [block, inScope]
  refine .translate (show _ = some ((), { c with scopes := [] :: c.scopes }) from rfl) ?_
  refine .expect h rfl fun _ _ hs1 htake => .step (show enterScope.run s.taken = .ok ((), _) from rfl) ?_
  have hlength : s.ahead.length = 1 + s.taken.ahead.length := (htake .body).takes.length_eq
  have henter := (htake .body).trans (After.of_table hs1.knows hs1.knows.table.enterScope rfl rfl .body)
  have hinside : AnalysisState.Inside { s.taken with table := s.taken.table.enterScope }
    { c with scopes := [] :: c.scopes } inLoop :=
    ⟨Nat.le_succ_of_le hi.deep, hi.inLoop, hi.breaks⟩
  have hs2 := henter.faces h
  have hahead : ({ s.taken with table := s.taken.table.enterScope } : AnalysisState σ).ahead = s.taken.ahead := rfl
  refine .bind (hb.live _ _ rest returns inLoop depth hs2 hinside (by rw [hahead]; omega)) ?_
  intro items c' r s2 hrun hlive
  obtain ⟨t', s3, hf', hdrop, hran⟩ := hlive.close hs2 hinside
  have hdeep := (b.growing_translate returns inLoop _ _ _ hrun).length_scopes
  obtain ⟨scope, outer, hscopes, houter⟩ : ∃ scope outer, c'.scopes = scope :: outer ∧ outer ≠ [] := by
    have := hi.deep
    cases hscopes : c'.scopes with
    | nil => simp [hscopes] at hdeep
    | cons scope outer =>
      refine ⟨scope, outer, rfl, ?_⟩
      rintro rfl
      simp only [hscopes, List.length_cons, List.length_nil] at hdeep
      omega
  obtain ⟨table, hexit, htable, hglobal, hlocal⟩ := SymbolTable.Represents.exitScope (hscopes ▸ hran.knows.table) houter
  have hexitrun : exitScope.run s3 = .ok ((), { s3 with table }) := by
    rw [exitScope, run_get_bind, hexit]
    rfl
  have hrest : (do
      let _ ← next
      closeBlock true r.2
      return r.1 : Analysis σ Flow).run s2 = .ok (r.1, { s3 with table }) := by
    rw [run_bind_of_ok (run_next_ok hf'), closeBlock, bind_assoc, run_bind_of_ok hdrop]
    exact run_bind_of_ok hexitrun
  refine .of_ok (c := { c' with scopes := c'.scopes.tail }) hrest ⟨hlive.1, ?_⟩
  rw [← show outer = c'.scopes.tail by rw [hscopes]; rfl] 
  have hleave := After.of_table hran.knows htable hglobal hlocal .body
  simpa using (Ran.of_after henter).trans (hran.trans (Ran.of_after hleave))

/-! ## Loops -/

omit [TokenSource σ] [Supply σ] in
/-- The end of a loop: the branch back is emitted, and the branches out are patched. -/
theorem run_endLoop {loop : Loop} {loops : List Loop} (hl : s.loops = loop :: loops) (first : Nat) {exit : Nat}
    (hexit : exit < s.body.size) (hbreaks : ∀ p ∈ loop.breaks, p < s.body.size) (body : Flow) {code : List Instruction}
    (hcode : code = s.body.code.toList ++ emitted first s.body.size (if body.breaks then [] else [.again])) :
    (endLoop first exit body).run s =
      .ok ((), { s with loops, body := ⟨(patched (exit :: loop.breaks) code.length 0 code).toArray⟩ }) := by
  have hclose : closeLoop.run s = .ok (loop.breaks, { s with loops }) := by
    cases s
    cases hl
    rfl
  have hpatch {s' : AnalysisState σ} (hs' : s'.body.code.toList = code) :
      (do patch exit; loop.breaks.forM patch : Analysis σ Unit).run s' =
        .ok ((), { s' with body := ⟨(patched (exit :: loop.breaks) code.length 0 code).toArray⟩ }) := by
    have hsize : s.body.size ≤ s'.body.size := by
      rw [Stream.size_eq s'.body, hs', hcode, List.length_append, ← Stream.size_eq]
      omega
    have hrun := run_forM_patch (exit :: loop.breaks) s' fun p hp => Nat.lt_of_lt_of_le (by
      rcases List.mem_cons.1 hp with rfl | hp
      · exact hexit
      · exact hbreaks p hp) hsize
    rwa [Stream.size_eq, hs'] at hrun
  rw [endLoop, run_bind_of_ok hclose]
  cases hb : body.breaks with
  | true => exact hpatch (by simp [hcode, hb, emitted])
  | false =>
    refine (run_bind_of_ok (run_emitBranchTo first _)).trans (hpatch ?_)
    rw [toList_append_body, hcode, hb]
    rfl

theorem whileStatement_follows (he : e.Grouped) (hb : BlockAgrees σ b) (h : s.Faces c ((Stmt.loop e b).yield ++ rest))
    (hi : s.Inside c inLoop) (hd : 4 * s.ahead.length + 2 ≤ depth) :
    Follows (fun _ => whileStatement returns depth) s (((Stmt.loop e b).translate returns inLoop).run c)
      (Compiled s (Stmt.loop e b).yield {}) := by
  obtain _ | depth := depth
  · omega
  simp only [Stmt.yield, List.cons_append, List.append_assoc] at h
  rw [whileStatement, Stmt.translate]
  refine .expect h rfl fun _ _ hs1 htake => .step (show here.run s.taken = .ok (s.body.size, s.taken) from rfl) ?_
  have hlength : s.ahead.length = 1 + s.taken.ahead.length := (htake .body).takes.length_eq
  refine .bind (condition_follows he (stops_lbrace _) hs1 (by omega)) ?_
  rintro test c1 _ s2 htest ⟨rfl, hcondition⟩
  have hs2 := hcondition.faces hs1
  -- the body is compiled in the new loop
  have hopened : AnalysisState.Inside { s2 with loops := { first := s.body.size } :: s2.loops } c1 true := by
    refine ⟨?_, rfl, by simp⟩
    rw [(Growing.test e _ _ _ htest).length_scopes]
    exact hi.deep
  have hs3 : AnalysisState.Faces { s2 with loops := { first := s.body.size } :: s2.loops } c1
    (.mark .lbrace :: (b.yield ++ rest)) :=
    ⟨{ hs2.knows with }, hs2.readable, hs2.terminals⟩
  have hlength2 := hcondition.takes.length_eq
  have hahead : ({ s2 with loops := { first := s.body.size } :: s2.loops } : AnalysisState σ).ahead = s2.ahead := rfl
  refine .step (show (openLoop s.body.size).run s2 = .ok ((), _) from rfl) ?_
  refine .bind (inner_block_follows hb hs3 hopened (by rw [hahead]; omega)) ?_
  rintro items c2 _ s4 - ⟨rfl, hran⟩
  have hcode2 : s2.body.code.toList = s.body.code.toList ++ (test ++ [{ op := .br }]) := by
    rw [hcondition.body]
    exact toList_append_body s.taken _
  have hsize2 : s2.body.size = s.body.size + test.length + 1 := by
    rw [Stream.size_eq, hcode2, Stream.size_eq]
    simp [Nat.add_assoc]
  have hcode4 : s.body.code.toList ++ emitted s.body.size s.body.size (loopItems test items b.flow.breaks) =
      s4.body.code.toList ++ emitted s.body.size s4.body.size (if b.flow.breaks then [] else [.again]) := by
    rw [hran.code, hran.size_eq]
    change _ = s2.body.code.toList ++ emitted s.body.size s2.body.size items ++ emitted _ (s2.body.size + _) _
    rw [hcode2, hsize2]
    have htest : (plain test).length = test.length := List.length_map ..
    simp only [loopItems, emitted_append, emitted_plain, emitted_cons, htest, List.append_assoc]
    rfl
  have hexit : s.body.size + test.length < s4.body.size := by
    rw [hran.size_eq]
    change _ < s2.body.size + _
    omega
  have hbreaks : ∀ p ∈ (exits s2.body.size items).reverse ++ [], p < s4.body.size := by
    intro p hp
    rw [List.append_nil, List.mem_reverse] at hp
    rw [hran.size_eq]
    exact (le_of_mem_exits hp).2
  refine .of_ok (run_bind_of_ok (run_endLoop (hran.loops.trans rfl) s.body.size hexit hbreaks b.flow hcode4)) ⟨rfl, ?_⟩
  have hk := hran.knows
  have htakes : Takes s2 (.mark .lbrace :: b.yield) s4 := { hran.takes with }
  have hall := (htake .body).takes.trans (hcondition.takes.trans htakes)
  refine ⟨{ hk with }, { hall with },
    hran.entry.trans hcondition.entry, ?_, ?_⟩
  · have hloop := patched_loop s.body.code.toList test items b.flow.breaks
    simp only [← Stream.size_eq] at hloop
    simp only [List.append_nil, hsize2, List.length_append, length_emitted, ← Stream.size_eq, hloop, emitted_plain]
  · rw [exits_plain, noteExits_nil]
    exact hcondition.loops

/-! ## Branches -/

/-- The condition and the body of a branch of an `if`, the open branch at its end, and then the others. -/
theorem arm_follows {α β : Type} (he : e.Grouped) (hb : BlockAgrees σ b)
    (h : s.Faces c (e.yield ++ .mark .lbrace :: (b.yield ++ rest)))
    (hi : s.Inside c inLoop) (hd : 4 * s.ahead.length + 2 ≤ depth) {g : Flow → Nat → Analysis σ α}
    {k : List Instruction → List Item → Translation β} {good : β → Context → α → AnalysisState σ → Prop}
    (hg : ∀ test items c' s', c.Grows c' →
      Ran s (e.yield ++ .mark .lbrace :: b.yield) (armHead test items ++ [.instr { op := .br }]) c' s' →
      Follows (fun _ => g b.flow (s.body.size + (armHead test items).length)) s' ((k test items).run c') good) :
    Follows (fun _ => do
        let skip ← condition depth
        let f ← block returns true depth
        let ending ← emitOpenBranch
        patch skip
        g f ending) s
      ((do
        let test ← Translation.test e
        let items ← inScope (b.translate returns inLoop)
        k test items : Translation β).run c) good := by
  refine .bind (condition_follows he (stops_lbrace _) h hd) ?_
  rintro test c1 _ s1 htest ⟨rfl, hcondition⟩
  have hgrows1 := Growing.test e _ _ _ htest
  have hcondition' := Ran.of_after hcondition
  have hs1 := hcondition.faces h
  have hlength := hcondition.takes.length_eq
  refine .bind (inner_block_follows hb hs1 (hcondition'.inside hi hgrows1) (by omega)) ?_
  rintro items c2 _ s2 hitems ⟨rfl, hran⟩
  have hgrows2 := (b.growing_translate returns inLoop).inScope _ _ _ hitems
  have hsize1 : s1.body.size = s.body.size + test.length + 1 := by
    rw [hcondition'.size_eq]
    simp [plain]
    omega
  have hsize2 : s2.body.size = s.body.size + (armHead test items).length := by
    rw [hran.size_eq, hsize1, length_armHead]
    omega
  refine .step (run_emitOpenBranch s2) ?_
  have hsize3 : (s2.append .body [{ op := .br }]).body.size = s.body.size + test.length + 1 + items.length + 1 := by
    rw [Stream.size_eq, toList_append_body, List.length_append, ← Stream.size_eq, hsize2, length_armHead]
    simp only [List.length_singleton]
    omega
  have hcode3 : (s2.append .body [{ op := .br }]).body.code.toList = s.body.code.toList ++ (test ++ [{ op := .br }] ++
      (emitted (loopFirst s.loops) (s.body.size + test.length + 1) items ++ [{ op := .br }])) := by
    rw [toList_append_body, hran.code, hcondition'.code, hcondition.loops, emitted_plain, hsize1]
    simp
  have hpatched := patched_armHead s.body.code.toList test (loopFirst s.loops) items
  rw [← Stream.size_eq, ← hsize3, ← hcode3] at hpatched
  refine .step (run_patch (by rw [hsize3]; omega)) ?_
  rw [hsize2]
  have hk := hran.knows
  have htakes := hcondition.takes.trans hran.takes
  refine hg test items c2 _ (Trans.trans hgrows1 hgrows2)
    ⟨{ hk with }, { htakes with },
      hran.entry.trans hcondition.entry, hpatched, ?_⟩
  rw [exits_append, exits_armHead]
  simp only [exits, List.append_nil, ← hsize1]
  exact hran.loops.trans (by rw [hcondition.loops])

/-- The branches of an `if` were compiled; the branches at their ends are open, and patching them gives the items. -/
structure Armed (s : AnalysisState σ) (ys : List Terminal) (arms : Arms) (flow : Flow) (items : List Item) (c : Context)
    (arms' : Arms) (s' : AnalysisState σ) : Prop where
  knows : s'.Knows c
  takes : Takes s ys s'
  entry : s'.entry = s.entry
  loops : s'.loops = noteExits (exits s.body.size items) s.loops
  flow : if arms'.hasElse then arms'.flow = arms.flow.both flow else flow = {}
  code : ∃ ends code, arms'.ends = arms.ends ++ ends ∧ (∀ p ∈ ends, s.body.size ≤ p ∧ p < s'.body.size) ∧
    s'.body.code.toList = s.body.code.toList ++ code ∧
    patched ends s'.body.size s.body.size code = emitted (loopFirst s.loops) s.body.size items

/-- Where the tokens of the branches of an `if` are ahead, compiling them is translating them. -/
def BranchesAgree (σ : Type) [TokenSource σ] [Supply σ] (b : Branches) : Prop :=
  ∀ (s : AnalysisState σ) (c : Context) (rest : List Terminal) (returns : ValueType) (inLoop : Bool) (depth : Nat) (arms : Arms),
    s.Faces c (b.yield ++ rest) → s.Inside c inLoop → frontKind rest ≠ .else → arms.hasElse = false →
    4 * s.ahead.length + 3 ≤ depth →
    Follows (fun _ => ifArms returns depth arms) s ((b.translate returns inLoop).run c) (Armed s b.yield arms b.flow)

/-- A branch before others whose ends are still open. -/
theorem Armed.cons {s1 s2 : AnalysisState σ} {zs : List Terminal} {test : List Instruction} {others : List Item} {c1 c2 : Context}
    (hhead : Ran s ys (armHead test items ++ [.instr { op := .br }]) c1 s1)
    (h : Armed s1 zs { arms with flow := arms.flow.both flow, ends := arms.ends ++
      [s.body.size + (armHead test items).length] } flow'
      others c2 arms' s2) : Armed s (ys ++ zs) arms (flow.both flow') (armItems test items others) c2 arms' s2 := by
  obtain ⟨ends, code, hends, hrange, hcode, hpatched⟩ := h.code
  have hsize1 : s1.body.size = s.body.size + (armHead test items).length + 1 := by
    rw [hhead.size_eq, List.length_append]
    rfl
  have hlength : code.length = others.length := by
    have := congrArg List.length hpatched
    rwa [length_patched, length_emitted] at this
  have hsize2 : s2.body.size = s.body.size + (armHead test items).length + 1 + others.length := by
    rw [Stream.size_eq, hcode, List.length_append, ← Stream.size_eq, hsize1, hlength]
  refine ⟨h.knows, hhead.takes.trans h.takes, h.entry.trans hhead.entry, ?_, ?_, ?_⟩
  · rw [h.loops, hhead.loops, hsize1, exits_append, armItems, exits_append, ← noteExits_append]
    simp [exits, Nat.add_assoc]
  · have hflow := h.flow
    split at hflow
    · rw [if_pos (by assumption), hflow]
      simp [Flow.both, Bool.and_assoc]
    · rw [if_neg (by assumption), hflow]
      simp [Flow.both]
  · have hsize : s.body.size + (armHead test items).length < s2.body.size := by omega
    refine ⟨(s.body.size + (armHead test items).length) :: ends, _, by simp [hends], fun p hp => ?_,
      (hcode.trans (by rw [hhead.code, List.append_assoc])), ?_⟩
    · rcases List.mem_cons.1 hp with rfl | hp
      · omega
      · have := hrange p hp
        omega
    · rw [hsize2]
      refine patched_arm (fun p hp => hsize1 ▸ (hrange p hp).1) ?_
      rwa [hhead.loops, loopFirst_noteExits, hsize2, hsize1] at hpatched

theorem Armed.of_ran (h : Ran s ys items c s') (hends : arms'.ends = arms.ends)
    (hflow : if arms'.hasElse then arms'.flow = arms.flow.both flow else flow = {}) : Armed s ys arms flow items c arms' s' :=
  ⟨h.knows, h.takes, h.entry, h.loops, hflow, [], _, by simp [hends], by simp, h.code, patched_nil _ _ _⟩

theorem branchesAgree_only (he : e.Grouped) (hb : BlockAgrees σ b) : BranchesAgree σ (.only e b) := by
  intro s c rest returns inLoop depth arms h hi helse harms hd
  obtain _ | depth := depth
  · omega
  rw [Branches.yield, List.append_assoc] at h
  rw [ifArms, Branches.translate]
  refine arm_follows he hb h hi (by omega) fun test items c' s' _ hhead => ?_
  have hs' : s'.Faces c' rest := hhead.faces (by simpa using h)
  refine .refuse hs' helse (.ite_neg (by simp) (.of_ok rfl ?_))
  have hyield : (Branches.only e b).yield = (e.yield ++ .mark .lbrace :: b.yield) ++ [] := by simp [Branches.yield]
  have hflow : (Branches.only e b).flow = b.flow.both {} := by simp [Branches.flow, Flow.both]
  rw [hyield, hflow]
  exact .cons hhead (.of_ran (.of_after (.looked hs'.knows .body)) rfl (by simp [harms]))

theorem branchesAgree_orElse {otherwise : Block} (he : e.Grouped) (hb : BlockAgrees σ b) (hotherwise : BlockAgrees σ otherwise) :
    BranchesAgree σ (.orElse e b otherwise) := by
  intro s c rest returns inLoop depth arms h hi helse harms hd
  obtain _ | depth := depth
  · omega
  simp only [Branches.yield, List.append_assoc, List.cons_append] at h
  rw [ifArms, Branches.translate]
  refine arm_follows he hb h hi (by omega) fun test items c' s' hgrows hhead => ?_
  refine .accept (hhead.faces (by simpa using h)) rfl fun hs1 htake => .ite_pos rfl ?_
  refine .refuse hs1 (by simp [frontKind, Terminal.kind]) (.ite_neg (by simp) ?_)
  have hbefore := Ran.of_after ((htake .body).trans (.looked hs1.knows .body))
  have hlength := (hhead.takes.trans hbefore.takes).length_eq
  have hi1 := hbefore.inside (hhead.inside hi hgrows) (Std.Refl.refl _)
  refine .bind (inner_block_follows hotherwise hs1.looked hi1 (by omega)) ?_
  rintro others c2 _ s2 - ⟨rfl, hran⟩
  have hyield : (Branches.orElse e b otherwise).yield = (e.yield ++ .mark .lbrace :: b.yield) ++
      ([.mark .else] ++ .mark .lbrace :: otherwise.yield) := by simp [Branches.yield]
  refine .of_ok rfl ?_
  rw [hyield, Branches.flow]
  exact .cons hhead (.of_ran (hbefore.trans hran) rfl (by simp))

theorem branchesAgree_orIf {more : Branches} (he : e.Grouped) (hb : BlockAgrees σ b) (hmore : BranchesAgree σ more) :
    BranchesAgree σ (.orIf e b more) := by
  intro s c rest returns inLoop depth arms h hi helse harms hd
  obtain _ | depth := depth
  · omega
  simp only [Branches.yield, List.append_assoc, List.cons_append] at h
  rw [ifArms, Branches.translate]
  refine arm_follows he hb h hi (by omega) fun test items c' s' hgrows hhead => ?_
  refine .accept (hhead.faces (by simpa using h)) rfl fun hs1 htake1 => .ite_pos rfl ?_
  refine .accept hs1 rfl fun hs2 htake2 => .ite_pos rfl ?_
  have hbefore := Ran.of_after ((htake1 .body).trans (htake2 .body))
  have hlength := (hhead.takes.trans hbefore.takes).length_eq
  simp only [List.length_append, List.length_cons] at hlength
  have hi2 := hbefore.inside (hhead.inside hi hgrows) (Std.Refl.refl _)
  have hhead2 := hhead.trans hbefore
  refine .map (hmore _ c' rest returns inLoop depth _ hs2 hi2 helse harms (by omega)) ?_
  intro others c2 arms' s2 harmed
  have hyield : (Branches.orIf e b more).yield = ((e.yield ++ .mark .lbrace :: b.yield) ++ ([.mark .else] ++ [.mark .if])) ++
      more.yield := by simp [Branches.yield]
  rw [hyield, Branches.flow]
  exact .cons (by simpa using hhead2) harmed

/-- The ends of the branches of an `if` are patched. -/
theorem Armed.patch (h : Armed s ys {} flow items c arms' s') :
    ∃ s'', (arms'.ends.forM patch).run s' = .ok ((), s'') ∧ Ran s ys items c s'' := by
  obtain ⟨ends, code, hends, hrange, hcode, hpatched⟩ := h.code
  rw [List.nil_append] at hends
  rw [hends]
  refine ⟨_, run_forM_patch ends s' fun p hp => (hrange p hp).2, ?_⟩
  have hk := h.knows
  refine ⟨{ hk with },
    { h.takes with }, h.entry, ?_, h.loops⟩
  have hbefore : patched ends s'.body.size 0 s.body.code.toList = s.body.code.toList := by
    refine patched_of_forall_not_mem _ fun p hp => ?_
    have := (hrange p hp).1
    rw [Stream.size_eq] at this
    omega
  simp only [hcode, patched_append, hbefore, Nat.zero_add, ← Stream.size_eq, hpatched]

theorem Armed.flow_eq (h : Armed s ys {} flow items c arms' s') : (if arms'.hasElse then arms'.flow else {}) = flow := by
  have hflow := h.flow
  split at hflow
  · rw [if_pos (by assumption), hflow]
    simp [Flow.both]
  · rw [if_neg (by assumption), hflow]

/-! ## All statements -/

theorem Compiled.of_looked (h : s.Knows c) (hlooked : Compiled s.looked ys flow items c' flow' s') :
    Compiled s ys flow items c' flow' s' :=
  ⟨hlooked.1, (Ran.of_after (After.looked h .body)).trans hlooked.2⟩

theorem stmtAgrees_declare {d : Declaration} (hd : d.Grouped) : StmtAgrees σ (.declare d) := by
  intro s c rest returns inLoop depth h hi _ hdepth
  obtain _ | depth := depth
  · omega
  rw [Stmt.translate]
  refine .peek h fun t hk => ?_
  have hdeclared : Follows (fun _ => do
      declaration depth
      return {} : Nat → Analysis σ Flow) s.looked ((do return plain (← d.translateLocal) : Translation _).run c)
      (Compiled s d.yield {}) := by
    have hlength : 4 * s.looked.ahead.length + 2 ≤ depth := by
      rw [ahead_looked]
      omega
    refine .bind (declaration_local hd h.looked hi.deep hlength) ?_
    rintro code c' _ s' - hafter
    exact .of_ok rfl (.of_looked h.knows ⟨rfl, .of_after hafter⟩)
  cases d with
  | constant =>
    rw [hk]
    exact hdeclared
  | «variable» =>
    rw [hk]
    exact hdeclared

theorem stmtAgrees_branch {b : Branches} (hb : BranchesAgree σ b) : StmtAgrees σ (.branch b) := by
  intro s c rest returns inLoop depth h hi helse hdepth
  obtain _ | depth := depth
  · omega
  rw [Stmt.translate]
  refine .peek h fun t hk => ?_
  rw [hk]
  refine .expect h.looked rfl fun _ _ hs1 htake => ?_
  have hbefore := (After.looked h.knows .body).trans (htake .body)
  have hlength : s.ahead.length = 1 + _ := hbefore.takes.length_eq
  refine .and_then (hb _ c rest returns inLoop depth {} hs1 hi.looked.taken helse rfl (by omega)) ?_
  intro items c' arms s' harmed
  obtain ⟨s'', hpatch, hran⟩ := harmed.patch
  refine ⟨_, s'', run_bind_of_ok hpatch, harmed.flow_eq, ?_⟩
  exact (Ran.of_after hbefore).trans hran

theorem stmtAgrees_loop (he : e.Grouped) (hb : BlockAgrees σ b) : StmtAgrees σ (.loop e b) := by
  intro s c rest returns inLoop depth h hi _ hdepth
  obtain _ | depth := depth
  · omega
  refine .peek h fun t hk => ?_
  rw [hk]
  exact (whileStatement_follows he hb h.looked hi.looked (by simp; omega)).imp fun _ _ _ _ => .of_looked h.knows

theorem stmtAgrees_break : StmtAgrees σ .break := by
  intro s c rest returns inLoop depth h hi _ hdepth
  obtain _ | depth := depth
  · omega
  refine .peek h fun t hk => ?_
  rw [hk]
  exact (breakStatement_follows returns h.looked hi.looked).imp fun _ _ _ _ => .of_looked h.knows

theorem stmtAgrees_continue : StmtAgrees σ .continue := by
  intro s c rest returns inLoop depth h hi _ hdepth
  obtain _ | depth := depth
  · omega
  refine .peek h fun t hk => ?_
  rw [hk]
  exact (continueStatement_follows returns h.looked hi.looked).imp fun _ _ _ _ => .of_looked h.knows

theorem stmtAgrees_return {value : Option Expr} (hvalue : (Stmt.return value).Grouped) : StmtAgrees σ (.return value) := by
  intro s c rest returns inLoop depth h hi _ hdepth
  obtain _ | depth := depth
  · omega
  refine .peek h fun t hk => ?_
  have hkind : t.kind = .return := by
    rw [hk]
    cases value <;> rfl
  rw [hkind]
  exact (returnStatement_follows hvalue returns inLoop h.looked (by simp; omega)).imp fun _ _ _ _ => .of_looked h.knows

theorem stmtAgrees_block (hb : BlockAgrees σ b) : StmtAgrees σ (.block b) := by
  intro s c rest returns inLoop depth h hi _ hdepth
  obtain _ | depth := depth
  · omega
  rw [Stmt.translate]
  refine .peek h fun t hk => ?_
  rw [hk]
  exact (inner_block_follows hb h.looked hi.looked (by simp; omega)).imp fun _ _ _ _ => .of_looked h.knows

theorem stmtAgrees_empty : StmtAgrees σ .empty := by
  intro s c rest returns inLoop depth h hi _ hdepth
  obtain _ | depth := depth
  · omega
  rw [Stmt.translate]
  refine .peek h fun t hk => ?_
  rw [hk]
  refine .next h.looked fun _ _ _ _ htake => .of_ok rfl ⟨rfl, ?_⟩
  exact .of_after ((After.looked h.knows .body).trans (htake .body))

theorem stmtAgrees_effect (he : e.Grouped) : StmtAgrees σ (.effect e) := by
  intro s c rest returns inLoop depth h hi _ hdepth
  obtain _ | depth := depth
  · omega
  have hopens : (frontKind ((Stmt.effect e).yield ++ rest)).opensExpr = true := by
    rw [Stmt.yield, List.append_assoc]
    exact e.opensExpr_yield _
  have heffect : Follows (fun _ => do
      expressionStatement depth
      return {} : Nat → Analysis σ Flow) s.looked (((Stmt.effect e).translate returns inLoop).run c)
      (Compiled s (Stmt.effect e).yield {}) := by
    refine .and_then (expressionStatement_follows he returns inLoop h.looked (by simp; omega)) ?_
    intro items c' _ s' hran
    exact ⟨{}, s', rfl, .of_looked h.knows ⟨rfl, hran⟩⟩
  refine .peek h fun t hk => ?_
  rw [← hk] at hopens
  split
  all_goals first
    | exact heffect
    | (rename_i hkind; rw [hkind] at hopens; cases hopens)

mutual

/-- Every grouped statement is compiled as it is translated. -/
theorem stmtAgrees : ∀ st : Stmt, st.Grouped → StmtAgrees σ st
  | .declare d, h => by
    rw [Stmt.Grouped] at h
    exact stmtAgrees_declare h
  | .branch b, h => by
    rw [Stmt.Grouped] at h
    exact stmtAgrees_branch (branchesAgree b h)
  | .loop e b, h => by
    rw [Stmt.Grouped] at h
    exact stmtAgrees_loop h.1 (blockAgrees b h.2)
  | .break, _ => stmtAgrees_break
  | .continue, _ => stmtAgrees_continue
  | .return value, h => stmtAgrees_return h
  | .block b, h => by
    rw [Stmt.Grouped] at h
    exact stmtAgrees_block (blockAgrees b h)
  | .empty, _ => stmtAgrees_empty
  | .effect e, h => by
    rw [Stmt.Grouped] at h
    exact stmtAgrees_effect h

/-- The statements of a grouped block are compiled as they are translated. -/
theorem blockAgrees : ∀ b : Block, b.Grouped → BlockAgrees σ b
  | .nil, _ => blockAgrees_nil
  | .cons first rest, h => by
    rw [Block.Grouped] at h
    exact blockAgrees_cons (stmtAgrees first h.1) (blockAgrees rest h.2)

/-- The grouped branches of an `if` are compiled as they are translated. -/
theorem branchesAgree : ∀ b : Branches, b.Grouped → BranchesAgree σ b
  | .only e b, h => by
    rw [Branches.Grouped] at h
    exact branchesAgree_only h.1 (blockAgrees b h.2)
  | .orElse e b otherwise, h => by
    rw [Branches.Grouped] at h
    exact branchesAgree_orElse h.1 (blockAgrees b h.2.1) (blockAgrees otherwise h.2.2)
  | .orIf e b rest, h => by
    rw [Branches.Grouped] at h
    exact branchesAgree_orIf h.1 (blockAgrees b h.2.1) (branchesAgree rest h.2.2)

end

end Analysis

end OnePass

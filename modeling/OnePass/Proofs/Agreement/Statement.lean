import OnePass.Proofs.Agreement.Expression
import OnePass.Proofs.Layout

/-!
# Statements, analysed and translated

Where the tokens ahead are those of a statement, compiling them is translating it. The code of a statement is in the stream as its
items are emitted, and the branches out of the innermost loop among them are noted (`Ran`). Here are the statements that hold no
other statements.
-/

namespace OnePass

variable {c : Context} {rest : List Terminal} {inLoop : Bool}

namespace Analysis

open AnalysisState Translation

variable {σ : Type}

theorem run_patch {handle : Nat} {s : AnalysisState σ} (h : handle < s.body.size) :
    (patch handle).run s = .ok ((), { s with body := ⟨(patched [handle] s.body.size 0 s.body.code.toList).toArray⟩ }) := by
  rw [← patched_modify, patched_nil, patch, run_get_bind, Stream.patch?, if_pos h]
  simp only [← Array.toList_modify, Array.toArray_toList]
  rfl

theorem run_forM_patch (handles : List Nat) (s : AnalysisState σ) (h : ∀ p ∈ handles, p < s.body.size) :
    (handles.forM patch).run s =
      .ok ((), { s with body := ⟨(patched handles s.body.size 0 s.body.code.toList).toArray⟩ }) := by
  induction handles generalizing s with
  | nil =>
    rw [patched_nil, Array.toArray_toList]
    rfl
  | cons handle handles ih =>
    rw [List.forM, run_bind_of_ok (run_patch (h handle (List.mem_cons_self ..))), ih]
    · rw [← patched_modify handles, ← patched_modify [], patched_nil]
      simp [Stream.size]
    · intro p hp
      simpa [Stream.size] using h p (List.mem_cons_of_mem _ hp)

end Analysis

/-! ## What a statement leaves -/

/-- The start of the innermost loop. -/
def loopFirst : List Loop → Nat
  | [] => 0
  | loop :: _ => loop.first

/-- The open loops with branches out of the innermost one noted. -/
def noteExits (places : List Nat) : List Loop → List Loop
  | [] => []
  | loop :: loops => { loop with breaks := places.reverse ++ loop.breaks } :: loops

@[simp] theorem noteExits_nil (loops : List Loop) : noteExits [] loops = loops := by cases loops <;> rfl

theorem noteExits_append (places more : List Nat) (loops : List Loop) :
    noteExits (places ++ more) loops = noteExits more (noteExits places loops) := by
  cases loops <;> simp [noteExits]

@[simp] theorem loopFirst_noteExits (places : List Nat) (loops : List Loop) :
    loopFirst (noteExits places loops) = loopFirst loops := by
  cases loops <;> rfl

@[simp] theorem isEmpty_noteExits (places : List Nat) (loops : List Loop) : (noteExits places loops).isEmpty = loops.isEmpty := by
  cases loops <;> rfl

namespace AnalysisState

variable {σ : Type} {s : AnalysisState σ}

theorem toList_append_body (s : AnalysisState σ) (code : List Instruction) :
    (s.append .body code).body.code.toList = s.body.code.toList ++ code := Stream.toList_emitAll s.body code

/-- The state is inside of a function, in a loop or not, and the branches noted there are in the stream. -/
structure Inside (s : AnalysisState σ) (c : Context) (inLoop : Bool) : Prop where
  deep : 2 ≤ c.scopes.length
  inLoop : s.loops.isEmpty = !inLoop
  breaks : ∀ loop ∈ s.loops.head?, ∀ p ∈ loop.breaks, p < s.body.size

theorem Inside.loops_eq_nil (h : s.Inside c false) : s.loops = [] := by
  simpa using h.inLoop

theorem Inside.exists_loops_eq_cons (h : s.Inside c true) : ∃ loop loops, s.loops = loop :: loops := by
  have := h.inLoop
  cases hl : s.loops with
  | nil => simp [hl] at this
  | cons loop loops => exact ⟨loop, loops, rfl⟩

variable [TokenSource σ]

theorem Inside.looked (h : s.Inside c inLoop) : s.looked.Inside c inLoop :=
  ⟨h.deep, h.inLoop, h.breaks⟩

theorem Inside.taken (h : s.Inside c inLoop) : s.taken.Inside c inLoop :=
  ⟨h.deep, h.inLoop, h.breaks⟩

variable [Supply σ]

/-- Between two states statements with these items were compiled: their terminals were taken, the items were emitted, and the
branches out of the innermost loop among them were noted. -/
structure Ran (s : AnalysisState σ) (ys : List Terminal) (items : List Item) (c : Context) (s' : AnalysisState σ) : Prop where
  knows : s'.Knows c
  takes : Takes s ys s'
  entry : s'.entry = s.entry
  code : s'.body.code.toList = s.body.code.toList ++ emitted (loopFirst s.loops) s.body.size items
  loops : s'.loops = noteExits (exits s.body.size items) s.loops

namespace Ran

variable {s s1 s2 : AnalysisState σ} {ys zs : List Terminal} {items more : List Item} {c c1 c2 : Context}

theorem size_eq (h : Ran s ys items c s1) : s1.body.size = s.body.size + items.length := by
  rw [Stream.size_eq, h.code, List.length_append, length_emitted, ← Stream.size_eq]

theorem trans (h : Ran s ys items c1 s1) (h' : Ran s1 zs more c2 s2) : Ran s (ys ++ zs) (items ++ more) c2 s2 where
  knows := h'.knows
  takes := h.takes.trans h'.takes
  entry := h'.entry.trans h.entry
  code := by
    rw [h'.code, h.code, h.loops, loopFirst_noteExits, h.size_eq, emitted_append, List.append_assoc]
  loops := by rw [h'.loops, h.loops, h.size_eq, exits_append, noteExits_append]

/-- Code that needs no loop. -/
theorem of_after {code : List Instruction} (h : After .body s ys code c s1) : Ran s ys (plain code) c s1 where
  knows := h.knows
  takes := h.takes
  entry := h.entry
  code := by
    rw [h.body, emitted_plain]
    exact Stream.toList_emitAll s.body code
  loops := by rw [h.loops, exits_plain, noteExits_nil]

/-- A branch out of the innermost loop. -/
theorem exit (h : s.Knows c) :
    Ran s [] [.exit] c { s.append .body [{ op := .br }] with loops := noteExits [s.body.size] s.loops } where
  knows := { h with }
  takes := .of_source rfl
  entry := rfl
  code := toList_append_body s _
  loops := rfl

/-- A branch to the start of the innermost loop. -/
theorem again (h : s.Knows c) : Ran s [] [.again] c (s.append .body [branchBy (loopFirst s.loops - (s.body.size + 1))]) where
  knows := h.append _ _
  takes := .of_source rfl
  entry := rfl
  code := toList_append_body s _
  loops := (noteExits_nil _).symm

theorem faces (h : Ran s ys items c1 s1) (hs : s.Faces c (ys ++ rest)) : s1.Faces c1 rest :=
  ⟨h.knows, h.takes.readable hs.readable, List.append_cancel_left (h.takes.terminals.symm.trans hs.terminals)⟩

end Ran

theorem Ran.inside {s' : AnalysisState σ} {ys : List Terminal} {items : List Item} {c' : Context} (h : Ran s ys items c' s')
    (hs : s.Inside c inLoop) (hc : c.Grows c') : s'.Inside c' inLoop where
  deep := by
    rw [hc.length_scopes]
    exact hs.deep
  inLoop := by rw [h.loops, isEmpty_noteExits, hs.inLoop]
  breaks := by
    rw [h.loops, h.size_eq]
    have hbreaks := hs.breaks
    cases hl : s.loops with
    | nil => simp [noteExits]
    | cons loop loops =>
      simp only [hl, List.head?_cons, Option.mem_some_iff, forall_eq'] at hbreaks
      simp only [noteExits, List.head?_cons, Option.mem_some_iff, forall_eq', List.mem_append, List.mem_reverse]
      rintro p (hp | hp)
      · exact (le_of_mem_exits hp).2
      · exact Nat.lt_of_lt_of_le (hbreaks p hp) (Nat.le_add_right _ _)

end AnalysisState

/-! ## Declarations -/

namespace Analysis

open AnalysisState Translation

variable {σ : Type}
variable {s : AnalysisState σ} {depth : Nat} {d : Declaration} {scope : Scope} {scopes : Scopes} {name : Token} {type : ValueType}
  {const : Bool} {home : Home} {e : Expr}

theorem run_declare_error (h : s.table.Represents (scope :: scopes)) (hx : (scope.lookup name.lexeme).isSome) (kind : SymbolKind)
    (type : ValueType) (const : Bool) (storage : Storage) :
    (declare name kind type const storage).run s = .error (.diagnostic ⟨name.pos, .duplicate name.lexeme⟩) := by
  rw [declare, run_get_bind, h.declare_of_some _ _ _ _ hx]
  rfl

theorem run_declare_ok (h : s.table.Represents (scope :: scopes)) (hx : scope.lookup name.lexeme = none) (kind : SymbolKind)
    (type : ValueType) (const : Bool) (storage : Storage) :
    (declare name kind type const storage).run s =
      .ok (s.table.symbols.size, { s with table := s.table.declared name.lexeme kind type const storage }) := by
  rw [declare, run_get_bind, (h.declare_of_none kind type const storage hx).1]
  rfl

/-- Declaring a name, where the new symbol shows what it stands for. -/
theorem declare_follows (h : s.table.Represents c.scopes) (name : Token) (kind : SymbolKind) (type : ValueType) (const : Bool)
    (storage : Storage) {binding : Binding} (hshow : (s.table.fresh name.lexeme kind type const storage).Shows binding) :
    Follows (fun _ => declare name kind type const storage) s ((Translation.declare name.lexeme binding).run c)
      fun _ c' place s' => c' = { c with scopes := c'.scopes } ∧ place = s.table.symbols.size ∧
        s' = { s with table := s.table.declared name.lexeme kind type const storage } ∧
        s'.table.Represents c'.scopes ∧ c'.scopes.find? name.lexeme = some binding := by
  change Follows _ _ (Translation.declare name.lexeme binding c) _
  unfold Translation.declare
  cases hscopes : c.scopes with
  | nil => exact absurd hscopes h.nonempty
  | cons scope outer =>
    rw [hscopes] at h
    dsimp only
    cases hx : scope.lookup name.lexeme with
    | some old => exact .of_error (run_declare_error h (by simp [hx]) kind type const storage)
    | none =>
      exact .of_ok (run_declare_ok h hx kind type const storage)
        ⟨rfl, rfl, rfl, (h.declare_of_none kind type const storage hx).2 _ hshow, by simp [Scopes.find?]⟩

/-- The place of a symbol that was declared last. -/
theorem resolve_of_declared {t : SymbolTable} {name : Bytes} {kind : SymbolKind} {storage : Storage} :
    (t.declared name kind type const storage).resolve name = .ok t.symbols.size := by
  simp [SymbolTable.resolve, SymbolTable.declared]

theorem run_emitOpenBranch (s : AnalysisState σ) : emitOpenBranch.run s = .ok (s.body.size, s.append .body [{ op := .br }]) := rfl

theorem run_innermostLoop_ok {loop : Loop} {loops : List Loop} (h : s.loops = loop :: loops) (pos : Pos) (fault : Fault) :
    (innermostLoop pos fault).run s = .ok (loop, s) := by
  rw [innermostLoop, run_get_bind, h]
  rfl

theorem run_innermostLoop_error (h : s.loops = []) (pos : Pos) (fault : Fault) :
    (innermostLoop pos fault).run s = .error (.diagnostic ⟨pos, fault⟩) := by
  rw [innermostLoop, run_get_bind, h]
  rfl

theorem run_noteBreak (handle : Nat) (s : AnalysisState σ) :
    (noteBreak handle).run s = .ok ((), { s with loops := noteExits [handle] s.loops }) := by
  obtain ⟨_, _, _, _, _, _, _, _, loops⟩ := s
  cases loops <;> rfl

theorem run_emitBranchTo (target : Nat) (s : AnalysisState σ) :
    (emitBranchTo target).run s = .ok ((), s.append .body [branchBy (target - (s.body.size + 1))]) := rfl

variable [TokenSource σ] [Supply σ]

/-- The variable of a name was declared: it is at a place, in a section, and stands for this. -/
structure Declares (out : Section) (x : Bytes) (binding : Binding) (s : AnalysisState σ) (c : Context) (r : Section × Nat)
    (s' : AnalysisState σ) : Prop where
  section_eq : r.1 = out
  place : s'.table.resolve x = .ok r.2
  binding : c.scopes.find? x = some binding
  after : After out s [] [] c s'

theorem declareVariable_local (h : s.Knows c) (hdeep : 2 ≤ c.scopes.length) (const : Bool) (name : Token) (type : ValueType) :
    Follows (fun _ => declareVariable const name type) s
      ((Translation.declare name.lexeme (.variable type const false (.local c.locals))).run { c with locals := c.locals + 1 })
      fun _ => Declares .body name.lexeme (.variable type const false (.local c.locals)) s := by
  have hplace : declarationPlace.run s = .ok ((.body, .local), s) := by
    have hdepth := h.table.depth_eq
    rw [declarationPlace, run_get_bind, if_neg (by omega)]
    rfl
  have hshow : (s.table.fresh name.lexeme .variable type const .local).Shows (.variable type const false (.local c.locals)) :=
    ⟨by simp [SymbolTable.fresh], rfl, rfl, rfl, rfl, congrArg Int.ofNat h.nextLocal⟩
  refine .step hplace ?_
  rw [← bind_pure (Translation.declare _ _)]
  refine .bind (declare_follows (c := { c with locals := c.locals + 1 }) h.table name .variable type const .local hshow) ?_
  rintro _ c' _ _ - ⟨hc', rfl, rfl, hrepresents, hfind⟩
  rw [hc']
  have hknows : Knows { s with table := s.table.declared name.lexeme .variable type const .local }
    { c with scopes := c'.scopes, locals := c.locals + 1 } :=
    ⟨hrepresents, h.nextGlobal, by simp [SymbolTable.declared, SymbolTable.allocSlot, h.nextLocal], h.pool,
      h.literals, h.natives, h.functions⟩
  exact .of_ok rfl ⟨rfl, resolve_of_declared, hfind, .of_knows (s := s) hknows rfl rfl rfl rfl .body⟩

theorem declareVariable_global (h : s.Knows c) (hglobal : c.scopes.length = 1) (const : Bool) (name : Token) (type : ValueType) :
    Follows (fun _ => declareVariable const name type) s
      ((Translation.declare name.lexeme (.variable type const false (.global c.pool.length))).run
        { c with pool := c.pool ++ [.variable const name.lexeme] })
      fun _ => Declares .entry name.lexeme (.variable type const false (.global c.pool.length)) s := by
  have hplace : declarationPlace.run s = .ok ((.entry, .global), s) := by
    have hdepth := h.table.depth_eq
    rw [declarationPlace, run_get_bind, if_pos (by omega)]
    rfl
  have hshow : (s.table.fresh name.lexeme .variable type const .global).Shows
    (.variable type const false (.global c.pool.length)) :=
    ⟨by simp [SymbolTable.fresh], rfl, rfl, rfl, rfl, congrArg Int.ofNat h.nextGlobal⟩
  refine .step hplace ?_
  rw [← bind_pure (Translation.declare _ _)]
  refine .bind (declare_follows (c := { c with pool := c.pool ++ [.variable const name.lexeme] }) h.table name .variable type
    const .global hshow) ?_
  rintro _ c' _ _ - ⟨hc', rfl, rfl, hrepresents, hfind⟩
  rw [hc']
  refine .step (run_symbolAt (s.table.symbol?_declared ..)) ?_
  refine .step (run_addGlobal ?_ _) ?_
  · simp [SymbolTable.fresh, SymbolTable.allocSlot, SymbolTable.allocGlobal, h.nextGlobal, h.pool_size]
  · have hknows : Knows { s with
        table := s.table.declared name.lexeme .variable type const .global
        pool := s.pool.push { const, name := name.lexeme } }
        { c with scopes := c'.scopes, pool := c.pool ++ [.variable const name.lexeme] } :=
      ⟨hrepresents, by simp [SymbolTable.declared, SymbolTable.allocSlot, SymbolTable.allocGlobal, h.nextGlobal], h.nextLocal,
        by simp [h.pool, PoolEntry.global], by simp [idxOf?_concat, h.literals], by simp [idxOf?_concat, h.natives], h.functions⟩
    exact .of_ok rfl ⟨rfl, resolve_of_declared, hfind, .of_knows (s := s) hknows rfl rfl rfl rfl .entry⟩

/-- The `=` before an initial value is taken where there is one. -/
theorem takesValue_follows (d : Declaration) (out : Section)
    (h : s.Faces c (Declaration.valueYield d.value? ++ .mark .semicolon :: rest)) :
    ∃ s', (takesValue d.isConst).run s = .ok (d.value?.isSome, s') ∧
      After out s (if d.value?.isSome then [.mark .assign] else []) [] c s' := by
  cases d with
  | constant x type value =>
    obtain ⟨t, hf, -, hk, htake, -⟩ := h.front_cons
    refine ⟨s.taken, ?_, .taken h.knows out htake⟩
    exact run_bind_of_ok (run_expect_ok hf hk)
  | «variable» x type value =>
    cases value with
    | none =>
      obtain ⟨t, hf, -, hk, -, -⟩ := h.front_cons
      exact ⟨s.looked, run_accept_false hf (by rw [hk]; nofun), .looked h.knows out⟩
    | some value =>
      obtain ⟨t, hf, -, hk, htake, -⟩ := h.front_cons
      exact ⟨s.taken, run_accept_true hf hk, .taken h.knows out htake⟩

/-- The initial value of a variable that was declared just before. -/
theorem initialValue_follows (out : Section) (name : Token) {place : Nat} {assigned : Bool} {value : Expr}
    (hvalue : value.Grouped)
    (hrest : Stops 0 rest) (h : s.Faces c (value.yield ++ rest)) (hplace : s.table.resolve name.lexeme = .ok place)
    (hname : c.scopes.find? name.lexeme = some (.variable type const assigned home)) (hdepth : 4 * s.ahead.length + 2 ≤ depth) :
    Follows (fun _ => initialValue out name place type depth) s
      ((do
        let (τ, code) ← value.translate
        Translation.require (τ = type)
        Translation.assign name.lexeme
        return home.address :: code ++ [{ op := .store }] : Translation _).run c)
      fun code c' _ s' => After out s value.yield code c' s' := by
  obtain ⟨place', symbol, hplace', hsymbol, ⟨-, -, -, -, hhome⟩, -⟩ := h.knows.table.resolve_of_some hname
  rw [hplace] at hplace'
  cases hplace'
  refine .step (run_symbolAt hsymbol) (.step (run_emitAddress hhome out s) (.peek (h.append out _) fun t _ => ?_))
  have hfaces := (h.append out [home.address]).looked
  refine .bind (expression_follows out hvalue hfaces hrest (by simpa using hdepth)) ?_
  rintro ⟨_, code⟩ c' τ s' hrun ⟨rfl, hafter⟩
  have hbefore := (After.append h.knows out [home.address]).trans (After.looked (h.append out _).knows out)
  refine .require Iff.rfl (run_fail _ _ s') fun hτ => ?_
  obtain ⟨s'', hstore, hstored⟩ := After.store h.knows hplace hname (value.extending_translate c _ c' hrun) (hbefore.trans hafter)
  exact .of_ok hstore (by simpa using hstored)

/-- A declaration, whose variable is declared and translated by parts that agree. -/
theorem declaration_follows {c1 : Context} (hd : d.Grouped) {out : Section} (h : s.Faces c (d.yield ++ rest))
    (hdeclare : ∀ (s' : AnalysisState σ) (name : Token), s'.Knows c → name.lexeme = d.name →
      Follows (fun _ => declareVariable d.isConst name d.type.type) s'
      ((Translation.declare name.lexeme (.variable d.type.type d.isConst false home)).run c1)
      fun _ => Declares out name.lexeme (.variable d.type.type d.isConst false home) s')
        (hdepth : 4 * s.ahead.length + 2 ≤ depth) :
    Follows (fun _ => declaration depth) s ((d.translate home).run c1) fun code c' _ s' => After out s d.yield code c' s' := by
  simp only [Declaration.yield, List.cons_append, List.append_assoc, List.nil_append] at h
  refine .next h fun t _ hk hs1 htake1 => .expect hs1 rfl fun name hname hs2 htake2 => ?_
  refine .expect hs2 rfl fun _ _ hs3 htake3 => .typeName hs3 fun _ hs4 htake4 => ?_
  have hconst : (t.kind == .const) = d.isConst := by
    rw [hk]
    cases d.isConst <;> rfl
  have hlexeme := Token.lexeme_of_name hname
  rw [hconst]
  refine .require (by simp) (run_fail _ _ _) fun _ => ?_
  rw [← hlexeme]
  refine .bind (hdeclare _ name hs4.knows hlexeme) ?_
  rintro _ c2 ⟨code, place⟩ s5 - ⟨rfl, hplace, hbinding, hdeclared⟩
  have hhead := (htake1 _).trans ((htake2 _).trans ((htake3 _).trans ((htake4 _).trans hdeclared)))
  have hs5 := hdeclared.faces hs4
  obtain ⟨s6, htakes, hassign⟩ := takesValue_follows d code hs5
  refine .step htakes ?_
  cases hvalue : d.value? with
  | none =>
    rw [hvalue] at hs5 hassign
    refine .ite_neg (by simp) (.expect (hassign.faces hs5) rfl fun _ _ _ htake => .of_ok rfl ?_)
    simpa [Declaration.yield, hvalue, Declaration.valueYield] using hhead.trans (hassign.trans (htake _))
  | some value =>
    rw [hvalue] at hs5 hassign
    have hs6 := hassign.faces hs5
    refine .ite_pos (by simp) ?_
    have hlength : s6.ahead.length ≤ s.ahead.length := by
      have := (hhead.takes.trans hassign.takes).length_eq
      omega
    rw [← hdeclared.knows.table.resolve_congr hassign.knows.table rfl] at hplace
    refine .and_then (initialValue_follows _ name (hd value hvalue) (stops_semicolon rest) hs6 hplace hbinding
      (by omega)) ?_
    intro code c' _ s' hafter
    obtain ⟨t, hf, -, hk, htake, -⟩ := (hafter.faces hs6).front_cons
    refine ⟨(), s'.taken, run_bind_of_ok (run_expect_ok hf hk), ?_⟩
    simpa [Declaration.yield, hvalue, Declaration.valueYield] using
      hhead.trans (hassign.trans (hafter.trans (.taken hafter.knows _ htake)))

/-- A declaration in a function. -/
theorem declaration_local (hd : d.Grouped) (h : s.Faces c (d.yield ++ rest)) (hdeep : 2 ≤ c.scopes.length)
    (hdepth : 4 * s.ahead.length + 2 ≤ depth) :
    Follows (fun _ => declaration depth) s (d.translateLocal.run c) fun code c' _ s' => After .body s d.yield code c' s' :=
  .translate (show _ = some (c.locals, { c with locals := c.locals + 1 }) from rfl)
    (declaration_follows hd h (fun _ name hs' _ => declareVariable_local hs' hdeep d.isConst name d.type.type) hdepth)

/-- A declaration outside of functions. -/
theorem declaration_global (hd : d.Grouped) (h : s.Faces c (d.yield ++ rest)) (hglobal : c.scopes.length = 1)
    (hdepth : 4 * s.ahead.length + 2 ≤ depth) :
    Follows (fun _ => declaration depth) s
      ((do d.translate (.global (← addEntry (.variable d.isConst d.name))) : Translation _).run c)
      fun code c' _ s' => After .entry s d.yield code c' s' := by
  refine .translate (show _ = some (c.pool.length, { c with pool := c.pool ++ [_] }) from rfl) ?_
  refine declaration_follows hd h (fun s' name hs' hname => ?_) hdepth
  rw [← hname]
  exact declareVariable_global hs' hglobal d.isConst name d.type.type

/-! ## Simple statements -/

/-- A statement that does `flow` on every path was compiled. -/
def Compiled (s : AnalysisState σ) (ys : List Terminal) (flow : Flow) (items : List Item) (c : Context) (flow' : Flow)
    (s' : AnalysisState σ) : Prop :=
  flow' = flow ∧ Ran s ys items c s'

theorem condition_follows (he : e.Grouped) (hrest : Stops 0 rest) (h : s.Faces c (e.yield ++ rest))
    (hdepth : 4 * s.ahead.length + 2 ≤ depth) :
    Follows (fun _ => condition depth) s ((test e).run c) fun code c' skip s' =>
      skip = s.body.size + code.length ∧ After .body s e.yield (code ++ [{ op := .br }]) c' s' := by
  refine .peek h fun t _ => .bind (expression_follows .body he h.looked hrest (by simpa using hdepth)) ?_
  rintro ⟨_, code⟩ c' τ s' - ⟨rfl, hafter⟩
  refine .require (by simp) (run_fail _ _ s') fun _ => ?_
  refine .step (run_emit .body _ s') (.of_ok (run_emitOpenBranch _) ?_)
  have htest := (After.looked h.knows .body).trans
    (hafter.trans (After.append hafter.knows .body [{ op := .brTrue, operand := 1 }]))
  refine ⟨?_, by simpa using htest.trans (.append htest.knows .body [{ op := .br }])⟩
  have hsize := (Ran.of_after htest).size_eq
  simpa [plain] using hsize

theorem breakStatement_follows (returns : ValueType) (h : s.Faces c (Stmt.break.yield ++ rest)) (hi : s.Inside c inLoop) :
    Follows (fun _ => breakStatement) s ((Stmt.break.translate returns inLoop).run c)
      (Compiled s Stmt.break.yield { breaks := true }) := by
  rw [Stmt.translate, run_require_bind]
  refine .expect h rfl fun _ _ hs1 htake => ?_
  cases inLoop with
  | false => exact .step_error (run_innermostLoop_error (s := s.taken) hi.loops_eq_nil _ _)
  | true =>
    obtain ⟨loop, loops, hloops⟩ := hi.exists_loops_eq_cons
    refine .step (run_innermostLoop_ok (s := s.taken) hloops _ _) (.step (run_emitOpenBranch _) ?_)
    refine .step (run_noteBreak _ _) ?_
    have hexit := (Ran.of_after (htake .body)).trans (Ran.exit hs1.knows)
    refine .expect (hexit.faces h) rfl fun _ _ _ hclose => .of_ok rfl ⟨rfl, ?_⟩
    exact hexit.trans (.of_after (hclose .body))

theorem continueStatement_follows (returns : ValueType) (h : s.Faces c (Stmt.continue.yield ++ rest)) (hi : s.Inside c inLoop) :
    Follows (fun _ => continueStatement) s ((Stmt.continue.translate returns inLoop).run c)
      (Compiled s Stmt.continue.yield { breaks := true }) := by
  rw [Stmt.translate, run_require_bind]
  refine .expect h rfl fun _ _ hs1 htake => ?_
  cases inLoop with
  | false => exact .step_error (run_innermostLoop_error (s := s.taken) hi.loops_eq_nil _ _)
  | true =>
    obtain ⟨loop, loops, hloops⟩ := hi.exists_loops_eq_cons
    have hfirst : loop.first = loopFirst s.taken.loops := by
      change _ = loopFirst s.loops
      rw [hloops]
      rfl
    refine .step (run_innermostLoop_ok (s := s.taken) hloops _ _) ?_
    rw [hfirst]
    refine .step (run_emitBranchTo _ _) ?_
    have hagain := (Ran.of_after (htake .body)).trans (Ran.again hs1.knows)
    refine .expect (hagain.faces h) rfl fun _ _ _ hclose => .of_ok rfl ⟨rfl, ?_⟩
    exact hagain.trans (.of_after (hclose .body))

theorem returnStatement_follows {value : Option Expr} (hvalue : (Stmt.return value).Grouped) (returns : ValueType) (inLoop : Bool)
    (h : s.Faces c ((Stmt.return value).yield ++ rest)) (hdepth : 4 * s.ahead.length + 2 ≤ depth) :
    Follows (fun _ => returnStatement returns depth) s (((Stmt.return value).translate returns inLoop).run c)
      (Compiled s (Stmt.return value).yield { returns := true }) := by
  cases value with
  | none =>
    rw [Stmt.yield] at h
    rw [Stmt.translate, run_require_bind]
    refine .expect h rfl fun _ _ hs1 htake => .peek hs1 fun t hk => ?_
    have hbefore := (htake .body).trans (After.looked hs1.knows .body)
    by_cases hvoid : returns = .void
    · simp only [if_pos hvoid]
      refine .ite_neg (not_not_intro hk) ?_
      have hret := hbefore.trans (.append hbefore.knows .body [{ op := .ret }])
      refine .step (run_emit .body _ _) (.expect (hret.faces h) rfl fun _ _ _ hclose => .of_ok rfl ⟨rfl, ?_⟩)
      simpa [Stmt.yield, plain] using .of_after (hret.trans (hclose .body))
    · simp only [if_neg hvoid]
      exact .ite_pos hk (.step_error (run_fail _ _ _))
  | some value =>
    rw [Stmt.Grouped] at hvalue
    rw [Stmt.yield, List.cons_append, List.append_assoc] at h
    rw [Stmt.translate, run_require_bind]
    refine .expect h rfl fun _ _ hs1 htake => .peek hs1 fun t hk => ?_
    have hne : t.kind ≠ .semicolon := by
      have hopens := value.opensExpr_yield ([.mark .semicolon] ++ rest)
      rw [← hk] at hopens
      intro hkind
      rw [hkind] at hopens
      cases hopens
    have hbefore := (htake .body).trans (After.looked hs1.knows .body)
    by_cases hvoid : returns = .void
    · simp only [if_pos hvoid, if_neg (not_not_intro hvoid)]
      exact .ite_pos hne (.step_error (run_fail _ _ _))
    · simp only [if_neg hvoid, if_pos hvoid]
      refine .ite_neg hne ?_
      have haddress := hbefore.trans (.append hbefore.knows .body [{ op := .argA }])
      refine .step (run_emit .body _ _) ?_
      have hlength := haddress.takes.length_eq
      refine .bind (expression_follows .body hvalue (haddress.faces h) (stops_semicolon rest) (by omega)) ?_
      rintro ⟨_, code⟩ c' τ s' - ⟨rfl, hafter⟩
      refine .require Iff.rfl (run_fail _ _ s') fun _ => ?_
      refine .step (run_emit .body _ _) (.step (run_emit .body _ _) ?_)
      have hret := haddress.trans (hafter.trans (.append hafter.knows .body [{ op := .store }, { op := .ret }]))
      rw [append_append]
      refine .expect (hret.faces (by simpa using h)) rfl fun _ _ _ hclose => .of_ok rfl ⟨rfl, ?_⟩
      simpa [Stmt.yield] using Ran.of_after (hret.trans (hclose .body))

theorem expressionStatement_follows (he : e.Grouped) (returns : ValueType) (inLoop : Bool)
    (h : s.Faces c ((Stmt.effect e).yield ++ rest)) (hdepth : 4 * s.ahead.length + 2 ≤ depth) :
    Follows (fun _ => expressionStatement depth) s (((Stmt.effect e).translate returns inLoop).run c)
      fun items c' _ s' => Ran s (Stmt.effect e).yield items c' s' := by
  rw [Stmt.yield, List.append_assoc] at h
  rw [Stmt.translate]
  refine .bind (expression_follows .body he h (stops_semicolon rest) hdepth) ?_
  rintro ⟨_, code⟩ c' τ s' - ⟨rfl, hafter⟩
  have finish {s1 : AnalysisState σ} {code : List Instruction} (hrun : After .body s e.yield code c' s1) :
      Follows (fun _ => do let _ ← expect .semicolon) s1 (some (plain code, c'))
        fun items c' _ s' => Ran s (Stmt.effect e).yield items c' s' := by
    refine .expect (hrun.faces h) rfl fun _ _ _ htake => .of_ok rfl ?_
    simpa [Stmt.yield] using Ran.of_after (hrun.trans (htake .body))
  change Follows _ _ (some (plain (code ++ if τ = .void then [] else [{ op := .pop }]), c')) _
  by_cases hvoid : τ = .void
  · rw [if_pos hvoid, List.append_nil]
    exact .ite_neg (not_not_intro hvoid) (finish hafter)
  · rw [if_neg hvoid]
    exact .ite_pos hvoid (.step (run_emit .body _ s')
      (finish (by simpa using hafter.trans (.append hafter.knows .body [{ op := .pop }]))))

end Analysis

end OnePass

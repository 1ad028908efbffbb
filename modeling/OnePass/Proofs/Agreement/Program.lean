import OnePass.Proofs.Agreement.Block
import OnePass.Proofs.Emission.Outputs

/-!
# Programs, analysed and translated

Where the tokens of a source are those of a grouped program, analysing it is translating the program (`analyze_toOption`). The
signature of a function grows while its parameters are read, and its header is filled in when its body is done; the functions that
the stream is cut into at the end are those that the definitions gave.
-/

namespace OnePass

variable {c c' : Context} {outer scope : Scope} {f : Bytes} {depth number slot : Nat} {types : List ValueType}
  {returns : ValueType} {code : List Instruction} {ys : List Terminal}

/-! ## Parameters -/

namespace Param

/-- The scope of a function with more parameters, the first of them at a slot; none if one of them breaks a rule. -/
def scope? (slot : Nat) (scope : Scope) : List Param → Option Scope
  | [] => some scope
  | p :: ps =>
    if p.type.type = .void ∨ (scope.lookup p.name).isSome then none
    else scope? (slot + 1) ((p.name, .variable p.type.type p.const true (.argument slot)) :: scope) ps

theorem run_translate (slot : Nat) (ps : List Param) {scopes : Scopes} (h : c.scopes = scope :: scopes) :
    (Param.translate slot ps).run c = (scope? slot scope ps).map fun scope' => ((), { c with scopes := scope' :: scopes }) := by
  induction ps generalizing slot scope c with
  | nil =>
    rw [scope?, Option.map_some, ← h]
    rfl
  | cons p ps ih =>
    rw [Param.translate, Translation.run_require_bind, scope?]
    by_cases hvoid : p.type.type = .void
    · simp [hvoid]
    · rw [if_pos hvoid, StateT.run_bind]
      cases hx : scope.lookup p.name with
      | some old => simp [Translation.declare, StateT.run, h, hx]
      | none =>
        simp [Translation.declare, StateT.run, h, hx, hvoid]
        exact ih (slot + 1) rfl

theorem lookup_shift (n : Nat) (x : Bytes) : ∀ scope : Scope, (scope.shift n).lookup x = (scope.lookup x).map (Binding.shift n)
  | [] => rfl
  | (y, b) :: scope => by
    simp only [Scope.shift, List.map_cons, List.lookup_cons]
    split
    · rfl
    · exact lookup_shift n x scope

/-- Parameters that start at a later slot are those moved up. -/
theorem scope?_add (n : Nat) (ps : List Param) (slot : Nat) (scope : Scope) :
    scope? (slot + n) (scope.shift n) ps = (scope? slot scope ps).map (Scope.shift n) := by
  induction ps generalizing slot scope with
  | nil => rfl
  | cons p ps ih =>
    rw [scope?, scope?, lookup_shift, Option.isSome_map]
    split
    · rfl
    · rw [← ih, Nat.add_right_comm]
      rfl

end Param

/-- The table while the parameters of a function are read: a new one has a value, and the signature of the function takes it in. -/
theorem SymbolTable.Represents.parameter {t : SymbolTable} {scope outer : Scope} {f x : Bytes} {types : List ValueType}
    {number slot : Nat} (h : t.Represents [scope, (f, .function types .void number slot) :: outer]) (hx : scope.lookup x = none)
    (type : ValueType) (const : Bool) :
    (((t.declared x .parameter type const .parameter).update t.symbols.size fun s =>
      { s with assigned := true }).update outer.length
      fun s => { s with params := s.params ++ [type] }).Represents
      [(x, .variable type const true (.argument t.nextParam)) :: scope,
        (f, .function (types ++ [type]) .void number slot) :: outer] := by
  have hdeclared := (h.declare_of_none .parameter type const .parameter hx).2 (.variable type const false (.argument t.nextParam))
    ⟨by simp [fresh], rfl, rfl, rfl, rfl, rfl⟩
  let named (b : Binding) (types : List ValueType) : Scopes := [(x, b) :: scope, (f, .function types .void number slot) :: outer]
  have hparameter (b : Binding) (types : List ValueType) :
      (named b types).flatten = [] ++ (x, b) :: (scope ++ (f, .function types .void number slot) :: outer) := by simp [named]
  have hfunction (b : Binding) (types : List ValueType) :
      (named b types).flatten = ((x, b) :: scope) ++ (f, .function types .void number slot) :: outer := by simp [named]
  have hassigned := hdeclared.update (f := fun s => { s with assigned := true }) (fun _ => rfl)
    (fun _ => .assign) (hparameter _ types) (hparameter _ types) rfl (by simp [named])
  have hsize : t.symbols.size = (scope ++ (f, Binding.function types .void number slot) :: outer).length := by simp [h.size_eq]
  rw [hsize]
  refine hassigned.update (f := fun s => { s with params := s.params ++ [type] }) (fun _ => rfl) ?_
    (hfunction _ types) (hfunction _ (types ++ [type])) (by simp [Scopes.heights, named]) (by simp)
  rintro s ⟨hkind, hparams, hrest⟩
  exact ⟨hkind, by simp [hparams], hrest⟩

/-- A context in a function, whose name stands for this. -/
def Context.signed (c : Context) (scope : Scope) (f : Bytes) (binding : Binding) (outer : Scope) : Context :=
  { c with scopes := [scope, (f, binding) :: outer] }

/-- What a function's name stands for stays the same in its body. -/
theorem Context.Grows.of_signed (h : (c.signed scope f (.function types returns number slot) outer).Grows c') :
    ∃ scope' outer', c'.scopes = [scope', (f, .function types returns number slot) :: outer'] ∧ outer'.length = outer.length := by
  obtain ⟨more, hmore⟩ := h.scopes
  obtain ⟨scopes, pool, locals, functions⟩ := c'
  simp only [Context.signed, Scopes.settled, Scopes.add, List.map_cons, List.map_nil] at hmore
  have hlength : scopes.length = 2 := by simpa using congrArg List.length hmore
  obtain ⟨scope', inner, rfl⟩ := List.length_eq_two.1 hlength
  cases inner with
  | nil => simp [Scope.settled] at hmore
  | cons entry outer' =>
    obtain ⟨g, b⟩ := entry
    simp only [List.map_cons, List.map_nil, List.cons.injEq, Scope.settled, Prod.mk.injEq, Binding.assign, and_true] at hmore
    obtain ⟨-, ⟨rfl, hb⟩, houter⟩ := hmore
    have hlength := congrArg List.length houter
    rw [List.length_map, List.length_map] at hlength
    refine ⟨scope', outer', ?_, hlength⟩
    cases b with
    | «variable» => cases hb
    | function => exact hb ▸ rfl

/-- How a function is translated where only the names of the program are in scope. -/
theorem Definition.run_translate_function (hscopes : c.scopes = [outer]) (name : Bytes) (params : List Param) (returns : TypeName)
    (body : Block) :
    (Definition.function name params returns body).translate.run c =
      if (outer.lookup name).isSome then none else
        (Param.scope? returns.type.slots [] params).bind fun scope => StateT.run (do
          let items ← body.translate returns.type false
          modify fun c => { c with scopes := c.scopes.tail }
          Translation.require (body.flow.returns = true ∨ returns.type = .void)
          let locals := (← get).locals
          return .function {
            header := {
              slot := .ofNat c.pool.length
              returns := .ofNat returns.type.slots
              params := .ofNat params.length
              locals := .ofNat locals }
            code := (bodyCode items body.flow).toArray })
          (Context.signed { c with pool := c.pool ++ [.function name], locals := 0, functions := c.functions + 1 } scope name
            (.function (params.map (·.type.type)) returns.type c.functions c.pool.length) outer) := by
  have hnumber : (modifyGet fun c : Context => (c.functions, { c with functions := c.functions + 1, locals := 0 }) :
      Translation Nat).run c = some (c.functions, { c with functions := c.functions + 1, locals := 0 }) := rfl
  have hentry : (Translation.addEntry (.function name)).run { c with functions := c.functions + 1, locals := 0 } =
    some (c.pool.length, { c with pool := c.pool ++ [.function name], locals := 0, functions := c.functions + 1 }) := rfl
  rw [Definition.translate, Translation.run_bind_of_some hnumber, Translation.run_bind_of_some hentry]
  generalize Binding.function (params.map (·.type.type)) returns.type c.functions c.pool.length = binding
  cases hx : outer.lookup name with
  | some old =>
    refine Translation.run_bind_of_none ?_
    simp [Translation.declare, StateT.run, hscopes, hx]
  | none =>
    have hdeclare : (Translation.declare name binding).run
        { c with pool := c.pool ++ [.function name], locals := 0, functions := c.functions + 1 } =
          some ((), ⟨[(name, binding) :: outer], c.pool ++ [.function name], 0, c.functions + 1⟩) := by
      simp [Translation.declare, StateT.run, hscopes, hx]
    have hparams := Param.run_translate returns.type.slots params
      (c := ⟨[[], (name, binding) :: outer], c.pool ++ [.function name], 0, c.functions + 1⟩) rfl
    rw [Translation.run_bind_of_some hdeclare, Translation.inScope, bind_assoc,
      Translation.run_bind_of_some (show _ = some ((), _) from rfl), bind_assoc, bind_assoc]
    cases hps : Param.scope? returns.type.slots [] params with
    | none =>
      rw [hps] at hparams
      exact Translation.run_bind_of_none hparams
    | some scope =>
      rw [hps] at hparams
      refine (Translation.run_bind_of_some hparams).trans ?_
      simp only [bind_assoc, pure_bind]
      rfl

/-- The instructions of a function in a stream: its marker and its code. -/
def Function.stream (f : Function) : List Instruction := .start f.header :: f.code.toList

namespace AnalysisState

variable {σ : Type} [TokenSource σ] [Supply σ]

/-- Between two states definitions with these outputs were compiled. -/
structure Defined (s : AnalysisState σ) (ys : List Terminal) (outputs : List Output) (c : Context) (s' : AnalysisState σ) :
    Prop where
  knows : s'.Knows c
  takes : Takes s ys s'
  entry : s'.entry.code.toList = s.entry.code.toList ++ Source.entryOf outputs
  body : s'.body.code.toList = s.body.code.toList ++ (Source.functionsOf outputs).flatMap Function.stream
  loops : s'.loops = s.loops

theorem Defined.trans {s s1 s2 : AnalysisState σ} {ys zs : List Terminal} {outputs more : List Output} {c1 c2 : Context}
    (h : Defined s ys outputs c1 s1) (h' : Defined s1 zs more c2 s2) : Defined s (ys ++ zs) (outputs ++ more) c2 s2 where
  knows := h'.knows
  takes := h.takes.trans h'.takes
  entry := by simp [h'.entry, h.entry, Source.entryOf]
  body := by simp [h'.body, h.body, Source.functionsOf]
  loops := h'.loops.trans h.loops

theorem Defined.of_after {s s' : AnalysisState σ} (h : After .entry s ys code c s') : Defined s ys [.entry code] c s' where
  knows := h.knows
  takes := h.takes
  entry := by
    rw [h.entry, Source.entryOf, List.flatMap_singleton]
    exact Stream.toList_emitAll s.entry code
  body := by simp [h.body, append, Source.functionsOf]
  loops := h.loops

end AnalysisState

namespace Analysis

open AnalysisState Translation

variable {σ : Type} [TokenSource σ] [Supply σ]
variable {s : AnalysisState σ} {rest : List Terminal} {p : Param} {body : Block}

theorem parameter_follows (h : s.Faces (c.signed scope f (.function types .void number slot) outer) (p.yield ++ rest)) :
    Follows (fun _ => parameter outer.length) s
      (if p.type.type = .void ∨ (scope.lookup p.name).isSome then none else
        some ((), c.signed ((p.name, .variable p.type.type p.const true (.argument s.table.nextParam)) :: scope) f
          (.function (types ++ [p.type.type]) .void number slot) outer))
      fun _ c' _ s' => After .body s p.yield [] c' s' ∧ s'.table.nextParam = s.table.nextParam + 1 := by
  rw [Param.yield, List.append_assoc] at h
  obtain ⟨s1, haccept, hconst, htable⟩ : ∃ s1, (accept .const).run s = .ok (p.const, s1) ∧
      After .body s (if p.const then [.mark .const] else []) [] (c.signed scope f (.function types .void number slot) outer) s1 ∧
      s1.table = s.table := by
    cases hp : p.const with
    | true =>
      rw [hp] at h
      obtain ⟨t, hf, -, hk, htake, -⟩ := h.front_cons
      exact ⟨s.taken, run_accept_true hf hk, .taken h.knows .body htake, rfl⟩
    | false =>
      rw [hp] at h
      obtain ⟨t, hf, -, hk, -, -⟩ := h.front_cons
      exact ⟨s.looked, run_accept_false hf (by simp [hk, Terminal.kind]), .looked h.knows .body, rfl⟩
  rw [← htable]
  refine .step haccept (.expect (hconst.faces h) rfl fun name hname hs2 htake2 => .expect hs2 rfl fun _ _ hs3 htake3 => ?_)
  refine .typeName hs3 fun _ hs4 htake4 => ?_
  have hhead := hconst.trans ((htake2 _).trans ((htake3 _).trans (htake4 _)))
  by_cases hvoid : p.type.type = .void
  · simp only [hvoid, true_or, if_true]
    exact .step_error (run_fail _ _ _)
  · simp only [hvoid, false_or, if_false]
    have hrepresents : s1.taken.taken.taken.table.Represents (scope :: [(f, .function types .void number slot) :: outer]) :=
      hs4.knows.table
    rw [← Token.lexeme_of_name hname]
    cases hx : scope.lookup name.lexeme with
    | some old =>
      simp only [Option.isSome_some, if_true]
      exact .step_error (run_declare_error hrepresents (by simp [hx]) _ _ _ _)
    | none =>
      simp only [Option.isSome_none, Bool.false_eq_true, if_false]
      refine .step (run_declare_ok hrepresents hx _ _ _ _) (.step rfl (.of_ok rfl ?_))
      have hafter := hhead.trans (.of_table hs4.knows (hrepresents.parameter hx p.type.type p.const) rfl rfl .body)
      rw [List.append_nil] at hafter
      exact ⟨hafter, rfl⟩

/-- A parameter and what comes after it, which has the parameter in scope. -/
theorem parameter_bind {k : Analysis σ Unit} (ps : List Param) {g : Scope → Unit × Context}
    {good : Unit → Context → Unit → AnalysisState σ → Prop}
    (h : s.Faces (c.signed scope f (.function types .void number slot) outer) (p.yield ++ rest))
      (hk : ∀ s1, After .body s p.yield []
      (c.signed ((p.name, .variable p.type.type p.const true (.argument s.table.nextParam)) :: scope) f
      (.function (types ++ [p.type.type]) .void number slot) outer) s1 →
      Follows (fun _ => k) s1 ((Param.scope? s1.table.nextParam
      ((p.name, .variable p.type.type p.const true (.argument s.table.nextParam)) :: scope) ps).map g) good) :
    Follows (fun _ => parameter outer.length >>= fun _ => k) s ((Param.scope? s.table.nextParam scope (p :: ps)).map g) good := by
  have hparameter := parameter_follows h
  rw [Param.scope?]
  split at hparameter
  · rw [if_pos ‹_›]
    obtain ⟨e, he⟩ := hparameter.run_error
    exact .step_error he
  · rw [if_neg ‹_›]
    obtain ⟨_, s1, hrun, hafter, hnext⟩ := hparameter.run_ok
    rw [← hnext]
    exact .step hrun (hk s1 hafter)

/-- The parameters of a function from one on; the closing parenthesis is left. -/
theorem parameters_follows (ps : List Param)
    (h : s.Faces (c.signed scope f (.function types .void number slot) outer) (p.yield ++ (Param.more ps ++ rest)))
    (hdepth : ps.length < depth) :
    Follows (fun _ => parameters outer.length depth) s
      ((Param.scope? s.table.nextParam scope (p :: ps)).map fun scope' =>
        ((), c.signed scope' f (.function (types ++ (p :: ps).map (·.type.type)) .void number slot) outer))
      fun _ c' _ s' => ∃ ys, ys ++ [.mark .rparen] = p.yield ++ Param.more ps ∧ After .body s ys [] c' s' := by
  obtain _ | depth := depth
  · omega
  induction ps generalizing s scope types p depth with
  | nil =>
    refine parameter_bind [] h fun s1 hafter => ?_
    refine .refuse (hafter.faces h) (by nofun) (.of_ok rfl ⟨p.yield, rfl, ?_⟩)
    simpa using hafter.trans (.looked hafter.knows .body)
  | cons q qs ih =>
    refine parameter_bind (q :: qs) h fun s1 hafter => ?_
    obtain ⟨depth, rfl⟩ : ∃ d, depth = d + 1 := ⟨depth - 1, by rw [List.length_cons] at hdepth; omega⟩
    refine .accept (hafter.faces h) rfl fun hs1 htake => ?_
    have hrest := ih (s := s1.taken) (by simpa using hs1) depth (Nat.lt_of_succ_lt_succ hdepth)
    rw [List.append_assoc] at hrest
    refine hrest.imp ?_
    rintro _ c' _ s' ⟨ys, hys, hafter'⟩
    refine ⟨p.yield ++ .mark .comma :: ys, by simp [Param.more, hys], ?_⟩
    simpa using hafter.trans ((htake .body).trans hafter')

theorem parameterList_follows (ps : List Param)
    (h : s.Faces (c.signed [] f (.function [] .void number slot) outer) (.mark .lparen :: (Param.yields ps ++ rest)))
    (hnext : s.table.nextParam = 0) (hdepth : ps.length ≤ depth) :
    Follows (fun _ => parameterList outer.length depth) s
      ((Param.scope? 0 [] ps).map fun scope =>
        ((), c.signed scope f (.function (ps.map (·.type.type)) .void number slot) outer))
      fun _ c' _ s' => After .body s (.mark .lparen :: Param.yields ps) [] c' s' := by
  refine .expect h rfl fun _ _ hs1 htake => ?_
  cases ps with
  | nil => exact .accept hs1 rfl fun _ hclose => .of_ok rfl ((htake .body).trans (hclose .body))
  | cons p ps =>
    have hne : frontKind (Param.yields (p :: ps) ++ rest) ≠ .rparen := by
      simp only [Param.yields, Param.yield]
      split <;> simp [frontKind, Terminal.kind]
    refine .refuse hs1 hne ?_
    rw [Param.yields, List.append_assoc] at hs1
    have hopen := (htake .body).trans (After.looked hs1.knows .body)
    have hparameters := parameters_follows ps (hs1.looked) hdepth
    have hzero : s.taken.looked.table.nextParam = 0 := hnext
    rw [hzero] at hparameters
    refine .and_then hparameters ?_
    rintro _ c' _ s' ⟨ys, hys, hafter⟩
    have hs' : s'.Faces c' (.mark .rparen :: rest) :=
      hafter.faces (by rw [← List.append_assoc, ← hys] at hs1; simpa using hs1.looked)
    obtain ⟨v, hfv, -, hkv, htakev, -⟩ := hs'.front_cons
    refine ⟨(), s'.taken, run_bind_of_ok (run_expect_ok hfv hkv), ?_⟩
    rw [Param.yields, ← hys]
    simpa using hopen.trans (hafter.trans (.taken hafter.knows .body htakev))

/-! ## Functions -/

omit [TokenSource σ] [Supply σ] in
theorem run_openFunction_error (name : Token) (h : s.Knows c) (hscopes : c.scopes = [outer])
    (hx : (outer.lookup name.lexeme).isSome) :
    ∃ e, (openFunction name).run s = .error e := by
  have htable := h.table
  rw [hscopes] at htable
  exact ⟨_, run_bind_of_error (run_declare_error htable hx .function .void true .global)⟩

/-- The function is declared, with no parameters yet and nothing to return, and its marker is emitted. -/
theorem run_openFunction_ok (name : Token) (h : s.Knows c) (hscopes : c.scopes = [outer]) (hx : outer.lookup name.lexeme = none) :
    ∃ s', (openFunction name).run s = .ok ((outer.length, s.body.size), s') ∧ s'.table.nextParam = 0 ∧
      After .body s [] [.start { slot := .ofNat c.pool.length }]
        (Context.signed { c with pool := c.pool ++ [.function name.lexeme], locals := 0, functions := c.functions + 1 }
          [] name.lexeme
          (.function [] .void c.functions c.pool.length) outer) s' := by
  have htable := h.table
  rw [hscopes] at htable
  have hsize : s.table.symbols.size = outer.length := by simp [htable.size_eq]
  have hdeclared := (htable.declare_of_none .function .void true .global hx).2 (.function [] .void 0 c.pool.length)
    ⟨rfl, rfl, rfl, rfl, rfl, congrArg Int.ofNat h.nextGlobal⟩
  have hflatten (b : Binding) : ([(name.lexeme, b) :: outer] : Scopes).flatten = [] ++ (name.lexeme, b) :: outer := by simp
  have hnumbered : ((s.table.declared name.lexeme .function .void true .global).update outer.length fun symbol =>
      { symbol with assigned := true, place := s.functionCount }).Represents
        [(name.lexeme, .function [] .void c.functions c.pool.length) :: outer] := by
    refine hdeclared.update (f := fun symbol => { symbol with assigned := true, place := s.functionCount }) (fun _ => rfl)
      ?_ (hflatten _) (hflatten _) rfl (by simp)
    rintro symbol ⟨hkind, hparams, hreturns, -, hhome⟩
    exact ⟨hkind, hparams, hreturns, h.functions, hhome⟩
  obtain ⟨symbol, hsymbol, -, -, -, -, -, hslot⟩ := hnumbered.symbol_at (hflatten _)
  have hslot : symbol.slot.toNat = c.pool.length := by simp [hslot]
  refine ⟨{ s with
    table := (SymbolTable.update (s.table.declared name.lexeme .function .void true .global) outer.length fun symbol =>
      { symbol with assigned := true, place := s.functionCount }).beginFunction.enterScope
    functionCount := s.functionCount + 1
    pool := s.pool.push { const := true, value := some name.lexeme }
    body := s.body.emitAll [.start { slot := .ofNat c.pool.length }] }, ?_, rfl, ?_⟩
  · rw [openFunction, run_bind_of_ok (run_declare_ok htable hx .function .void true .global), hsize]
    refine (run_bind_of_ok (show _ = Except.ok (s.functionCount, _) from rfl)).trans ?_
    refine (run_bind_of_ok (show _ = Except.ok ((), _) from rfl)).trans ?_
    refine (run_bind_of_ok (run_symbolAt hsymbol)).trans ?_
    rw [hslot]
    refine (run_bind_of_ok (run_addGlobal ?_ _)).trans rfl
    exact h.pool_size.symm
  · refine ⟨⟨hnumbered.beginFunction.enterScope, ?_, rfl, ?_, ?_, ?_, ?_⟩, .of_source rfl, rfl, rfl, rfl⟩
    · simp [SymbolTable.declared, SymbolTable.allocSlot, SymbolTable.allocGlobal, SymbolTable.beginFunction,
        SymbolTable.enterScope, SymbolTable.update, Context.signed, h.nextGlobal]
    · simp [h.pool, PoolEntry.global, Context.signed]
    · simp [idxOf?_concat, h.literals, Context.signed]
    · simp [idxOf?_concat, h.natives, Context.signed]
    · simp [h.functions, Context.signed]

/-- The function is said to return this, and its parameters move up. -/
theorem run_noteReturns (h : s.Knows (c.signed scope f (.function types .void number slot) outer)) (returns : ValueType) :
    ∃ s', (noteReturns outer.length returns).run s = .ok ((), s') ∧
      After .body s [] [] (c.signed (scope.shift returns.slots) f (.function types returns number slot) outer) s' := by
  have hflatten (type : ValueType) : ([scope, (f, .function types type number slot) :: outer] : Scopes).flatten =
      scope ++ (f, .function types type number slot) :: outer := by simp
  have hreturns : SymbolTable.Represents (s.table.update outer.length fun symbol => { symbol with type := returns })
      [scope, (f, .function types returns number slot) :: outer] := by
    refine h.table.update (f := fun symbol => { symbol with type := returns }) (fun _ => rfl) ?_ (hflatten .void)
      (hflatten returns) rfl (by simp)
    rintro symbol ⟨hkind, hparams, -, hplace⟩
    exact ⟨hkind, hparams, rfl, hplace⟩
  by_cases hvoid : returns = .void
  · have hslots : scope.shift returns.slots = scope := by rw [hvoid]; exact scope.shift_zero
    rw [hslots]
    refine ⟨_, ?_, .of_table h hreturns rfl rfl .body⟩
    rw [noteReturns, run_bind_of_ok (show _ = Except.ok ((), _) from rfl), if_neg (not_not_intro hvoid)]
    rfl
  · refine ⟨_, ?_, .of_table h (hreturns.shiftParams returns.slots) rfl rfl .body⟩
    rw [noteReturns, run_bind_of_ok (show _ = Except.ok ((), _) from rfl), if_pos hvoid]
    rfl

omit [TokenSource σ] [Supply σ] in
/-- The frame of a function is known when its body is done. -/
theorem run_closeFunction (h : s.Knows c) (hscopes : c.scopes = [scope, (f, .function types returns number slot) :: outer])
    (marker : Nat) :
    ∃ s', (closeFunction outer.length marker returns).run s = .ok ((), s') ∧ s'.source = s.source ∧ s'.entry = s.entry ∧
      s'.loops = s.loops ∧ s'.Knows { c with scopes := [(f, .function types returns number slot) :: outer] } ∧
      s'.body = s.body.setHeader marker
        { slot := .ofNat slot, returns := .ofNat returns.slots, params := .ofNat types.length, locals := .ofNat c.locals } := by
  have htable := h.table
  rw [hscopes] at htable
  obtain ⟨symbol, hsymbol, -, hparams, -, -, -, hslot⟩ := htable.symbol_at
    (show _ = scope ++ (f, .function types returns number slot) :: outer by simp)
  obtain ⟨t, hexit, hrepresents, hglobal, hlocal⟩ := htable.exitScope (by simp)
  refine ⟨{ s with
    table := t.endFunction
    body := s.body.setHeader marker
      { slot := .ofNat slot, returns := .ofNat returns.slots, params := .ofNat types.length, locals := .ofNat c.locals } },
    ?_, rfl, rfl, rfl, ⟨hrepresents.endFunction, hglobal.trans h.nextGlobal, hlocal.trans h.nextLocal,
      h.pool, h.literals, h.natives, h.functions⟩, rfl⟩
  rw [closeFunction, run_bind_of_ok (run_symbolAt hsymbol), run_modify_bind, exitScope, bind_assoc, run_get_bind]
  simp only [hexit, hslot, hparams, h.nextLocal, Int.toNat_natCast]
  rfl

theorem endBody_follows (h : s.Knows c) (name : Token) (returns : ValueType) (flow : Flow) (c1 : Context) :
    Follows (fun _ => endBody name returns flow) s ((Translation.require (flow.returns = true ∨ returns = .void)).run c1)
      fun _ c' _ s' => c' = c1 ∧ After .body s [] (if flow.returns then [] else [{ op := .ret }]) c s' := by
  unfold Translation.require
  cases hreturns : flow.returns with
  | true =>
    rw [if_pos (.inl rfl)]
    exact .of_ok (show (endBody name returns flow).run s = .ok ((), s) by rw [endBody, hreturns]; rfl)
      ⟨rfl, .refl h .body⟩
  | false =>
    by_cases hvoid : returns = .void
    · rw [if_pos (.inr hvoid)]
      refine .of_ok (m := endBody name returns flow) (a := ()) ?_ ⟨rfl, .append h .body [{ op := .ret }]⟩
      simp [endBody, hreturns, hvoid]
    · rw [if_neg (by simp [hvoid])]
      refine .of_error (m := endBody name returns flow) (e := .diagnostic ⟨name.pos, .openEnd name.lexeme⟩) ?_
      simp only [endBody, hreturns, hvoid, Bool.not_false, if_true, ne_eq, not_false_eq_true]
      rfl

/-- Code with a marker in it, once the header is filled in. -/
theorem toList_setHeader {stream : Stream} {more : List Instruction} {old : Header}
    (h : stream.code.toList = code ++ .start old :: more)
    (new : Header) : (stream.setHeader code.length new).code.toList = code ++ .start new :: more := by
  have hmodify : ∀ code : List Instruction, ((code ++ Instruction.start old :: more).modify code.length fun i =>
      { i with header := some new }) = code ++ .start new :: more := fun code => by
    induction code with
    | nil => rfl
    | cons i code ih => simp [ih]
  rw [← hmodify code, ← h]
  simp [Stream.setHeader]

/-- The end of a function, whose head and body are in the stream. -/
theorem function_end_follows {s1 s2 : AnalysisState σ} {zs : List Terminal} {items : List Item} (hb : body.Grouped)
    (hhead : After .body s ys [.start { slot := .ofNat slot }] (c.signed scope f (.function types returns number slot) outer) s1)
    (hloops : s.loops = [])
    (hrun : (body.translate returns false).run (c.signed scope f (.function types returns number slot) outer) = some (items, c'))
    (hran : Ran s1 zs items c' s2) (name : Token) :
    Follows (fun _ => do endBody name returns body.flow; closeFunction outer.length s.body.size returns) s2
      (StateT.run (do
        modify fun c => { c with scopes := c.scopes.tail }
        Translation.require (body.flow.returns = true ∨ returns = .void)
        let locals := (← get).locals
        return .function {
          header := {
            slot := .ofNat slot, returns := .ofNat returns.slots, params := .ofNat types.length, locals := .ofNat locals }
          code := (bodyCode items body.flow).toArray }) c')
      fun output c'' _ s' => Defined s (ys ++ zs) [output] c'' s' := by
  obtain ⟨scope', outer', hscopes, houter⟩ := (body.growing_translate _ _ _ _ _ hrun).of_signed
  have htail : { c' with scopes := c'.scopes.tail } =
    { c' with scopes := [(f, .function types returns number slot) :: outer'] } := by
    rw [hscopes]
    rfl
  refine .translate (show _ = some ((), { c' with scopes := c'.scopes.tail }) from rfl) ?_
  refine .bind (endBody_follows hran.knows name returns body.flow _) ?_
  rintro _ _ _ s3 - ⟨rfl, hend⟩
  obtain ⟨s', hclose, hsource, hentry, hloops', hknows, hbody⟩ := run_closeFunction hend.knows hscopes s.body.size
  rw [← houter]
  refine .of_ok hclose ⟨htail ▸ hknows, ?_, ?_, ?_, ?_⟩
  · simpa using (hhead.takes.trans hran.takes).trans (hend.takes.trans (.of_source hsource))
  · rw [hentry, hend.entry]
    simp [append, Source.entryOf, hran.entry, hhead.entry]
  · have hfit := ItemLaw.fit.block body (body.emits_translate hb hrun (List.prefix_refl _))
    have hcode : s3.body.code.toList = s.body.code.toList ++ .start { slot := .ofNat slot } :: bodyCode items body.flow := by
      rw [hend.body, toList_append_body, hran.code, hhead.body, toList_append_body,
        hfit.emitted_eq]
      simp [bodyCode]
    rw [hbody, Stream.size_eq, toList_setHeader hcode]
    simp [Source.functionsOf, Function.stream]
  · rw [hloops', hend.loops, hran.loops, hhead.loops, hloops]
    rfl

theorem function_follows {name : Bytes} {params : List Param} {returns : TypeName} (hb : body.Grouped)
    (h : s.Faces c ((Definition.function name params returns body).yield ++ rest)) (hglobal : c.scopes.length = 1)
    (hloops : s.loops = []) (hdepth : 4 * s.ahead.length + 1 ≤ depth) :
    Follows (fun _ => function depth) s ((Definition.function name params returns body).translate.run c)
      fun output c' _ s' => Defined s (Definition.function name params returns body).yield [output] c' s' := by
  obtain ⟨outer, hscopes⟩ : ∃ outer, c.scopes = [outer] := List.length_eq_one_iff.1 hglobal
  rw [Definition.run_translate_function hscopes]
  simp only [Definition.yield, List.cons_append, List.append_assoc] at h
  refine .expect h rfl fun _ _ hs1 htake1 => .expect hs1 rfl fun token hname hs2 htake2 => ?_
  have hlexeme := Token.lexeme_of_name hname
  subst hlexeme
  cases hx : outer.lookup token.lexeme with
  | some old =>
    obtain ⟨e, he⟩ := run_openFunction_error token hs2.knows hscopes (by simp [hx])
    exact .step_error he
  | none =>
    obtain ⟨s3, hopen, hnext, hafter3⟩ := run_openFunction_ok token hs2.knows hscopes hx
    have hs3 := hafter3.faces (by simpa using hs2)
    have hlength : params.length ≤ depth := by
      have hyields := Param.length_le_length_yields params
      have hterminals := congrArg List.length h.terminals
      simp only [terminals, List.length_map, List.length_cons, List.length_append] at hterminals
      omega
    simp only [Option.isSome_none, Bool.false_eq_true, if_false]
    refine .step hopen ?_
    have hparameters := parameterList_follows params hs3 hnext hlength
    have hshift := Param.scope?_add returns.type.slots params 0 []
    rw [Nat.zero_add] at hshift
    cases hps : Param.scope? 0 [] params with
    | none =>
      rw [hps] at hparameters hshift
      obtain ⟨e, he⟩ := hparameters.run_error
      rw [show Param.scope? returns.type.slots [] params = none from hshift]
      exact .step_error he
    | some scope =>
      rw [hps] at hparameters hshift
      rw [show Param.scope? returns.type.slots [] params = some (scope.shift returns.type.slots) from hshift]
      obtain ⟨_, s4, hlist, hafter4⟩ := hparameters.run_ok
      refine .step hlist ?_
      have hs4 := hafter4.faces (by simpa using hs3)
      refine .expect hs4 rfl fun _ _ hs5 htake5 => .typeName hs5 fun _ hs6 htake6 => ?_
      obtain ⟨s7, hnote, hafter7⟩ := run_noteReturns hs6.knows returns.type
      refine .step hnote ?_
      have hhead := (htake1 .body).trans ((htake2 .body).trans (hafter3.trans
        (hafter4.trans ((htake5 .body).trans ((htake6 .body).trans hafter7)))))
      have hs7 := hafter7.faces (by simpa using hs6)
      refine .bind (block_follows (blockAgrees body hb) (by simpa using hs7)
        ⟨Nat.le_refl 2, by simp [hhead.loops, hloops], by simp [hhead.loops, hloops]⟩ ?_) ?_
      · have := hhead.takes.length_eq
        omega
      rintro items c8 flow s8 hrun ⟨rfl, hran⟩
      have hend := function_end_follows hb hhead hloops hrun hran token
      rw [List.length_map] at hend
      refine hend.imp fun output c' _ s' hdefined => ?_
      simpa [Definition.yield] using hdefined

/-! ## Programs -/

theorem global_follows {d : Declaration} (hd : d.Grouped) (h : s.Faces c (d.yield ++ rest)) (hglobal : c.scopes.length = 1)
    (hdepth : 4 * s.ahead.length + 2 ≤ depth) :
    Follows (fun _ => declaration depth) s ((Definition.global d).translate.run c)
      fun output c' _ s' => Defined s d.yield [output] c' s' := by
  have htranslate : (Definition.global d).translate =
      (do d.translate (.global (← addEntry (.variable d.isConst d.name))) : Translation _) >>= fun code =>
        pure (.entry code) := by
    rw [Definition.translate, bind_assoc]
  rw [htranslate, ← bind_pure (declaration depth)]
  refine .bind (declaration_global hd h hglobal hdepth) ?_
  exact fun code c' _ s' _ hafter => .of_ok rfl (.of_after hafter)

theorem definitions_follows (p : Source) (hp : p.Grouped) (h : s.Faces c p.yield) (hglobal : c.scopes.length = 1)
    (hloops : s.loops = []) (hdepth : 4 * s.ahead.length + 3 ≤ depth) :
    Follows (fun _ => definitions depth) s (p.outputs.run c) fun outputs c' _ s' => Defined s p.yield outputs c' s' := by
  obtain _ | depth := depth
  · omega
  induction p generalizing s c depth with
  | nil =>
    refine .peek h fun t hk => ?_
    rw [hk]
    exact .of_ok rfl ⟨h.knows.looked, .looked s, by simp [looked, Source.entryOf], by simp [looked, Source.functionsOf], rfl⟩
  | cons d ds ih =>
    obtain ⟨hd, hds⟩ := List.forall_mem_cons.1 hp
    rw [Source.yield, List.flatMap_cons] at h
    have hlooked : s.looked.ahead.length = s.ahead.length := by rw [ahead_looked]
    -- The definitions after the first one, which took at least a token.
    have hrest {output : Output} {c1 : Context} {s1 : AnalysisState σ} (hpos : 0 < d.yield.length)
        (hrun : d.translate.run c = some (output, c1)) (hdefined : Defined s.looked d.yield [output] c1 s1) :
        Follows (fun _ => definitions depth) s1 ((do return output :: (← Source.outputs ds)).run c1)
          fun outputs c' _ s' => Defined s (Source.yield (d :: ds)) outputs c' s' := by
      have hglobal1 : c1.scopes.length = 1 := (Definition.length_scopes_translate hrun).trans hglobal
      have htakes := hdefined.takes.length_eq
      have hs1 : s1.Faces c1 (Source.yield ds) := ⟨hdefined.knows, hdefined.takes.readable h.looked.readable,
        List.append_cancel_left (hdefined.takes.terminals.symm.trans h.looked.terminals)⟩
      obtain _ | depth := depth
      · omega
      refine .map (ih hds hs1 hglobal1 (hdefined.loops.trans hloops) depth (by omega)) ?_
      intro outputs c' _ s' hdefined'
      have hboth := hdefined.trans hdefined'
      exact ⟨hboth.knows, (Takes.looked s).trans hboth.takes, hboth.entry, hboth.body, hboth.loops⟩
    rw [Source.outputs]
    refine .peek h fun t hk => ?_
    cases d with
    | function name params returns body =>
      rw [hk]
      refine .bind (function_follows hd h.looked hglobal hloops (by omega)) fun output c1 _ s1 hrun h1 => ?_
      exact hrest (by simp [Definition.yield]) hrun h1
    | global d =>
      have hglobals := global_follows hd h.looked hglobal (show _ ≤ depth by omega)
      cases hconst : d.isConst with
      | true =>
        have hk : t.kind = .const := by simpa [Definition.yield, Declaration.yield, frontKind, Terminal.kind, hconst] using hk
        rw [hk]
        exact .bind hglobals fun output c1 _ s1 hrun h1 => hrest (by simp [Definition.yield, Declaration.yield]) hrun h1
      | false =>
        have hk : t.kind = .let := by simpa [Definition.yield, Declaration.yield, frontKind, Terminal.kind, hconst] using hk
        rw [hk]
        exact .bind hglobals fun output c1 _ s1 hrun h1 => hrest (by simp [Definition.yield, Declaration.yield]) hrun h1

theorem closeEntry_follows (h : s.Knows c) (pos : Pos) :
    Follows (fun _ => closeEntry pos) s (Source.mainCall.run c) fun code c' _ s' => After .entry s [] code c' s' := by
  rw [Source.mainCall, StateT.run_bind, run_find?, Option.bind_eq_bind, Option.bind_some]
  cases hx : c.scopes.find? mainName with
  | none =>
    refine .step_error (e := .diagnostic ⟨pos, .noMain⟩) ?_
    rw [mainFunction, run_get_bind, h.table.resolve_of_none hx]
    rfl
  | some binding =>
    obtain ⟨place, symbol, hplace, hsymbol, hshow, -⟩ := h.table.resolve_of_some hx
    have hmain : (mainFunction pos).run s = StateT.run (do
        if symbol.kind ≠ .function then fail pos .noMain
        if symbol.params ≠ [] then fail pos .mainParameters
        return symbol) s := by
      rw [mainFunction, run_get_bind, hplace]
      exact run_bind_of_ok (run_symbolAt hsymbol)
    cases binding with
    | «variable» =>
      obtain ⟨hkind, -⟩ := hshow
      refine .step_error (e := .diagnostic ⟨pos, .noMain⟩) (hmain.trans ?_)
      rw [if_pos hkind]
      rfl
    | function params returns number slot =>
      obtain ⟨hkind, rfl, rfl, rfl, -⟩ := hshow
      rw [if_neg (not_not_intro hkind)] at hmain
      cases hparams : symbol.params with
      | cons p ps =>
        refine .step_error (e := .diagnostic ⟨pos, .mainParameters⟩) (hmain.trans ?_)
        rw [if_pos (by simp [hparams])]
        rfl
      | nil =>
        rw [if_neg (by simp [hparams])] at hmain
        refine .step hmain (.step (run_emit .entry _ s) (.step (run_emit .entry _ _) ?_))
        rw [append_append]
        by_cases hvoid : symbol.type = .void
        · refine .ite_neg (not_not_intro hvoid) (.of_ok rfl ?_)
          simpa [hvoid] using .append h .entry _
        · refine .ite_pos hvoid (.of_ok (run_emit .entry _ _) ?_)
          rw [append_append]
          simpa [hvoid] using .append h .entry _

end Analysis

/-! ## Cutting the stream -/

theorem appendToLast_push (table : Array Function) (f : Function) (i : Instruction) :
    appendToLast (table.push f) i = table.push { f with code := f.code.push i } := by
  refine Array.toList_inj.1 ?_
  simp [appendToLast, ← Array.length_toList, modify_length_append]

theorem splitFrom_append {f : Function} (h : Unmarked code) (place : Nat) (table : Array Function) (rest : List Instruction) :
    splitFrom place (table.push f) (code ++ rest) =
      splitFrom (place + code.length) (table.push { f with code := f.code ++ code.toArray }) rest := by
  induction code generalizing place f with
  | nil => simp
  | cons i code ih =>
    obtain ⟨hi, hcode⟩ := Unmarked.cons.1 h
    rw [List.cons_append, splitFrom, if_neg hi, if_neg (by simp), appendToLast_push, ih hcode]
    simp [Nat.add_assoc, Nat.add_comm 1]

/-- Cutting the stream of functions gives them back. -/
theorem splitFrom_streams (fs : List Function) (h : ∀ f ∈ fs, Unmarked f.code.toList) (place : Nat) (table : Array Function) :
    splitFrom place table (fs.flatMap Function.stream) = .ok (table ++ fs.toArray) := by
  induction fs generalizing place table with
  | nil => simp [splitFrom]
  | cons f fs ih =>
    obtain ⟨hf, hfs⟩ := List.forall_mem_cons.1 h
    rw [List.flatMap_cons, Function.stream, List.cons_append, splitFrom]
    simp only [Instruction.start, if_true]
    rw [splitFrom_append hf, ih hfs]
    simp

theorem Definition.Emits.unmarked {P : List PoolEntry} {N : Scope} {d : Definition} {f : Function} {entry : Bytes × Binding}
    (h : d.Emits P N number (.function f) entry) : Unmarked f.code.toList := by
  cases h with
  | @function _ _ _ body _ _ _ _ hbody _ =>
    have hcode := (ItemLaw.fit.block body hbody).unmarked_close 0 0
    cases h : body.flow.returns <;> simp [bodyCode, h, hcode]

theorem Source.unmarked_mainCall {call : List Instruction} (h : mainCall.run c = some (call, c')) : Unmarked call := by
  obtain ⟨binding, c1, -, h⟩ := Translation.run_bind_some_iff.1 h
  split at h
  · cases h
    split <;> simp
  · cases h

theorem Source.Emits.unmarked_table {P : List PoolEntry} {N N' : Scope} {p : Source} {outputs : List Output}
    {call : List Instruction}
    (h : p.Emits P N number outputs N') (hcall : Unmarked call) : ∀ f ∈ table outputs call, Unmarked f.code.toList := by
  refine List.forall_mem_cons.2 ⟨?_, fun f hf => ?_⟩
  · simpa using ⟨h.law_entryOf (.unmarked P), hcall⟩
  · obtain ⟨j, hj⟩ := List.mem_iff_getElem?.1 hf
    obtain ⟨_, _, _, _, _, _, -, -, -, hd, -⟩ := h.exists_definition hj
    exact hd.unmarked

/-! ## Analysing a program -/

namespace Analysis

open AnalysisState Translation

variable {σ : Type}

/-- The state in which the definitions of a program are analysed. -/
theorem run_openEntry (source : σ) : ∃ s : AnalysisState σ, openEntry.run { source } = .ok ((), s) ∧ s.Knows Source.start ∧
    s.source = source ∧ s.entry.code.toList = [.start {}] ∧ s.body.code.toList = [] ∧ s.loops = [] := by
  refine ⟨_, rfl, ⟨⟨⟨.nil, fun x => ?_⟩, .nil, rfl, by simp [Source.start]⟩, rfl, rfl, rfl, fun x => ?_, fun x => ?_, rfl⟩,
    rfl, rfl, rfl, rfl⟩
  · exact Std.TreeMap.getElem?_emptyc
  · exact Std.TreeMap.getElem?_emptyc
  · exact Std.TreeMap.getElem?_emptyc

variable [TokenSource σ] [Supply σ]

/-- The definitions of a program and the end of its entry routine. -/
theorem body_follows {p : Source} (hp : p.Grouped) {s : AnalysisState σ} (h : s.Faces Source.start p.yield)
    (hentry : s.entry.code.toList = [.start {}]) (hbody : s.body.code.toList = []) (hloops : s.loops = [])
    (hdepth : 4 * s.ahead.length + 3 ≤ depth) :
    Follows (fun _ => do closeEntry (← definitions depth).pos) s
      ((do return (← p.outputs, ← Source.mainCall) : Translation _).run Source.start)
      fun r c' _ s' => s'.Knows c' ∧
        splitFunctions (s'.entry.code.toList ++ s'.body.code.toList) = .ok (Source.table r.1 r.2).toArray := by
  refine .bind (definitions_follows p hp h rfl hloops hdepth) fun outputs c1 stop s1 hrun hdefined => ?_
  rw [← bind_pure (closeEntry stop.pos)]
  refine .bind (closeEntry_follows hdefined.knows stop.pos) fun call c2 _ s2 hcall hafter => .of_ok rfl ?_
  refine ⟨hafter.knows, ?_⟩
  have hcode : s2.entry.code.toList ++ s2.body.code.toList = (Source.table outputs call).flatMap Function.stream := by
    have hcall : s2.entry.code.toList = s1.entry.code.toList ++ call := by
      rw [hafter.entry]
      exact Stream.toList_emitAll s1.entry call
    have hsame : s2.body = s1.body := hafter.body
    rw [hcall, hsame, hdefined.entry, hdefined.body, hentry, hbody]
    simp [Source.table, Function.stream]
  rw [hcode, splitFunctions, splitFrom_streams _ ((p.emits_outputs hp hrun (List.prefix_refl _) rfl).unmarked_table
    (Source.unmarked_mainCall hcall))]
  simp

/-- Where the tokens of a source can be read and are those of a grouped program, the analysis ends in a state that knows what the
translation comes to. -/
theorem program_follows {source : σ} {p : Source} (hp : p.Grouped) (hy : (Supply.ahead source).map Token.terminal = p.yield)
    (hstop : ∃ t, Supply.stop source = .ok t) :
    Follows (fun _ => program (depthBound (TokenSource.remaining source))) { source }
      ((do return (← p.outputs, ← Source.mainCall) : Translation _).run Source.start)
      fun r c' q s' => s'.Knows c' ∧
        q = { globals := (c'.pool.map PoolEntry.global).toArray, functions := (Source.table r.1 r.2).toArray } := by
  obtain ⟨s, hopen, hknows, hsource, hentry, hbody, hloops⟩ := run_openEntry source
  have hfaces : s.Faces Source.start p.yield := by
    refine ⟨hknows, ?_, ?_⟩
    · rwa [AnalysisState.Readable, hsource]
    · rw [← hy, AnalysisState.terminals, AnalysisState.ahead, hsource]
  have hdepth : 4 * s.ahead.length + 3 ≤ depthBound (TokenSource.remaining source) := by
    have := Supply.length_ahead source
    rw [AnalysisState.ahead, hsource, depthBound]
    omega
  have hrun : (program (depthBound (TokenSource.remaining source))).run { source } =
      ((do closeEntry (← definitions (depthBound (TokenSource.remaining source))).pos) >>= fun _ =>
        assemble : Analysis σ Program).run s := by
    rw [bind_assoc]
    exact run_bind_of_ok hopen
  refine .of_run_eq hrun (.and_then (body_follows hp hfaces hentry hbody hloops hdepth) ?_)
  rintro r c' _ s' ⟨hknows, hsplit⟩
  refine ⟨_, s', ?_, hknows, rfl⟩
  rw [assemble, run_get_bind, hsplit, ← hknows.pool, Array.toArray_toList]
  rfl

end Analysis

/-- Where the tokens of a source can be read and are those of a grouped program, analysing it is translating the program. -/
theorem analyze_toOption {σ : Type} [TokenSource σ] [Supply σ] {source : σ} {p : Source} (hp : p.Grouped)
    (hy : (Supply.ahead source).map Token.terminal = p.yield) (hstop : ∃ t, Supply.stop source = .ok t) :
    (analyze source).toOption = p.translate := by
  have hfollows := Analysis.program_follows hp hy hstop
  rw [analyze, StateT.run'_eq, Source.translate]
  cases hr : ((do return (← p.outputs, ← Source.mainCall) : Translation _).run Source.start) with
  | none =>
    rw [hr] at hfollows
    obtain ⟨e, he⟩ := hfollows.run_error
    rw [he]
    rfl
  | some r =>
    rw [hr] at hfollows
    obtain ⟨_, s', hs', -, rfl⟩ := hfollows.run_ok
    rw [hs']
    rfl

end OnePass

import OnePass.Proofs.Parsing.Program
import OnePass.Proofs.SideBySide.Expression

/-!
# Two analyses of whole programs

The statements and the definitions of a program, and so whole analyses, run side by side as expressions do. Over two sources in
step an analysis of the second one comes to the program of the first, with the new names in its pool, or fails as the first one
does (`Pace.analyze`).
-/

namespace OnePass

namespace Analysis.Mirrors

variable {σ τ : Type} [TokenSource σ] [TokenSource τ] {ρ : Relabelling} {π : Pace σ τ ρ} {a b : Token}

/-! ## Statements without parts -/

/-- Both declare at the same depth, so in the same section. -/
theorem declarationPlace : Mirrors π declarationPlace declarationPlace Eq := by
  refine get_bind fun s t hst => ?_
  rw [hst.table.depth]
  exact ite (pure rfl) (pure rfl)

/-- The two variables have the same place. -/
theorem declareVariable (const : Bool) (hab : ρ.Named a b) (type : ValueType) :
    Mirrors π (declareVariable const a type) (declareVariable const b type) Eq := by
  refine declarationPlace.bind_eq fun place => (declare hab .variable type const place.2).bind_eq fun number => ?_
  refine ite ((symbolAt number).bind ?_) (pure rfl)
  rintro symbol _ rfl
  rw [hab.lexeme]
  exact (addGlobal _ { const, name := a.lexeme }).bind_eq fun _ => pure rfl

/-- Both have an initial value, or neither has one. -/
theorem takesValue (const : Bool) : Mirrors π (takesValue const) (takesValue const) Eq :=
  ite (expect_bind .assign fun _ _ _ => pure rfl) (accept .assign)

/-- The values of two variables have the same code. -/
theorem initialValue (out : Section) (hab : ρ.Named a b) (place : Nat) (type : ValueType) (d e : Nat) :
    Mirrors π (initialValue out a place type d) (initialValue out b place type e) Eq := by
  refine (symbolAt place).bind ?_
  rintro symbol _ rfl
  refine (emitAddress out symbol).bind_eq fun _ => peek.bind fun first first' hfirst =>
    (expression out d e).bind_eq fun value => ?_
  refine ite (fail hfirst.pos (by rw [hab.lexeme]; rfl)) ?_
  exact (emit out _).bind_eq fun _ => markAssigned place

/-- A declaration and its relabelled one. -/
theorem declaration (d e : Nat) : Mirrors π (declaration d) (declaration e) Eq := by
  refine next.bind fun first first' hfirst => name.bind fun x x' hx => expect_bind .colon fun _ _ _ => ?_
  rw [hfirst.kind]
  refine typeName.bind ?_
  rintro ⟨typeToken, _⟩ ⟨typeToken', type⟩ ⟨hpos, rfl⟩
  refine ite (fail hpos (by rw [hx.lexeme]; rfl)) ?_
  refine (declareVariable _ hx type).bind_eq fun place => (takesValue _).bind_eq fun _ => ?_
  refine ite ((initialValue _ hx _ type d e).bind_eq fun _ => ?_) ?_
  · exact expect_bind .semicolon fun _ _ _ => done
  · exact expect_bind .semicolon fun _ _ _ => done

/-- Conditions leave the same branch open. -/
theorem condition (d e : Nat) : Mirrors π (condition d) (condition e) Eq := by
  refine peek.bind fun first first' hfirst => (expression .body d e).bind_eq fun type => ?_
  exact ite (fail hfirst.pos rfl) ((emit .body _).bind_eq fun _ => emitOpenBranch)

/-- Both are in the same loop, or the faults are alike. -/
theorem innermostLoop {p q : Pos} (hpos : q = ρ.pos p) {fault : Fault} (hfault : ρ.fault fault = fault) :
    Mirrors π (innermostLoop p fault) (innermostLoop q fault) Eq := by
  refine get_bind fun s t hst => ?_
  rw [hst.loops]
  split
  · exact pure rfl
  · exact fail hpos hfault.symm

theorem noteBreak (handle : Nat) : Mirrors π (noteBreak handle) (noteBreak handle) Eq := by
  refine modify fun s t hst => ?_
  rw [hst.loops]
  split
  · exact { hst with loops := rfl }
  · exact hst

/-- Breaks note the same handle. -/
theorem breakStatement : Mirrors π breakStatement breakStatement Eq := by
  refine expect_bind .break fun _ _ hpos => (innermostLoop hpos rfl).bind_eq fun _ => emitOpenBranch.bind_eq fun handle => ?_
  exact (noteBreak handle).bind_eq fun _ => expect_bind .semicolon fun _ _ _ => pure rfl

theorem continueStatement : Mirrors π continueStatement continueStatement Eq := by
  refine expect_bind .continue fun _ _ hpos => (innermostLoop hpos rfl).bind_eq fun loop => ?_
  exact (emitBranchTo loop.first).bind_eq fun _ => expect_bind .semicolon fun _ _ _ => pure rfl

/-- Both return a value, or neither does. -/
theorem returnStatement (returns : ValueType) (d e : Nat) :
    Mirrors π (returnStatement returns d) (returnStatement returns e) Eq := by
  refine expect_bind .return fun token token' hpos => peek.bind fun first first' hfirst => ?_
  have hstop : Mirrors π (do Analysis.emit .body { op := .ret }; let _ ← Analysis.expect .semicolon; return { returns := true })
      (do Analysis.emit .body { op := .ret }; let _ ← Analysis.expect .semicolon; return { returns := true }) (Eq (α := Flow)) :=
    (emit .body _).bind_eq fun _ => expect_bind .semicolon fun _ _ _ => pure rfl
  rw [hfirst.kind]
  refine ite (ite (fail hfirst.pos rfl) hstop) (ite (fail hpos rfl) ?_)
  refine (emit .body _).bind_eq fun _ => (expression .body d e).bind_eq fun type => ?_
  exact ite (fail hfirst.pos rfl) ((emit .body _).bind_eq fun _ => hstop)

theorem expressionStatement (d e : Nat) : Mirrors π (expressionStatement d) (expressionStatement e) Eq := by
  refine (expression .body d e).bind_eq fun type => ite ((emit .body _).bind_eq fun _ => ?_) ?_
  · exact expect_bind .semicolon fun _ _ _ => done
  · exact expect_bind .semicolon fun _ _ _ => done

/-! ## Blocks and loops -/

/-- Code is dropped from the same place. -/
theorem dropFrom (handle : Nat) : Mirrors π (dropFrom handle) (dropFrom handle) Eq :=
  modify fun _ _ hst => { hst with body := by rw [hst.body], loops := by rw [hst.loops] }

theorem openLoop (first : Nat) : Mirrors π (openLoop first) (openLoop first) Eq :=
  modify fun _ _ hst => { hst with loops := by rw [hst.loops] }

/-- The loops closed have the same branches. -/
theorem closeLoop : Mirrors π closeLoop closeLoop Eq := by
  refine modifyGet fun s t hst => ?_
  rw [hst.loops]
  split
  · exact ⟨rfl, { hst with loops := rfl }⟩
  · exact ⟨rfl, hst⟩

/-- The same branches are patched. -/
theorem patches (handles : List Nat) : Mirrors π (handles.forM Analysis.patch) (handles.forM Analysis.patch) Eq := by
  induction handles with
  | nil => exact done
  | cons handle handles ih => exact (patch handle).bind_eq fun _ => ih

/-- Loops end alike. -/
theorem endLoop (first exit : Nat) (body : Flow) : Mirrors π (endLoop first exit body) (endLoop first exit body) Eq := by
  refine closeLoop.bind_eq fun breaks => ite ((emitBranchTo first).bind_eq fun _ => ?_) ?_
  · exact (patch exit).bind_eq fun _ => patches breaks
  · exact (patch exit).bind_eq fun _ => patches breaks

theorem enterScope : Mirrors π enterScope enterScope Eq := modify fun _ _ hst => { hst with table := hst.table.enterScope }

/-- Closing a scope takes the same symbols off both tables. -/
theorem exitScope : Mirrors π exitScope exitScope Eq := by
  refine get_bind fun s t hst => ?_
  rcases hst.table.exitScope with ⟨t', u', ht, hu, htables⟩ | ⟨ht, hu⟩
  · rw [ht, hu]
    exact modify fun s t hst => { hst with table := htables }
  · rw [ht, hu]
    exact breach _

theorem openBlock (inner : Bool) : Mirrors π (openBlock inner) (openBlock inner) Eq := ite enterScope done

/-- Blocks are closed alike. -/
theorem closeBlock (inner : Bool) (dead : Option Nat) : Mirrors π (closeBlock inner dead) (closeBlock inner dead) Eq := by
  have hexit : Mirrors π (if inner = true then Analysis.exitScope else Pure.pure ())
    (if inner = true then Analysis.exitScope else Pure.pure ())
      Eq := ite exitScope done
  cases dead with
  | none => exact done.bind_eq fun _ => hexit
  | some handle => exact (dropFrom handle).bind_eq fun _ => hexit

/-! ## Statements with parts -/

/-- The parts of a statement, whose depths may differ. -/
structure Statements (π : Pace σ τ ρ) (returns : ValueType) (d e : Nat) : Prop where
  statement : Mirrors π (statement returns d) (statement returns e) Eq
  block : ∀ inner, Mirrors π (block returns inner d) (block returns inner e) Eq
  statements : ∀ flow dead, Mirrors π (statements returns d flow dead) (statements returns e flow dead) Eq
  ifArms : ∀ arms, Mirrors π (ifArms returns d arms) (ifArms returns e arms) Eq
  whileStatement : Mirrors π (whileStatement returns d) (whileStatement returns e) Eq

/-- One more level of depth on both sides. -/
theorem Statements.succ {returns : ValueType} {d e : Nat} (ih : Statements π returns d e) :
    Statements π returns (d + 1) (e + 1) where
  statement := by
    refine peek.bind fun token token' htoken => ?_
    rw [htoken.kind]
    cases token.kind
    case «let» => exact (declaration d e).bind_eq fun _ => pure rfl
    case const => exact (declaration d e).bind_eq fun _ => pure rfl
    case «if» =>
      refine expect_bind .if fun _ _ _ => (ih.ifArms {}).bind_eq fun arms => (patches arms.ends).bind_eq fun _ => ?_
      exact pure rfl
    case «while» => exact ih.whileStatement
    case «break» => exact breakStatement
    case «continue» => exact continueStatement
    case «return» => exact returnStatement returns d e
    case lbrace => exact ih.block true
    case semicolon => exact next.bind fun _ _ _ => pure rfl
    all_goals exact (expressionStatement d e).bind_eq fun _ => pure rfl
  block inner := by
    refine expect_bind .lbrace fun _ _ _ => (openBlock inner).bind_eq fun _ => (ih.statements {} none).bind_eq fun r => ?_
    exact next.bind fun _ _ _ => (closeBlock inner r.2).bind_eq fun _ => pure rfl
  statements flow dead := by
    refine peek.bind fun token token' htoken => ?_
    rw [htoken.kind]
    split
    · exact pure rfl
    · exact fail htoken.pos rfl
    · refine ih.statement.bind_eq fun f => ite (here.bind_eq fun handle => ?_) (ih.statements flow dead)
      exact ih.statements f (some handle)
  ifArms arms := by
    refine (condition d e).bind_eq fun skip => (ih.block true).bind_eq fun f => emitOpenBranch.bind_eq fun handle => ?_
    refine (patch skip).bind_eq fun _ => (accept .else).bind_eq fun _ => ite ?_ (pure rfl)
    refine (accept .if).bind_eq fun _ => ite (ih.ifArms _) ((ih.block true).bind_eq fun _ => pure rfl)
  whileStatement := by
    refine expect_bind .while fun _ _ _ => here.bind_eq fun first => (condition d e).bind_eq fun exit => ?_
    refine (openLoop first).bind_eq fun _ => (ih.block true).bind_eq fun f => (endLoop first exit f).bind_eq fun _ => ?_
    exact pure rfl

/-- At all depths, as long as they are enough. -/
theorem statements (π : Pace σ τ ρ) (returns : ValueType) (d e : Nat) : Statements π returns d e := by
  induction d generalizing e with
  | zero => exact ⟨tooDeep _, fun _ => tooDeep _, fun _ _ => tooDeep _, fun _ => tooDeep _, tooDeep _⟩
  | succ d ih =>
    cases e with
    | zero => exact ⟨otherTooDeep _, fun _ => otherTooDeep _, fun _ _ => otherTooDeep _, fun _ => otherTooDeep _, otherTooDeep _⟩
    | succ e => exact (ih e).succ

/-! ## Definitions -/

/-- The parameters of two functions are declared in the same places. -/
theorem parameter (place : Nat) : Mirrors π (parameter place) (parameter place) Eq := by
  refine (accept .const).bind_eq fun const => name.bind fun x x' hx => expect_bind .colon fun _ _ _ => typeName.bind ?_
  rintro ⟨typeToken, _⟩ ⟨typeToken', type⟩ ⟨hpos, rfl⟩
  refine ite (fail hpos (by rw [hx.lexeme]; rfl)) ?_
  refine (declare hx .parameter type const .parameter).bind_eq fun number => (markAssigned number).bind_eq fun _ => ?_
  exact updateSymbol place (fun _ => rfl) fun _ => rfl

theorem parameters (place d e : Nat) : Mirrors π (parameters place d) (parameters place e) Eq := by
  induction d generalizing e with
  | zero => exact tooDeep _
  | succ d ih =>
    cases e with
    | zero => exact otherTooDeep _
    | succ e => exact (parameter place).bind_eq fun _ => (accept .comma).bind_eq fun _ => ite (ih e) done

/-- Both lists are empty, or neither is. -/
theorem parameterList (place d e : Nat) : Mirrors π (parameterList place d) (parameterList place e) Eq := by
  refine expect_bind .lparen fun _ _ _ => (accept .rparen).bind_eq fun _ => ite done ?_
  exact (parameters place d e).bind_eq fun _ => expect_bind .rparen fun _ _ _ => done

/-- The two functions have the same place and the same marker. -/
theorem openFunction (hab : ρ.Named a b) : Mirrors π (openFunction a) (openFunction b) Eq := by
  refine (declare hab .function .void true .global).bind_eq fun place => ?_
  refine bind_eq (modifyGet fun s t hst => ⟨hst.functionCount.symm, { hst with functionCount := by rw [hst.functionCount] }⟩)
    fun number => ?_
  refine bind_eq (updateSymbol place (fun _ => rfl) fun _ => rfl) fun _ => (symbolAt place).bind ?_
  rintro symbol _ rfl
  rw [hab.lexeme]
  refine (addGlobal _ { const := true, value := some a.lexeme }).bind_eq fun _ => here.bind_eq fun marker =>
    (emit .body _).bind_eq fun _ => ?_
  exact modify_bind (fun s t hst => { hst with table := hst.table.beginFunction.enterScope }) (pure rfl)

theorem noteReturns (place : Nat) (returns : ValueType) :
    Mirrors π (noteReturns place returns) (noteReturns place returns) Eq := by
  refine bind_eq (updateSymbol place (fun _ => rfl) fun _ => rfl) fun _ => ite ?_ done
  exact modify fun s t hst => { hst with table := hst.table.shiftParams _ }

theorem endBody (hab : ρ.Named a b) (returns : ValueType) (flow : Flow) :
    Mirrors π (endBody a returns flow) (endBody b returns flow) Eq :=
  ite (ite (fail hab.pos (by rw [hab.lexeme]; rfl)) (emit .body _)) done

/-- The two functions get the same header. -/
theorem closeFunction (place marker : Nat) (returns : ValueType) :
    Mirrors π (closeFunction place marker returns) (closeFunction place marker returns) Eq := by
  refine (symbolAt place).bind ?_
  rintro symbol _ rfl
  refine modify_bind (fun s t hst => { hst with body := ?_ }) (exitScope.bind_eq fun _ => ?_)
  · rw [hst.body, hst.table.nextLocal]
    rfl
  · exact modify fun s t hst => { hst with table := hst.table.endFunction }

/-- A function and its relabelled one. -/
theorem function (d e : Nat) : Mirrors π (function d) (function e) Eq := by
  refine expect_bind .fn fun _ _ _ => name.bind fun x x' hx => (openFunction hx).bind_eq fun r => ?_
  refine (parameterList r.1 d e).bind_eq fun _ => expect_bind .arrow fun _ _ _ => typeName.bind ?_
  rintro ⟨typeToken, _⟩ ⟨typeToken', returns⟩ ⟨-, rfl⟩
  refine (noteReturns r.1 returns).bind_eq fun _ => ((statements π returns d e).block false).bind_eq fun flow => ?_
  exact (endBody hx returns flow).bind_eq fun _ => closeFunction r.1 r.2 returns

/-- The definitions end at matching tokens. -/
theorem definitions (d e : Nat) : Mirrors π (definitions d) (definitions e) fun a b => b.pos = ρ.pos a.pos := by
  induction d generalizing e with
  | zero => exact tooDeep _
  | succ d ih =>
    cases e with
    | zero => exact otherTooDeep _
    | succ e =>
      refine peek.bind fun token token' htoken => ?_
      have hlexeme := htoken.lexeme
      rw [htoken.kind] at hlexeme ⊢
      split
      · exact (function d e).bind_eq fun _ => ih e
      · exact (declaration d e).bind_eq fun _ => ih e
      · exact (declaration d e).bind_eq fun _ => ih e
      · exact pure htoken.pos
      · exact fail htoken.pos (by rw [hlexeme]; rfl)

/-! ## Programs -/

/-- The main functions match, as the name is left alone. -/
theorem mainFunction {p q : Pos} (hpos : q = ρ.pos p) :
    Mirrors π (mainFunction p) (mainFunction q) fun a b => b = ρ.symbol a := by
  refine get_bind fun s t hst => ?_
  have hresolve := hst.table.resolve ρ.occurs_main
  rw [ρ.name_main] at hresolve
  rcases hresolve with ⟨place, hs, ht⟩ | ⟨hs, ht⟩
  · rw [hs, ht]
    refine (symbolAt place).bind ?_
    rintro symbol _ rfl
    exact ite (fail hpos rfl) (ite (fail hpos rfl) (pure rfl))
  · rw [hs, ht]
    exact fail hpos rfl

/-- The entry routines call the same number. -/
theorem closeEntry {p q : Pos} (hpos : q = ρ.pos p) : Mirrors π (closeEntry p) (closeEntry q) Eq := by
  refine (mainFunction hpos).bind ?_
  rintro main _ rfl
  exact (emit .entry _).bind_eq fun _ => (emit .entry _).bind_eq fun _ => ite (emit .entry _) done

/-- The functions cut out are the same. -/
theorem assemble : Mirrors π assemble assemble fun p q => q.functions = p.functions := by
  refine get_bind fun s t hst => ?_
  rw [hst.entry, hst.body]
  split
  · exact pure rfl
  · exact breach _

end Analysis.Mirrors

/-- The pool of a program is that of the state in which its analysis ends. -/
theorem Analysis.globals_of_run_program {σ : Type} [TokenSource σ] {d : Nat} {s s' : AnalysisState σ} {p : Program}
    (h : (program d).run s = .ok (p, s')) : p.globals = s'.pool := by
  obtain ⟨_, _, -, h⟩ := run_bind_ok_iff.1 h
  obtain ⟨_, _, -, h⟩ := run_bind_ok_iff.1 h
  obtain ⟨_, _, -, h⟩ := run_bind_ok_iff.1 h
  rw [assemble, run_get_bind] at h
  split at h
  · cases h
    rfl
  · cases h

open Analysis in
/-- Over two sources in step the analyses of two programs run side by side, from where the entry routine has been opened. -/
theorem Pace.run_program {σ τ : Type} [TokenSource σ] [TokenSource τ] {ρ : Relabelling} (π : Pace σ τ ρ) {s : σ} {t : τ}
    (h : π.Level s t) (d e : Nat) :
    π.Together (fun p q => q.functions = p.functions) ((program d).run { source := s }) ((program e).run { source := t }) := by
  obtain ⟨s0, t0, hs, ht, hstart⟩ : ∃ s0 t0, openEntry.run { source := s } = .ok ((), s0) ∧
      openEntry.run { source := t } = .ok ((), t0) ∧ π.Matches s0 t0 := by
    refine ⟨_, _, rfl, rfl, ⟨h, Relabelling.Tables.empty.allocGlobal.2, Relabelling.Pools.empty.push_text _
      fun n => ?_, rfl, rfl, rfl, rfl, rfl, rfl⟩⟩
    simp [AnalysisState.IsText]
  rw [program, run_bind_of_ok hs, program, run_bind_of_ok ht]
  exact ((Mirrors.definitions d e).bind fun _ _ hpos => (Mirrors.closeEntry hpos).bind_eq fun _ => Mirrors.assemble) s0 t0 hstart

/-! ## Analyses -/

namespace Relabelling

variable (ρ : Relabelling)

/-- Two outcomes of an analysis that are the same but for the new names and positions. -/
inductive Outcomes : Except Failure Program → Except Failure Program → Prop where
  | ok {p q : Program} (globals : ∃ IsText, ρ.Pools IsText p.globals q.globals) (functions : q.functions = p.functions) :
    Outcomes (.ok p) (.ok q)
  | failed (e : Failure) : Outcomes (.error e) (.error (ρ.failure e))

end Relabelling

/-- Over two sources in step, with depth enough for both, either the first one stops, or the two analyses have the same outcome
but for names and positions. -/
theorem Pace.run'_program {σ τ : Type} [TokenSource σ] [TokenSource τ] [Supply σ] [Supply τ] {ρ : Relabelling}
    (π : Pace σ τ ρ) {s : σ}
    {t : τ} (h : π.Level s t) {d e : Nat} (hd : depthBound (TokenSource.remaining s) ≤ d)
    (he : depthBound (TokenSource.remaining t) ≤ e) :
    (∃ x, π.Stops x ∧ (Analysis.program d).run' { source := s } = .error (.diagnostic x)) ∨
      ρ.Outcomes ((Analysis.program d).run' { source := s }) ((Analysis.program e).run' { source := t }) := by
  have hprogram := π.run_program h d e
  have hs := Analysis.run'_program_ne_tooDeep hd
  have ht := Analysis.run'_program_ne_tooDeep he
  rw [StateT.run'_eq] at hs ht ⊢
  rw [StateT.run'_eq]
  generalize hr : (Analysis.program d).run { source := s } = r at hprogram hs ⊢
  generalize hr' : (Analysis.program e).run { source := t } = r' at hprogram ht ⊢
  cases hprogram with
  | ok functions state =>
    have hpools := state.pool
    rw [← Analysis.globals_of_run_program hr, ← Analysis.globals_of_run_program hr'] at hpools
    exact .inr (.ok ⟨_, hpools⟩ functions)
  | failed e => exact .inr (.failed e)
  | stopped hd => exact .inl ⟨_, hd, rfl⟩
  | tooDeep => exact absurd rfl hs
  | otherTooDeep => exact absurd rfl ht

/-- Analyses over sources in step come to programs that match, or fail alike. -/
theorem Pace.analyze {σ τ : Type} [TokenSource σ] [TokenSource τ] [Supply σ] [Supply τ] {ρ : Relabelling} (π : Pace σ τ ρ) {s : σ}
    {t : τ} (h : π.Level s t) :
    (∃ d, π.Stops d ∧ OnePass.analyze s = .error (.diagnostic d)) ∨ ρ.Outcomes (OnePass.analyze s) (OnePass.analyze t) :=
  π.run'_program h (Nat.le_refl _) (Nat.le_refl _)

/-! ## Lists of tokens -/

/-- A list of tokens and the relabelled one, replayed. -/
def Pace.ofReplays (ρ : Relabelling) : Pace Replay Replay ρ where
  Level r r' := r'.rest = r.rest.map ρ.token ∧ r'.last = ρ.pos r.last ∧ ∀ a ∈ r.rest, a.kind = .identifier → ρ.Occurs a.lexeme
  Stops _ := False
  peek := by
    rintro ⟨rest, last⟩ ⟨_, _⟩ ⟨rfl, rfl, hoccurs⟩
    refine .inr ⟨_, _, rfl, rfl, ?_, rfl, rfl, hoccurs⟩
    cases rest with
    | nil => exact ⟨rfl, nofun⟩
    | cons a rest => exact ⟨rfl, hoccurs a List.mem_cons_self⟩
  next := by
    rintro ⟨rest, last⟩ ⟨_, _⟩ ⟨rfl, rfl, hoccurs⟩
    refine .inr ⟨_, _, rfl, rfl, ?_, List.map_tail.symm, rfl, fun a ha => hoccurs a (List.mem_of_mem_tail ha)⟩
    cases rest with
    | nil => exact ⟨rfl, nofun⟩
    | cons a rest => exact ⟨rfl, hoccurs a List.mem_cons_self⟩

/-- Tokens and relabelled tokens, replayed, are in step. -/
theorem Pace.level_ofReplays (ρ : Relabelling) {tokens : List Token}
    (hoccurs : ∀ a ∈ tokens, a.kind = .identifier → ρ.Occurs a.lexeme) (hlast : tokens = [] → ρ.pos ⟨0, 0⟩ = ⟨0, 0⟩) :
    (Pace.ofReplays ρ).Level (Replay.ofTokens tokens) (Replay.ofTokens (tokens.map ρ.token)) := by
  refine ⟨rfl, ?_, hoccurs⟩
  change ((tokens.map ρ.token).getLast?.map Token.pos).getD ⟨0, 0⟩ = ρ.pos ((tokens.getLast?.map Token.pos).getD ⟨0, 0⟩)
  rw [List.getLast?_map]
  cases hl : tokens.getLast? with
  | none => exact (hlast (List.getLast?_eq_none_iff.1 hl)).symm
  | some t => rfl

/-- The analyses of a list of tokens and of the relabelled one have the same outcome but for names and positions. -/
theorem Relabelling.analyze_tokens (ρ : Relabelling) {tokens : List Token}
    (hoccurs : ∀ a ∈ tokens, a.kind = .identifier → ρ.Occurs a.lexeme) (hlast : tokens = [] → ρ.pos ⟨0, 0⟩ = ⟨0, 0⟩) :
    ρ.Outcomes (analyze (Replay.ofTokens tokens)) (analyze (Replay.ofTokens (tokens.map ρ.token))) := by
  rcases (Pace.ofReplays ρ).analyze (Pace.level_ofReplays ρ hoccurs hlast) with ⟨d, hd, -⟩ | houtcomes
  · exact hd.elim
  · exact houtcomes

end OnePass

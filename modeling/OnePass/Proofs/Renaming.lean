import Mathlib.Logic.Equiv.Basic
import OnePass.Proofs.Pool.Description
import OnePass.Proofs.SideBySide.Program
import OnePass.Proofs.Upkeep.Program

/-!
# Renaming

What functions, variables and parameters are called decides nothing, as long as different names stay different and nobody takes or
gives up the name of the main function or of a primitive. A renamed program fails where and as the original does, or it has the
same code, and a pool in which its functions and its global variables have the new names (`analyze_renamed`). That the analysis
does the same is a case of two analyses side by side. Which entries of the pool are names is seen from the tree, whose pool the
analysis knows.
-/

namespace OnePass

variable {A : Source} {r : Bytes → Bytes} {p : Program} {tokens : List Token}

/-! ## Renamings -/

/-- The token under a new name, if it is a name. -/
def Token.renamed (r : Bytes → Bytes) (t : Token) : Token :=
  if t.kind = .identifier then { t with lexeme := r t.lexeme } else t

/-- The pool entry under a new name, if it is that of a function or of a variable. -/
def PoolEntry.renamed (r : Bytes → Bytes) : PoolEntry → PoolEntry
  | .function x => .function (r x)
  | .variable const x => .variable const (r x)
  | .literal content => .literal content
  | .primitive f => .primitive f

/-- The name is one among the tokens, or means something by itself. -/
def NamedIn (tokens : List Token) (x : Bytes) : Prop :=
  (∃ t ∈ tokens, t.kind = .identifier ∧ t.lexeme = x) ∨ x = Analysis.mainName ∨ ∃ p : Primitive, x = p.name

/-- Different names among these get different new ones. -/
def KeepsApart (r : Bytes → Bytes) (O : Bytes → Prop) : Prop := ∀ x y, O x → O y → r x = r y → x = y

/-- New names that keep the old ones apart, and leave alone those that mean something by themselves. -/
structure Renames (r : Bytes → Bytes) (tokens : List Token) : Prop where
  injective : KeepsApart r (NamedIn tokens)
  main : r Analysis.mainName = Analysis.mainName
  primitive : ∀ p : Primitive, r p.name = p.name

/-- The relabelling that keeps the positions. -/
def Renames.relabelling {r : Bytes → Bytes} {tokens : List Token} (h : Renames r tokens) : Relabelling where
  name := r
  pos := id
  Occurs := NamedIn tokens
  injective := h.injective _ _
  occurs_main := .inr (.inl rfl)
  name_main := h.main
  occurs_primitive p := .inr (.inr ⟨p, rfl⟩)
  name_primitive := h.primitive

theorem Renames.token {r : Bytes → Bytes} {tokens : List Token} (h : Renames r tokens) (t : Token) :
    h.relabelling.token t = t.renamed r := by
  unfold Relabelling.token Relabelling.lexeme Token.renamed
  split <;> rfl

/-! ## Pools -/

/-- The analysis of the tokens of a tree ends in a state that knows the pool of the tree. -/
theorem Source.IsTreeOfTokens.exists_knows (hA : A.IsTreeOfTokens tokens) (hp : analyze (Replay.ofTokens tokens) = .ok p) :
    ∃ s c, (Analysis.program (depthBound (TokenSource.remaining (Replay.ofTokens tokens)))).run
      { source := Replay.ofTokens tokens } =
      .ok (p, s) ∧ s.Knows c ∧ c.pool = A.pool := by
  obtain ⟨-, -, -, hstop⟩ := analyze_reads hp
  have hfollows := Analysis.program_follows hA.1 hA.2 hstop
  rw [analyze, StateT.run'_eq] at hp
  cases hr : ((do return (← A.outputs, ← Source.mainCall) : Translation _).run Source.start) with
  | none =>
    rw [hr] at hfollows
    obtain ⟨e, he⟩ := hfollows.run_error
    rw [he] at hp
    cases hp
  | some r =>
    obtain ⟨r, c⟩ := r
    rw [hr] at hfollows
    obtain ⟨q, s, hs, hknows, -⟩ := hfollows.run_ok
    obtain ⟨outputs, c1, houtputs, hr⟩ := Translation.run_bind_some_iff.1 hr
    obtain ⟨call, c2, hcall, hr⟩ := Translation.run_bind_some_iff.1 hr
    cases hr
    obtain ⟨binding, c3, hfind, hcall⟩ := Translation.run_bind_some_iff.1 hcall
    cases hfind
    split at hcall
    · cases hcall
      rw [hs] at hp
      cases hp
      exact ⟨s, _, hs, hknows, Source.pool_of_outputs houtputs⟩
    · cases hcall

/-- Which slots hold texts is seen from the pool. -/
theorem AnalysisState.Knows.isText_iff {σ : Type} {s : AnalysisState σ} {c : Context} (h : s.Knows c)
    (honce : PoolEntry.SharedOnce c.pool)
    {n : Nat} {entry : PoolEntry} (hentry : c.pool[n + 1]? = some entry) : s.IsText (n + 1) ↔ entry.isShared = true := by
  constructor
  · rintro (hzero | ⟨x, hx⟩ | ⟨x, hx⟩)
    · cases hzero
    · rw [h.literals] at hx
      rw [Option.some.inj (hentry.symm.trans (getElem?_of_idxOf? hx))]
      rfl
    · rw [h.natives] at hx
      rw [Option.some.inj (hentry.symm.trans (getElem?_of_idxOf? hx))]
      rfl
  · intro hshared
    have hfirst : c.pool.idxOf? entry = some (n + 1) := by
      cases hfound : c.pool.idxOf? entry with
      | none => exact absurd (List.mem_of_getElem? hentry) (List.idxOf?_eq_none_iff.1 hfound)
      | some found => rw [honce hshared (getElem?_of_idxOf? hfound) hentry]
    cases entry with
    | function | «variable» => cases hshared
    | literal x => exact .inr (.inl ⟨x, (h.literals x).trans hfirst⟩)
    | primitive x => exact .inr (.inr ⟨x, (h.natives x).trans hfirst⟩)

theorem Renames.global_renamed (h : Renames r tokens) (entry : PoolEntry) :
    (entry.renamed r).global = if entry.isShared then entry.global else h.relabelling.global entry.global := by
  cases entry <;> rfl

/-! ## Analyses -/

/-- The pools of a program and of the renamed one. -/
theorem Renames.globals (h : Renames r tokens) {p' : Program} (hp : analyze (Replay.ofTokens tokens) = .ok p)
    (hp' : analyze (Replay.ofTokens (tokens.map (Token.renamed r))) = .ok p') (hA : A.IsTreeOfTokens tokens) :
    p.globals.toList = A.pool.map PoolEntry.global ∧
      p'.globals.toList = (.function Analysis.entryName :: A.ownPool.map (PoolEntry.renamed r)).map PoolEntry.global := by
  obtain ⟨s, c, hs, hknows, hpool⟩ := hA.exists_knows hp
  have hslot (n : Nat) : s.pool[n]? = A.pool[n]?.map PoolEntry.global := by
    rw [← Array.getElem?_toList, hknows.pool, hpool, List.getElem?_map]
  have hlevel := Pace.level_ofReplays h.relabelling (fun t ht hkind => .inl ⟨t, ht, hkind, rfl⟩) fun _ => rfl
  rw [List.map_congr_left fun t _ => h.token t] at hlevel
  have hprogram := (Pace.ofReplays h.relabelling).run_program hlevel (depthBound (TokenSource.remaining (Replay.ofTokens tokens)))
    (depthBound (TokenSource.remaining (Replay.ofTokens (tokens.map (Token.renamed r)))))
  rw [analyze, StateT.run'_eq] at hp'
  rw [hs] at hprogram
  generalize hrun : (Analysis.program _).run { source := Replay.ofTokens (tokens.map (Token.renamed r)) } = result at hprogram hp'
  cases hprogram with
  | otherTooDeep => cases hp'
  | ok functions state =>
    cases hp'
    refine ⟨by rw [Analysis.globals_of_run_program hs, hknows.pool, hpool], List.ext_getElem? fun n => ?_⟩
    rw [Array.getElem?_toList, Analysis.globals_of_run_program hrun]
    cases n with
    | zero =>
      rw [state.pool.text 0 (.inl rfl), hslot]
      rfl
    | succ n =>
      have hown : A.pool[n + 1]? = A.ownPool[n]? := List.getElem?_cons_succ
      rw [List.map_cons, List.getElem?_cons_succ, List.getElem?_map, List.getElem?_map]
      cases hentry : A.ownPool[n]? with
      | none =>
        have hend : s.pool[n + 1]? = none := by
          rw [hslot, hown, hentry]
          rfl
        rw [Array.getElem?_eq_none_iff, ← state.pool.size, ← Array.getElem?_eq_none_iff] at hend
        exact hend
      | some entry =>
        have hiff := hknows.isText_iff (hpool ▸ A.sharedOnce_pool) (n := n) (by rw [hpool, hown, hentry])
        simp only [Option.map_some, h.global_renamed]
        split
        · rename_i hshared
          rw [state.pool.text _ (hiff.2 hshared), hslot, hown, hentry]
          rfl
        · rename_i hshared
          rw [state.pool.named _ (mt hiff.1 hshared), hslot, hown, hentry]
          rfl

/-- Names decide nothing: under new names an analysis fails with the same class of fault at the same place, or it comes to a
program with the same functions, and with a pool in which the program's own functions and its global variables have the new names. -/
theorem analyze_renamed {r : Bytes → Bytes} {tokens : List Token} (h : Renames r tokens) :
    (∃ d d', analyze (Replay.ofTokens tokens) = .error (.diagnostic d) ∧
      analyze (Replay.ofTokens (tokens.map (Token.renamed r))) = .error (.diagnostic d') ∧ d'.fault.kind = d.fault.kind ∧
        d'.pos = d.pos) ∨
    ∃ p p', analyze (Replay.ofTokens tokens) = .ok p ∧ analyze (Replay.ofTokens (tokens.map (Token.renamed r))) = .ok p' ∧
      p'.functions = p.functions ∧ (∃ A : Source, A.IsTreeOfTokens tokens) ∧ ∀ A : Source, A.IsTreeOfTokens tokens →
        p.globals.toList = A.pool.map PoolEntry.global ∧
        p'.globals.toList = (.function Analysis.entryName :: A.ownPool.map (PoolEntry.renamed r)).map PoolEntry.global := by
  have houtcomes := h.relabelling.analyze_tokens (fun t ht hkind => .inl ⟨t, ht, hkind, rfl⟩) fun _ => rfl
  rw [List.map_congr_left fun t _ => h.token t] at houtcomes
  generalize hr : analyze (Replay.ofTokens tokens) = result at houtcomes
  generalize hr' : analyze (Replay.ofTokens (tokens.map (Token.renamed r))) = result' at houtcomes
  cases houtcomes with
  | failed e =>
    obtain ⟨d, rfl, -⟩ := analyze_fails _ hr
    exact .inl ⟨d, _, rfl, rfl, h.relabelling.kind_fault d.fault, rfl⟩
  | ok globals functions => exact .inr ⟨_, _, rfl, rfl, functions, (exists_isTreeOfTokens hr).1, fun A hA => h.globals hr hr' hA⟩

/-- A function and a variable change names. -/
def swapped : Bytes → Bytes := Equiv.swap (Bytes.ofString "f") (Bytes.ofString "n")

theorem analyze_renamed_shadowing : Renames swapped shadowing ∧ ∃ p p', analyze (Replay.ofTokens shadowing) = .ok p ∧
    analyze (Replay.ofTokens (shadowing.map (Token.renamed swapped))) = .ok p' ∧ p'.functions = p.functions ∧
    p.globals.toList = shadowingPool.map PoolEntry.global ∧
    p'.globals.toList = (shadowingPool.map (PoolEntry.renamed swapped)).map PoolEntry.global := by
  have hrenames : Renames swapped shadowing :=
    ⟨fun x y _ _ hxy => Equiv.injective _ hxy, by decide, fun p => by cases p <;> decide⟩
  have hpool : (analyze (Replay.ofTokens shadowing)).toOption.map (·.globals.toList) =
    some (shadowingPool.map PoolEntry.global) := by
    decide +kernel
  have hpool' : (analyze (Replay.ofTokens (shadowing.map (Token.renamed swapped)))).toOption.map (·.globals.toList) =
      some ((shadowingPool.map (PoolEntry.renamed swapped)).map PoolEntry.global) := by decide +kernel
  refine ⟨hrenames, ?_⟩
  rcases analyze_renamed hrenames with ⟨d, d', hd, -⟩ | ⟨p, p', hp, hp', hfunctions, -⟩
  · rw [hd] at hpool
    cases hpool
  · rw [hp] at hpool
    rw [hp'] at hpool'
    exact ⟨p, p', hp, hp', hfunctions, Option.some.inj hpool, Option.some.inj hpool'⟩

end OnePass

import OnePass.Proofs.Upkeep.Expression

/-!
# Branches under watch

An analysis knows the branches that wait for their targets by their handles only. Here is the analysis of statements and
definitions once more, beside a ledger of the handles that its open `if`s and loops hold, of the branches whose targets are known,
and of the loops with the branches of their `break`s and `continue`s (`Ledger`). It ends in a breach if a branch is out of place
where a statement begins or ends or where one is patched.
-/

namespace OnePass

/-- A loop, and the handles of the branches in the code that are there for a `break` or a `continue` of which it is the innermost
loop. -/
structure LoopRecord where
  /-- The handle of its first condition instruction. -/
  first : Nat
  breaks : List Nat := []
  continues : List Nat := []
  deriving DecidableEq, Repr

namespace LoopRecord

/-- What an analysis knows of the loop while it is open. -/
def loop (l : LoopRecord) : Loop := ⟨l.first, l.breaks⟩

/-- The branches of the `continue`s, with their target. -/
def again (l : LoopRecord) : List (Nat × Nat) := l.continues.map (·, l.first)

/-- The branches of the `break`s, with the handle of the first instruction after the loop for their target. -/
def exits (l : LoopRecord) (stop : Nat) : List (Nat × Nat) := l.breaks.map (·, stop)

/-- The loop without the branches from a handle on. -/
def dropFrom (handle : Nat) (l : LoopRecord) : LoopRecord :=
  { l with breaks := l.breaks.filter (· < handle), continues := l.continues.filter (· < handle) }

end LoopRecord

/-- The branches of the functions' code, beside those that the open loops note. -/
structure Ledger where
  /-- The handles of the branches that an open `if` or loop still has to patch. -/
  waiting : List Nat := []
  /-- The handles and the targets of the branches that were patched, and of those of `continue`. -/
  settled : List (Nat × Nat) := []
  /-- The loops around, the innermost first. -/
  around : List LoopRecord := []
  /-- The loops that were closed, each with the handle of the first instruction after it. -/
  closed : List (LoopRecord × Nat) := []

/-- The instructions that have to stand at the handles of a ledger and of the open loops: a branch without a distance where the
target is not known yet. -/
def Ledger.entries (L : Ledger) (loops : List Loop) : List (Nat × Instruction) :=
  (L.waiting ++ loops.flatMap Loop.breaks).map (·, { op := .br }) ++ L.settled.map fun j => (j.1, branchBy (j.2 - (j.1 + 1)))

/-- Where the branches of `break`s and `continue`s have to go as far as it is known: from a `continue` to the first condition
instruction of its loop, and from a `break` to the first instruction after its loop. -/
def Ledger.targets (L : Ledger) : List (Nat × Nat) :=
  L.around.flatMap LoopRecord.again ++ L.closed.flatMap fun l => l.1.exits l.2 ++ l.1.again

/-- The ledger without what is dropped with the code from a handle on. -/
def Ledger.dropFrom (handle : Nat) (L : Ledger) : Ledger :=
  { L with
    settled := L.settled.filter (·.1 < handle)
    around := L.around.map (·.dropFrom handle)
    closed := L.closed.map fun l => (l.1.dropFrom handle, l.2) }

/-- Different handles have these instructions in the code. -/
def InPlace (entries : List (Nat × Instruction)) (code : List Instruction) : Prop :=
  (entries.map Prod.fst).Nodup ∧ ∀ e ∈ entries, code[e.1]? = some e.2

instance (entries : List (Nat × Instruction)) (code : List Instruction) : Decidable (InPlace entries code) :=
  inferInstanceAs (Decidable (_ ∧ _))

/-- The open loops have noted the branches of their `break`s, and no others, and every target that is known is the one to which
the branch goes. -/
abbrev Ledger.Tracks (L : Ledger) (loops : List Loop) : Prop := loops = L.around.map LoopRecord.loop ∧
    ∀ j ∈ L.targets, j ∈ L.settled

/-- All branches of the ledger and of the open loops are in place, and go where they have to go. -/
abbrev Ledger.Kept {σ : Type} (L : Ledger) (s : AnalysisState σ) : Prop :=
  InPlace (L.entries s.loops) s.body.code.toList ∧ L.Tracks s.loops

/-- A part of an analysis beside a ledger. -/
abbrev Watched (σ : Type) := StateT Ledger (Analysis σ)

namespace Watched

open Analysis
open StateT (lift)

variable {σ α : Type}

/-- Goes on only if all branches are in place. -/
def watch : Watched σ Unit := do
  unless (← get).Kept (← lift get) do lift (breach .lostBranch)

/-- Notes branches that are to be patched. -/
def hold (handles : List Nat) : Watched σ Unit := modify fun L => { L with waiting := L.waiting ++ handles }

/-- Notes the target of a branch. -/
def note (handle target : Nat) : Watched σ Unit := modify fun L => { L with settled := (handle, target) :: L.settled }

/-- Emits a branch that is to be patched. -/
def held (part : Analysis σ Nat) : Watched σ Nat := do
  let handle ← lift part
  hold [handle]
  return handle

/-- Points a branch that is in place and waits to the next instruction. -/
def settle (handle : Nat) : Watched σ Unit := do
  watch
  unless handle ∈ (← get).waiting do lift (breach .lostBranch)
  lift (patch handle)
  modify fun L => { L with waiting := L.waiting.erase handle }
  note handle (← lift here)

/-- Changes what is known of the innermost loop. -/
def inLoop (f : LoopRecord → LoopRecord) : Watched σ Unit := modify fun L => { L with around := L.around.modifyHead f }

/-- A part with all branches in place before and after it. -/
def watched (part : Watched σ α) : Watched σ α := do
  watch
  let a ← part
  watch
  return a

/-- Takes off the innermost loop. -/
def leaveLoop : Watched σ LoopRecord := do
  match (← get).around with
  | loop :: loops =>
    modify fun L => { L with around := loops }
    return loop
  | [] => lift (breach .lostBranch)

/-- Points the branches out of a loop to its end, and notes that it is closed. -/
def settleLoop (exit : Nat) (breaks : List Nat) (loop : LoopRecord) : Watched σ Unit := do
  settle exit
  breaks.forM settle
  let stop ← lift here
  modify fun L => { L with closed := (loop, stop) :: L.closed }

/-- Ends a loop. The branches out of it are now to be patched. -/
def endLoop (first exit : Nat) (body : Flow) : Watched σ Unit := do
  let breaks ← lift closeLoop
  let loop ← leaveLoop
  hold breaks
  if !body.breaks then lift (emitBranchTo first)
  settleLoop exit breaks loop

/-- Closes a block. The branches that are dropped with its code have no target. -/
def closeBlock (inner : Bool) (dead : Option Nat) : Watched σ Unit := do
  dead.forM fun handle => modify (Ledger.dropFrom handle)
  lift (Analysis.closeBlock inner dead)

variable [TokenSource σ]

/-- A `break` statement. Its branch is one out of the innermost loop. -/
def breakStatement : Watched σ Flow := do
  let token ← lift (expect .break)
  let _ ← lift (innermostLoop token.pos .strayBreak)
  let handle ← lift emitOpenBranch
  lift (noteBreak handle)
  inLoop fun loop => { loop with breaks := handle :: loop.breaks }
  let _ ← lift (expect .semicolon)
  return { breaks := true }

/-- A `continue` statement. Its branch is one to the start of the innermost loop. -/
def continueStatement : Watched σ Flow := do
  let token ← lift (expect .continue)
  let loop ← lift (innermostLoop token.pos .strayContinue)
  let handle ← lift here
  lift (emitBranchTo loop.first)
  note handle loop.first
  inLoop fun loop => { loop with continues := handle :: loop.continues }
  let _ ← lift (expect .semicolon)
  return { breaks := true }

mutual

/-- A statement in a function that returns a type. -/
def statement (returns : ValueType) : Nat → Watched σ Flow
  | 0 => lift (breach .tooDeep)
  | depth + 1 => watched do
    match (← lift peek).kind with
    | .let | .const =>
      lift (declaration depth)
      return {}
    | .if =>
      let _ ← lift (expect .if)
      let arms ← ifArms returns depth {}
      arms.ends.forM settle
      return if arms.hasElse then arms.flow else {}
    | .while => whileStatement returns depth
    | .break => breakStatement
    | .continue => continueStatement
    | .return => lift (returnStatement returns depth)
    | .lbrace => block returns true depth
    | .semicolon =>
      let _ ← lift next
      return {}
    | _ =>
      lift (expressionStatement depth)
      return {}

/-- A block. -/
def block (returns : ValueType) (inner : Bool) : Nat → Watched σ Flow
  | 0 => lift (breach .tooDeep)
  | depth + 1 => do
    let _ ← lift (expect .lbrace)
    lift (openBlock inner)
    let (flow, dead) ← statements returns depth {} none
    let _ ← lift next
    closeBlock inner dead
    return flow

/-- The statements of a block. -/
def statements (returns : ValueType) : Nat → Flow → Option Nat → Watched σ (Flow × Option Nat)
  | 0, _, _ => lift (breach .tooDeep)
  | depth + 1, flow, dead => do
    let token ← lift peek
    match token.kind with
    | .rbrace => return (flow, dead)
    | .eof => lift (fail token.pos .unclosedBlock)
    | _ =>
      let f ← statement returns depth
      if dead.isNone && f.leaves then statements returns depth f (some (← lift here))
      else statements returns depth flow dead

/-- The arms of an `if`. The branches past an arm and from its end wait. -/
def ifArms (returns : ValueType) : Nat → Arms → Watched σ Arms
  | 0, _ => lift (breach .tooDeep)
  | depth + 1, arms => do
    let skip ← held (condition depth)
    let f ← block returns true depth
    let arms := { arms with flow := arms.flow.both f, ends := arms.ends ++ [← held emitOpenBranch] }
    settle skip
    if ← lift (accept .else) then
      if ← lift (accept .if) then ifArms returns depth arms
      else
        let f ← block returns true depth
        return { arms with flow := arms.flow.both f, hasElse := true }
    else return arms

/-- A `while` statement. The branch out of it if the condition does not hold waits. -/
def whileStatement (returns : ValueType) : Nat → Watched σ Flow
  | 0 => lift (breach .tooDeep)
  | depth + 1 => do
    let _ ← lift (expect .while)
    let first ← lift here
    let exit ← held (condition depth)
    lift (openLoop first)
    modify fun L => { L with around := { first } :: L.around }
    let f ← block returns true depth
    endLoop first exit f
    return {}

end

/-- A function. -/
def function (depth : Nat) : Watched σ Unit := do
  let _ ← lift (expect .fn)
  let name ← lift (expect .identifier)
  let (place, marker) ← lift (openFunction name)
  lift (parameterList place depth)
  let _ ← lift (expect .arrow)
  let (_, returns) ← lift typeName
  lift (noteReturns place returns)
  let flow ← block returns false depth
  lift (endBody name returns flow)
  lift (closeFunction place marker returns)

/-- The definitions of a program. -/
def definitions : Nat → Watched σ Token
  | 0 => lift (breach .tooDeep)
  | depth + 1 => do
    let token ← lift peek
    match token.kind with
    | .fn =>
      function depth
      definitions depth
    | .let | .const =>
      lift (declaration depth)
      definitions depth
    | .eof => return token
    | kind => lift (fail token.pos (.expectedDefinition kind token.lexeme))

/-- A whole program. -/
def program (depth : Nat) : Watched σ Program := do
  lift openEntry
  let stop ← definitions depth
  lift (closeEntry stop.pos)
  lift assemble

end Watched

/-- The analysis of a source under watch. Gives the program and the ledger. -/
def Watched.analyze {σ : Type} [TokenSource σ] (source : σ) : Except Failure (Program × Ledger) :=
  ((program (depthBound (TokenSource.remaining source))).run {}).run' { source }

/-! ## Instructions in place -/

namespace InPlace

variable {entries more : List (Nat × Instruction)} {code : List Instruction} {handle : Nat} {i : Instruction}

section

variable (h : InPlace entries code)

include h

theorem lt_length (hhandle : handle ∈ entries.map Prod.fst) : handle < code.length := by
  obtain ⟨e, he, rfl⟩ := List.mem_map.1 hhandle
  exact (List.getElem?_eq_some_iff.1 (h.2 e he)).1

theorem perm (hperm : entries.Perm more) : InPlace more code :=
  ⟨(hperm.map _).nodup_iff.1 h.1, fun e he => h.2 e (hperm.mem_iff.2 he)⟩

/-- Code that goes on. -/
theorem grow {code' : List Instruction} (hcode : code <+: code') : InPlace entries code' := by
  refine ⟨h.1, fun e he => ?_⟩
  obtain ⟨more, rfl⟩ := hcode
  rw [List.getElem?_append_left (h.lt_length (List.mem_map_of_mem he)), h.2 e he]

/-- An instruction is emitted and noted. -/
theorem emit (i : Instruction) : InPlace ((code.length, i) :: entries) (code ++ [i]) := by
  refine ⟨List.nodup_cons.2 ⟨fun hmem => Nat.lt_irrefl _ (h.lt_length hmem), h.1⟩, List.forall_mem_cons.2 ⟨by simp, ?_⟩⟩
  exact (h.grow (List.prefix_append _ _)).2

/-- Another instruction is changed. -/
theorem modify (hhandle : handle ∉ entries.map Prod.fst) (f : Instruction → Instruction) :
    InPlace entries (code.modify handle f) := by
  refine ⟨h.1, fun e he => ?_⟩
  have hne : handle ≠ e.1 := fun heq => hhandle (heq ▸ List.mem_map_of_mem he)
  simp [hne, h.2 e he]

end

/-- A noted instruction is changed. -/
theorem modify_head (h : InPlace ((handle, i) :: entries) code) (f : Instruction → Instruction) :
    InPlace ((handle, f i) :: entries) (code.modify handle f) := by
  obtain ⟨hhead, hrest⟩ := List.forall_mem_cons.1 h.2
  have hnodup := List.nodup_cons.1 h.1
  refine ⟨h.1, List.forall_mem_cons.2 ⟨?_, (modify ⟨hnodup.2, hrest⟩ hnodup.1 f).2⟩⟩
  simp only at hhead
  simp [hhead]

/-- Code is dropped, with all that is noted in it. -/
theorem take (h : InPlace entries code) (hmore : more.Sublist entries) {n : Nat} (hlt : ∀ k ∈ more.map Prod.fst, k < n) :
    InPlace more (code.take n) := by
  refine ⟨h.1.sublist (hmore.map _), fun e he => ?_⟩
  rw [List.getElem?_take_of_lt (hlt _ (List.mem_map_of_mem he)), h.2 e (hmore.subset he)]

end InPlace

namespace Ledger

variable {L : Ledger} {loops : List Loop} {handle target : Nat}

theorem map_fst_entries (L : Ledger) (loops : List Loop) :
    (L.entries loops).map Prod.fst = L.waiting ++ loops.flatMap Loop.breaks ++ L.settled.map Prod.fst := by
  simp [entries, Function.comp_def]

theorem op_of_mem_entries {e : Nat × Instruction} (he : e ∈ L.entries loops) : e.2.op = .br := by
  rcases List.mem_append.1 he with he | he
  · obtain ⟨_, -, rfl⟩ := List.mem_map.1 he
    rfl
  · obtain ⟨_, -, rfl⟩ := List.mem_map.1 he
    rfl

theorem entries_hold (L : Ledger) (loops : List Loop) (handle : Nat) :
    ((handle, { op := .br }) :: L.entries loops).Perm (entries { L with waiting := L.waiting ++ [handle] } loops) := by
  simpa [entries] using List.perm_middle.symm

theorem entries_erase (loops : List Loop) (h : handle ∈ L.waiting) :
    (L.entries loops).Perm ((handle, { op := .br }) :: entries { L with waiting := L.waiting.erase handle } loops) := by
  have := ((List.perm_cons_erase h).append_right (loops.flatMap Loop.breaks)).map fun handle =>
    ((handle, { op := .br }) : Nat × Instruction)
  exact this.append_right _

theorem entries_note (L : Ledger) (loops : List Loop) (handle target : Nat) :
    ((handle, branchBy (target - (handle + 1))) :: L.entries loops).Perm
    (entries { L with settled := (handle, target) :: L.settled } loops) :=
  List.perm_middle.symm

theorem entries_break (L : Ledger) (loop : Loop) (loops : List Loop) (handle : Nat) :
    ((handle, { op := .br }) :: L.entries (loop :: loops)).Perm
    (L.entries ({ loop with breaks := handle :: loop.breaks } :: loops)) := by
  simpa [entries] using List.perm_middle.symm

variable {record : LoopRecord}

/-- The innermost open loop is the one that the ledger knows. -/
theorem Tracks.exists_around {loop : Loop} (h : L.Tracks (loop :: loops)) :
    ∃ record records, L.around = record :: records ∧ loop = record.loop ∧ loops = records.map LoopRecord.loop := by
  obtain ⟨record, records, haround, hloop, hloops⟩ := List.map_eq_cons_iff.1 h.1.symm
  exact ⟨record, records, haround, hloop.symm, hloops.symm⟩

theorem mem_targets_of_closed (L : Ledger) {stop : Nat} {j : Nat × Nat} (h : (record, stop) ∈ L.closed)
    (hj : j ∈ record.exits stop ∨ j ∈ record.again) : j ∈ L.targets :=
  List.mem_append_right _ (List.mem_flatMap.2 ⟨_, h, List.mem_append.2 hj⟩)

/-- The target of one more branch is known. -/
theorem Tracks.note (h : L.Tracks loops) (j : Nat × Nat) : Tracks { L with settled := j :: L.settled } loops :=
  ⟨h.1, fun k hk => List.mem_cons_of_mem _ (h.2 k hk)⟩

/-- The targets of the branches that are dropped are dropped too. -/
theorem targets_dropFrom (L : Ledger) (handle : Nat) : (L.dropFrom handle).targets = L.targets.filter (·.1 < handle) := by
  have hagain (l : LoopRecord) : (l.dropFrom handle).again = l.again.filter (·.1 < handle) := by
    simp [LoopRecord.again, LoopRecord.dropFrom, List.filter_map, Function.comp_def]
  have hexits (l : LoopRecord) (stop : Nat) : (l.dropFrom handle).exits stop = (l.exits stop).filter (·.1 < handle) := by
    simp [LoopRecord.exits, LoopRecord.dropFrom, List.filter_map, Function.comp_def]
  simp [targets, dropFrom, List.flatMap_map, List.filter_append, List.filter_flatMap, hagain, hexits]

/-- Code is dropped; the branches out of the outer loops stand before it. -/
theorem Tracks.dropFrom (h : L.Tracks loops) (hlt : ∀ n ∈ loops.tail.flatMap Loop.breaks, n < handle) :
    (L.dropFrom handle).Tracks (loops.modifyHead fun loop => { loop with breaks := loop.breaks.filter (· < handle) }) := by
  have htargets : ∀ j ∈ (L.dropFrom handle).targets, j ∈ (L.dropFrom handle).settled := by
    rw [targets_dropFrom]
    intro j hj
    obtain ⟨hmem, hlt⟩ := List.mem_filter.1 hj
    exact List.mem_filter.2 ⟨h.2 j hmem, hlt⟩
  refine ⟨?_, htargets⟩
  rw [Ledger.dropFrom, List.map_map]
  cases loops with
  | nil => rw [List.map_eq_nil_iff.1 h.1.symm]; rfl
  | cons loop loops =>
    obtain ⟨record, records, haround, rfl, rfl⟩ := h.exists_around
    rw [haround]
    refine congrArg (_ :: ·) (List.map_congr_left fun r hr => ?_)
    have hall : r.breaks.filter (· < handle) = r.breaks := List.filter_eq_self.2 fun n hn =>
      decide_eq_true (hlt n (List.mem_flatMap.2 ⟨r.loop, List.mem_map_of_mem hr, hn⟩))
    exact congrArg (Loop.mk r.first) hall.symm

/-- A loop is closed once its branches are known to go where they have to go. -/
theorem Tracks.close (h : L.Tracks loops) {stop : Nat} (hexits : ∀ n ∈ record.breaks, (n, stop) ∈ L.settled)
    (hagain : ∀ j ∈ record.again, j ∈ L.settled) : Tracks { L with closed := (record, stop) :: L.closed } loops := by
  have hclosed : ∀ j ∈ record.exits stop ++ record.again, j ∈ L.settled :=
    List.forall_mem_append.2 ⟨List.forall_mem_map.2 hexits, hagain⟩
  obtain ⟨haround, hothers⟩ := List.forall_mem_append.1 h.2
  exact ⟨h.1, List.forall_mem_append.2 ⟨haround, List.forall_mem_append.2 ⟨hclosed, hothers⟩⟩⟩

/-- Branches were patched to go to a handle, and nothing else is new. -/
structure Patches (L L' : Ledger) (handles : List Nat) (stop : Nat) : Prop where
  around : L'.around = L.around
  closed : L'.closed = L.closed
  settled : L.settled ⊆ L'.settled
  patched : ∀ handle ∈ handles, (handle, stop) ∈ L'.settled

namespace Patches

variable {L' L'' : Ledger} {handles more : List Nat} {stop : Nat}

theorem refl (L : Ledger) : L.Patches L [] stop := ⟨rfl, rfl, List.Subset.refl _, by simp⟩

theorem append (h : L.Patches L' handles stop) (h' : L'.Patches L'' more stop) : L.Patches L'' (handles ++ more) stop :=
  ⟨h'.around.trans h.around, h'.closed.trans h.closed, List.Subset.trans h.settled h'.settled,
    List.forall_mem_append.2 ⟨fun n hn => h'.settled (h.patched n hn), h'.patched⟩⟩

end Patches

end Ledger

/-! ## Parts under watch -/

/-- What the statements and the functions after this state leave as it is. -/
structure AnalysisState.Covers {σ : Type} (s s' : AnalysisState σ) : Prop where
  body : s.body.code.toList.map Instruction.op <+: s'.body.code.toList.map Instruction.op
  nesting : s'.loops.length = s.loops.length
  loops : s'.loops.tail = s.loops.tail
  scopes : s'.table.scopes = s.table.scopes
  symbols : s.table.symbols.size ≤ s'.table.symbols.size

theorem AnalysisState.Grows.covers {σ : Type} {s s' : AnalysisState σ} (h : s.Grows s') : s.Covers s' :=
  ⟨h.body.map _, congrArg _ h.loops, congrArg _ h.loops, h.scopes, h.symbols⟩

theorem AnalysisState.Covers.trans {σ : Type} {s s' s'' : AnalysisState σ} (h : s.Covers s') (h' : s'.Covers s'') :
    s.Covers s'' :=
  ⟨h.body.trans h'.body, h'.nesting.trans h.nesting, h'.loops.trans h.loops, h'.scopes.trans h.scopes,
    Nat.le_trans h.symbols h'.symbols⟩

theorem AnalysisState.Covers.size_le {σ : Type} {s s' : AnalysisState σ} (h : s.Covers s') : s.body.size ≤ s'.body.size := by
  simpa [Stream.size] using h.body.length_le

/-- From one state to another all branches are kept in place, and these wait. -/
structure AnalysisState.Keeps {σ : Type} (s0 : AnalysisState σ) (waiting : List Nat) (L : Ledger) (s : AnalysisState σ) :
    Prop where
  tidy : s.Tidy
  covers : s0.Covers s
  kept : L.Kept s
  waiting : L.waiting.Perm waiting

namespace Watched

open AnalysisState Analysis
open StateT (lift)

variable {σ α β : Type} [TokenSource σ]

/-- Under watch the part does the same as without, and leaves a result, a ledger and a state of a kind, or it fails fairly. -/
def Shadows (w : Watched σ α) (m : Analysis σ α) (L : Ledger) (s : AnalysisState σ) (Q : α → Ledger → AnalysisState σ → Prop) :
    Prop :=
  match m.run s with
  | .ok (a, s') => ∃ L', (w.run L).run s = .ok ((a, L'), s') ∧ Q a L' s'
  | .error e => (w.run L).run s = .error e ∧ e.IsFair σ

variable {w : Watched σ α} {m : Analysis σ α} {v : α → Watched σ β} {f : α → Analysis σ β} {L L' : Ledger}
  {s s' s0 : AnalysisState σ} {Q R : α → Ledger → AnalysisState σ → Prop} {T : β → Ledger → AnalysisState σ → Prop} {a : α}

namespace Shadows

theorem bind (hm : Shadows w m L s Q) (hf : ∀ a L' s', Q a L' s' → Shadows (v a) (f a) L' s' T) :
    Shadows (w >>= v) (m >>= f) L s T := by
  rw [Shadows] at hm
  cases hrun : m.run s with
  | error e =>
    rw [hrun] at hm
    rw [Shadows, run_bind_of_error hrun, StateT.run_bind, run_bind_of_error hm.1]
    exact ⟨rfl, hm.2⟩
  | ok p =>
    rw [hrun] at hm
    obtain ⟨L', hw, hQ⟩ := hm
    have hnext := hf p.1 L' p.2 hQ
    rw [Shadows] at hnext ⊢
    rwa [run_bind_of_ok hrun, StateT.run_bind, run_bind_of_ok hw]

/-- A step that only the watch takes. -/
theorem watch_bind {w : Watched σ β} {v : β → Watched σ α} {b : β} (hw : (w.run L).run s = .ok ((b, L'), s))
    (h : Shadows (v b) m L' s Q) :
    Shadows (w >>= v) m L s Q := by
  rw [Shadows, StateT.run_bind, run_bind_of_ok hw]
  exact h

theorem imp (hm : Shadows w m L s Q) (h : ∀ a L' s', Q a L' s' → R a L' s') : Shadows w m L s R := by
  rw [Shadows] at hm ⊢
  cases hrun : m.run s with
  | error e =>
    rw [hrun] at hm
    exact hm
  | ok p =>
    rw [hrun] at hm
    obtain ⟨L', hw, hQ⟩ := hm
    exact ⟨L', hw, h _ _ _ hQ⟩

theorem of_ok (hw : (w.run L).run s = .ok ((a, L'), s')) (hm : m.run s = .ok (a, s')) (hQ : Q a L' s') : Shadows w m L s Q := by
  rw [Shadows, hm]
  exact ⟨L', hw, hQ⟩

/-- A part that is not watched leaves the ledger as it is. -/
theorem lift {P : α → AnalysisState σ → Prop} (h : Leaves m s P) : Shadows (lift m) m L s fun a L' s' => L' = L ∧ P a s' := by
  have hrun : ((StateT.lift m : Watched σ α).run L).run s = (m.run s).map fun p => ((p.1, L), p.2) := by
    rw [StateT.run_lift, ← map_eq_pure_bind, StateT.run_map]
    rfl
  rw [Leaves] at h
  rw [Shadows, hrun]
  cases hm : m.run s with
  | error e =>
    rw [hm] at h
    exact ⟨rfl, h⟩
  | ok p =>
    rw [hm] at h
    exact ⟨L, rfl, rfl, h⟩

theorem of_leaves (h : Leaves m s fun a s' => Q a L s') : Shadows (StateT.lift m) m L s Q := by
  refine (lift h).imp ?_
  rintro a _ s' ⟨rfl, h⟩
  exact h

theorem ite {c : Prop} [Decidable c] {w' : Watched σ α} {m' : Analysis σ α} (h : c → Shadows w m L s Q)
    (h' : ¬ c → Shadows w' m' L s Q) :
    Shadows (if c then w else w') (if c then m else m') L s Q := by
  split
  · exact h ‹_›
  · exact h' ‹_›

/-- A step that only the watch takes afterwards. -/
theorem watch_after (h : Shadows w m L s Q) {v : α → Watched σ α}
    (hv : ∀ a L' s', Q a L' s' → ∃ L'', ((v a).run L').run s' = .ok ((a, L''), s') ∧ R a L'' s') : Shadows (w >>= v) m L s R := by
  rw [← bind_pure m]
  refine h.bind fun a L' s' hQ => ?_
  obtain ⟨L'', hrun, hR⟩ := hv a L' s' hQ
  exact of_ok hrun rfl hR

end Shadows

end Watched

namespace AnalysisState.Keeps

variable {σ : Type} {s s' s0 : AnalysisState σ} {L L' : Ledger} {W W' : List Nat} {loop : Loop} {loops : List Loop}

theorem refl (hs : s.Tidy) (hL : L.Kept s) : s.Keeps L.waiting L s := ⟨hs, (Grows.refl s).covers, hL, .refl _⟩

theorem trans (h : s0.Keeps W L s) (h' : s.Keeps L.waiting L' s') : s0.Keeps W L' s' :=
  ⟨h'.tidy, h.covers.trans h'.covers, h'.kept, h'.waiting.trans h.waiting⟩

theorem grow (h : s0.Keeps W L s) (hs' : s'.Tidy) (hgrows : s.Grows s') : s0.Keeps W L s' := by
  refine ⟨hs', h.covers.trans hgrows.covers, ?_, h.waiting⟩
  rw [Ledger.Kept, hgrows.loops]
  exact ⟨h.kept.1.grow hgrows.body, h.kept.2⟩

theorem perm (h : s0.Keeps W L s) (hperm : W.Perm W') : s0.Keeps W' L s := { h with waiting := h.waiting.trans hperm }

/-- A branch is emitted and noted as one out of the innermost loop. -/
theorem noteBreak (h : s0.Keeps W L s) (hloops : s.loops = loop :: loops) : s0.Keeps W
    { L with around := L.around.modifyHead fun l => { l with breaks := s.body.size :: l.breaks } }
    { s.append .body [{ op := .br }] with loops := { loop with breaks := s.body.size :: loop.breaks } :: loops } := by
  have hs := h.tidy.append .body (.one (i := { op := .br }) nofun)
  obtain ⟨hcode, htracks⟩ := h.kept
  rw [hloops] at hcode htracks
  obtain ⟨record, records, haround, rfl, rfl⟩ := htracks.exists_around
  refine ⟨{ hs with }, h.covers.trans ⟨(s.grows_append .body _).body.map _, ?_, ?_, rfl, Nat.le_refl _⟩, ⟨?_, ?_, ?_⟩, h.waiting⟩
  · rw [hloops]
    rfl
  · rw [hloops]
    rfl
  · rw [AnalysisState.append, Stream.toList_emitAll, Stream.size_eq]
    exact (hcode.emit { op := .br }).perm (L.entries_break record.loop (records.map LoopRecord.loop) _)
  · rw [haround]
    rfl
  · have htargets := htracks.2
    rw [Ledger.targets, haround] at htargets ⊢
    exact htargets

/-- A branch to the start of the innermost loop is emitted and noted. -/
theorem note_continue (h : s0.Keeps W L s) (hloops : s.loops = loop :: loops) : s0.Keeps W
    { L with
      settled := (s.body.size, loop.first) :: L.settled
      around := L.around.modifyHead fun l => { l with continues := s.body.size :: l.continues } }
    (s.append .body [branchBy (loop.first - (s.body.size + 1))]) := by
  have hs := h.tidy.append .body (.one (i := branchBy (loop.first - (s.body.size + 1))) nofun)
  obtain ⟨hcode, htracks⟩ := h.kept
  rw [hloops] at htracks
  obtain ⟨record, records, haround, rfl, rfl⟩ := htracks.exists_around
  refine ⟨hs, h.covers.trans (s.grows_append .body _).covers, ⟨?_, ?_, ?_⟩, h.waiting⟩
  · rw [AnalysisState.append, Stream.toList_emitAll, Stream.size_eq]
    exact (hcode.emit _).perm (L.entries_note s.loops _ record.first)
  · rw [haround]
    exact hloops
  · have htargets := htracks.2
    rw [Ledger.targets, haround] at htargets ⊢
    exact List.forall_mem_cons.2 ⟨List.mem_cons_self, fun j hj => List.mem_cons_of_mem _ (htargets j hj)⟩

end AnalysisState.Keeps

namespace Watched

open AnalysisState Analysis
open StateT (lift)

variable {σ α β : Type} {L : Ledger} {s s0 : AnalysisState σ} {W : List Nat}

theorem run_watch (h : L.Kept s) : (watch.run L).run s = .ok (((), L), s) := by
  have hrun : (watch.run L).run s = ((if L.Kept s then pure () else StateT.lift (breach .lostBranch) : Watched σ Unit).run L).run
    s := rfl
  rw [hrun, if_pos h]
  rfl

variable [TokenSource σ] {w : Watched σ α} {m : Analysis σ α} {v : α → Watched σ β} {f : α → Analysis σ β}

/-- Under watch the part does the same as without; all branches stay in place, and as many wait after it as before. -/
def Watches (w : Watched σ α) (m : Analysis σ α) : Prop :=
  ∀ L s, s.Tidy → L.Kept s → Shadows w m L s fun _ L' s' => s.Keeps L.waiting L' s'

namespace Watches

theorem after (hw : Watches w m) (h : s0.Keeps W L s) : Shadows w m L s fun _ L' s' => s0.Keeps W L' s' :=
  (hw L s h.tidy h.kept).imp fun _ _ _ h' => h.trans h'

theorem bind (hw : Watches w m) (hv : ∀ a, Watches (v a) (f a)) : Watches (w >>= v) (m >>= f) :=
  fun L s hs hL => (hw L s hs hL).bind fun a _ _ h => (hv a).after h

theorem lift (hm : Upkeep m) : Watches (lift m) m :=
  fun _ s hs hL => .of_leaves <| Leaves.imp (hm s hs) fun _ _ ⟨hs', hgrows, _⟩ => (Keeps.refl hs hL).grow hs' hgrows

theorem pure (a : α) : Watches (pure a : Watched σ α) (pure a) := lift (.pure a)

end Watches

theorem Watches.watched (hw : Watches w m) : Watches (watched w) m := by
  intro L s hs hL
  refine .watch_bind (run_watch hL) ((hw L s hs hL).watch_after fun a L' s' h => ⟨L', ?_, h⟩)
  rw [StateT.run_bind, run_bind_of_ok (run_watch h.kept)]
  rfl

end Watched

end OnePass

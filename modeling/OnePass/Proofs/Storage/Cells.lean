import OnePass.Proofs.Safety.CallDepth
import OnePass.Proofs.Storage.Uses

/-!
# Cells of calls

The functions of a compiled program are laid out as their definitions say: the code and the header of each have the numbers that
its layout gives (`Source.LaysOut`). While the program runs, the cells of a call are where its frame puts them, so no two
variables of a call share one, and what a call takes the address of is a cell of its own (`Machine.HousesCells`).
-/

namespace OnePass

variable {frame : Frame} {m : Machine} {f : Function} {c : Cell} {i : Instruction}

/-! ## Functions -/

/-- The function with this number is that of a definition with this layout. -/
def Source.HasLayout (A : Source) (n : Nat) (L : Layout) : Prop :=
  ∃ k name params returns body, A[k]? = some (.function name params returns body) ∧ n = Source.functions (A.take k) + 1 ∧
    L = ⟨params, returns.type, body.locals⟩

/-- The function has the header of a layout, and uses storage like this. -/
structure Function.LaidOut (A : Source) (p : Program) (L : Layout) (uses : List Use) (f : Function) : Prop where
  params : f.header.params = .ofNat L.params.length
  returns : f.header.returns = .ofNat L.returns.slots
  locals : f.header.locals = .ofNat L.locals.length
  uses : List.Forall₂ (Use.Denotes A p L) uses (f.code.toList.filter (·.op.usesStorage))

/-- The functions of the program are the entry routine, which has no cells, and those of the definitions. -/
structure Source.LaysOut (A : Source) (p : Program) : Prop where
  size : p.functions.size = A.functions + 1
  entry : ∃ f, p.functions[0]? = some f ∧ f.LaidOut A p ⟨[], .void, []⟩ (A.entryUses [] 0 A)
  function {k : Nat} {name : Bytes} {params : List Param} {returns : TypeName} {body : Block}
    (hk : A[k]? = some (.function name params returns body)) :
    ∃ f, p.functions[Source.functions (A.take k) + 1]? = some f ∧
      f.LaidOut A p ⟨params, returns.type, body.locals⟩ (body.bodyUses A k params returns.type)

section

variable {A : Source} {P : List PoolEntry} {p : Program} {L : Layout}

theorem Source.Meant.sees {done post : Source} {N : Scope} (h : A.Meant P p done N) (hA : A = done ++ post) :
    L.Sees A P N (Source.environment 0 done) := ⟨h.means _, Source.named_environment hA⟩

/-- The entry routine goes through the definitions, and then calls the main function. -/
theorem Source.Meant.performs {done ds : Source} {N N' : Scope} {number main slot : Nat} {outputs : List Output}
    {returns : ValueType}
    (hds : ds.Emits P N number outputs N') (h : A.Meant P p done N) (hA : A = done ++ ds)
    (hsmall : A.Small P p) (hp : A.Makes P p)
    (hnumber : number = done.functions + 1) (hmain : N'.lookup Analysis.mainName = some (.function [] returns main slot)) :
    Performs A p L (A.entryUses (Source.environment 0 done) done.length ds) (entryOf outputs ++ mainCode returns main) := by
  induction hds generalizing done with
  | nil =>
    have hcall := (h.sees hA).performs_call (L := L) hp hmain .nil
    refine hcall.append_silent ?_
    split <;> simp [Instruction.withNat, Opcode.usesStorage]
  | @cons N N' number d ds output outputs entry hd hnew hds ih =>
    subst hnumber
    have hcons := h.cons hA hsmall hd hnew
    have hrest : A = done ++ [d] ++ ds := by simp [hA]
    have hlater := ih hcons hrest (Source.next_snoc done d) hmain
    have hsees : L.Sees A P (entry :: N) _ := hcons.sees hrest
    have hlength : (done ++ [d]).length = done.length + 1 := List.length_append
    rw [Source.environment_append, Nat.zero_add] at hsees
    rw [Source.environment_append, Nat.zero_add, hlength] at hlater
    cases hd with
    | function => exact hlater
    | «global» hslot hd =>
      rw [Source.entryOf_entry, List.append_assoc]
      exact (Declaration.performs hp hsees hd).append hlater

/-- The code of a function uses storage as its body does. -/
theorem Source.Makes.laidOut (hp : A.Makes P p) (hsmall : A.Small P p) {k : Nat} {name : Bytes}
    {params : List Param} {returns : TypeName} {body : Block} (hk : A[k]? = some (.function name params returns body)) :
    ∃ f, p.functions[Source.functions (A.take k) + 1]? = some f ∧
      f.LaidOut A p ⟨params, returns.type, body.locals⟩ (body.bodyUses A k params returns.type) := by
  obtain ⟨f, N, entry, before, hf, hbefore, hd, hnew⟩ := hp.exists_function hk
  have hsplit := Source.eq_take_append hk
  have hmeant : A.Meant P p (A.take k) N := Source.Meant.nil.of_emits hbefore hsplit hsmall rfl
  have hafter := hmeant.cons hsplit hsmall hd hnew
  rw [← Source.take_succ_eq hk] at hafter
  refine ⟨f, hf, ?_⟩
  cases hd with
  | @function _ _ _ _ slot items hslot hparams hbody hreturns =>
    let L : Layout := ⟨params, returns.type, body.locals⟩
    have hsees : L.Sees A P _ (Param.environment 0 params) :=
      ⟨Param.means_scope (s := L.setting) hparams rfl, Param.named_environment (L := L) rfl⟩
    have hitems := body.performs hp rfl (hsees.append (hafter.sees (List.take_append_drop _ _).symm)) (List.prefix_refl _) hbody
    have hcode : Performs A p L (body.bodyUses A k params returns.type) (bodyCode items body.flow) := by
      rw [Block.bodyUses, bodyCode]
      refine (hitems.close 0 0).append ?_
      split
      · exact .nil
      · exact .cons rfl .leave .nil
    exact ⟨rfl, rfl, rfl, hcode⟩

theorem Source.Makes.laysOut (hp : A.Makes P p) (hsmall : A.Small P p) : A.LaysOut p := by
  obtain ⟨outputs, N, returns, number, slot, hA, hmain, hfunctions⟩ := hp.functions
  have hentry : Performs A p ⟨[], .void, []⟩ (A.entryUses [] 0 A) (entryOf outputs ++ mainCode returns number) :=
    Source.Meant.nil.performs hA rfl hsmall hp rfl hmain
  have hget : p.functions[0]? = some ⟨{}, (entryOf outputs ++ mainCode returns number).toArray⟩ := by
    rw [hfunctions]
    rfl
  exact ⟨hp.size_functions, ⟨_, hget, rfl, rfl, rfl, hentry⟩, hp.laidOut hsmall⟩

end

/-! ## Frames -/

/-- The place on the stack of a cell of the call with this frame. -/
def Layout.place (L : Layout) (frame : Frame) : Cell → Nat
  | .result => frame.argBase
  | .argument i => frame.argBase + (L.returns.slots + i)
  | .local j => frame.localBase + j

/-- If variables come right after arguments, each cell has a place of its own. -/
theorem Layout.eq_of_place_eq {L : Layout} (hframe : frame.localBase = frame.argBase + (L.returns.slots + L.params.length))
    {c' : Cell} (hc : L.Has c) (hc' : L.Has c') (h : L.place frame c = L.place frame c') : c = c' := by
  have hslots : L.returns ≠ .void → L.returns.slots = 1 := fun hreturns => if_neg hreturns
  cases c <;> cases c' <;> simp only [Layout.Has, Layout.place, Cell.argument.injEq, Cell.local.injEq,
    reduceCtorEq] at * <;> grind

section

variable {A : Source} {P : List PoolEntry} {p : Program} {L : Layout} {shape : Nat → Nat → Option Shape} {n : Nat}
variable {F : List Frame} {m' : Machine}

/-- The variables of an open call come right after its arguments. -/
theorem Based.localBase_eq {D : Nat → Declared} (hp : p.Sound D shape) {globals : Nat} {lower : List UInt64}
    (h : Based p D shape globals F lower) (hframe : frame ∈ F) :
    frame.localBase = frame.argBase + (D frame.function).arguments.length := by
  induction h with
  | entry hfunction hargBase hlocalBase =>
    obtain rfl := List.mem_singleton.1 hframe
    rw [hargBase, hlocalBase, hfunction, hp.entry.1]
    rfl
  | call hlower hoperands hreturn hs hf hargBase hargs hlocalBase hcells ih =>
    rcases List.mem_cons.1 hframe with rfl | hframe
    · obtain ⟨-, harguments, -, -⟩ := hp.callee hs
      rw [hargBase, hlocalBase, harguments, ← hargs]
      exact List.length_append
    · exact ih hframe

theorem Source.HasLayout.lengths_declared (h : A.HasLayout n L) (p : Program) :
    (A.declared p n).arguments.length = L.returns.slots + L.params.length ∧ (A.declared p n).locals.length = L.locals.length := by
  obtain ⟨k, name, params, returns, body, hk, rfl, rfl⟩ := h
  have hframe := Source.getElem?_frameTypes (A.take k) (.function name params returns body) (A.drop (k + 1)) rfl
  rw [← Source.eq_take_append hk] at hframe
  obtain ⟨harguments, hlocals⟩ := Source.declared_of_frameType p hframe
  rw [harguments, hlocals, Signature.arguments, List.length_append, List.length_map, List.length_map]
  refine ⟨?_, rfl⟩
  cases returns <;> rfl

/-- A step that pushes a slot leaves it on top of the stack, if it does not fail. -/
theorem Machine.Shows.stack_of_pushes {G : Array UInt64} {S : List UInt64} {C : Console} {x : UInt64}
    (hm : m.Shows p ⟨G, S, frame :: F, C⟩) (hf : p.functions[frame.function]? = some f) (hi : f.code[frame.pc]? = some i)
    (hpushes : Exec.Leads.Pushes (Exec.execute frame f (frame.pc + 1) i) p G (frame.next :: F) C [x])
    (hstep : m.step = (.ok (), m')) : m'.stack[m.sp]? = some x := by
  rcases Nat.lt_or_ge stackSize (S.length + 1) with hfull | hroom
  · obtain ⟨part, hleads⟩ := hpushes.overflow hfull
    obtain ⟨m'', hstep', -⟩ := hm.step hf hi hleads
    rw [hstep'] at hstep
    cases hstep
  · obtain ⟨m'', hstep', hm'⟩ := hm.step hf hi (hpushes.ok hroom)
    rw [hstep'] at hstep
    cases hstep
    have hsp : m.sp = S.length := hm.sp
    rw [hm'.getElem?_stack (n := S.length + 1) (by simp) (by omega), hsp]
    simp

/-- The instruction for the address of a cell pushes the place that the frame has for the cell. -/
theorem Source.step_address (hsize : A.yield.length < 2 ^ 60) (hsound : p.Sound (A.declared p) shape)
    {v : View} (hm : m.Shows p v)
    (hv : v.Safe p (A.declared p) shape) (hframes : m.frames = frame :: F) (hL : A.HasLayout frame.function L)
    (hf : p.functions[frame.function]? = some f) (hc : L.Has c) (hi : f.code[frame.pc]? = some (L.address c))
    (hstep : m.step = (.ok (), m')) : m'.stack[m.sp]? = some (Address.ofStack (L.place frame c)) := by
  obtain ⟨G, S, frames, C⟩ := v
  obtain ⟨-, frame', F', lower, operands, σ, hframes', hslots, hbased, -, -⟩ := hv
  obtain rfl : S = lower ++ operands := hslots
  cases hframes'
  cases hm.frames.symm.trans hframes
  obtain ⟨harguments, hlocals⟩ := hL.lengths_declared p
  have hlower : lower.length ≤ stackSize := Nat.le_trans (by simp) hm.length_le
  refine hm.stack_of_pushes hf hi ?_ hstep
  -- an argument slot is one that the header tells of
  have hargument {k : Nat} (hk : k < L.returns.slots + L.params.length) :
      Exec.Leads.Pushes (Exec.execute frame f (frame.pc + 1) (.withNat .argA k)) p G (frame.next :: F) C
        [Address.ofStack (frame.argBase + k)] := by
    obtain ⟨hheader, hplace⟩ := hbased.lt_arguments hsound hf hlower (by rwa [harguments])
    unfold stackSize at hlower
    exact Exec.Leads.pushes_execute_argA rfl (toInt_withNat (by unfold placeLimit; omega)) hheader
  cases c with
  | result =>
    have hslots : L.returns.slots = 1 := if_neg hc
    exact hargument (by omega)
  | argument i => exact hargument (Nat.add_lt_add_left hc _)
  | «local» j =>
    have hoperand : (L.address (.local j)).operand.toInt = j := by
      have := A.length_locals_declared_le p frame.function
      have hc : j < L.locals.length := hc
      exact toInt_withNat (by unfold placeLimit; omega)
    rcases Nat.lt_or_ge j f.header.locals.toNat with hj | hj
    · exact Exec.Leads.pushes_execute_locA rfl hoperand hj
    · obtain ⟨m'', hstep', -⟩ := hm.step hf hi (.execute_locA_error rfl hoperand hj)
      rw [hstep'] at hstep
      cases hstep

end

/-- The calls that are open in a machine have their cells where their layouts say. -/
structure Machine.HousesCells (A : Source) (p : Program) (m : Machine) : Prop where
  /-- No two variables of a call share a cell. -/
  apart {frame : Frame} (hframe : frame ∈ m.frames) {L : Layout} (hL : A.HasLayout frame.function L) {c c' : Cell} (hc : L.Has c)
    (hc' : L.Has c') (h : L.place frame c = L.place frame c') : c = c'
  /-- An address that a call takes of its own slots is that of a cell. -/
  address {frame : Frame} {F : List Frame} {L : Layout} {f : Function} {i : Instruction} {m' : Machine}
    (hrunning : m.halted = false)
    (hframes : m.frames = frame :: F) (hL : A.HasLayout frame.function L) (hf : p.functions[frame.function]? = some f)
    (hi : f.code[frame.pc]? = some i) (hop : i.op = .argA ∨ i.op = .locA) (hstep : m.step = (.ok (), m')) :
    ∃ c, L.Has c ∧ i = L.address c ∧ m'.stack[m.sp]? = some (Address.ofStack (L.place frame c))
  /-- A caller has pushed the slots that the header of the function tells of. -/
  call {frame : Frame} {F : List Frame} {f : Function} {i : Instruction} (hrunning : m.halted = false)
    (hframes : m.frames = frame :: F)
    (hf : p.functions[frame.function]? = some f) (hi : f.code[frame.pc]? = some i) (hop : i.op = .call) :
    ∃ (n : Nat) (g : Function), i.operand.toInt = n ∧ p.functions[n]? = some g ∧
      frame.localBase + f.header.locals.toNat + (g.header.params.toNat + g.header.returns.toNat) ≤ m.sp

section

variable {A : Source} {P : List PoolEntry} {p : Program} {L : Layout} {shape : Nat → Nat → Option Shape}

/-- An instruction for the address of an own slot is that of a cell. -/
theorem Function.LaidOut.exists_cell {uses : List Use} (h : f.LaidOut A p L uses) (hi : i ∈ f.code.toList)
    (hop : i.op = .argA ∨ i.op = .locA) : ∃ c, L.Has c ∧ i = L.address c := by
  have hsort : i.op.usesStorage = true := by rcases hop with hop | hop <;> rw [hop] <;> rfl
  have huses : Performs A p L uses f.code.toList := h.uses
  obtain ⟨use, -, hdenotes⟩ := huses.exists_thing hi hsort
  cases hdenotes with
  | result hreturns => exact ⟨.result, hreturns, rfl⟩
  | @argument i param hparam => exact ⟨.argument i, (List.getElem?_eq_some_iff.1 hparam).1, rfl⟩
  | @«local» j d hd => exact ⟨.local j, (List.getElem?_eq_some_iff.1 hd).1, rfl⟩
  | _ => rcases hop with hop | hop <;> cases hop

theorem Source.Makes.housesCells (hp : A.Makes P p) (hsize : A.yield.length < 2 ^ 60) {input : Bytes} (hm : m.Reachable p input) :
    m.HousesCells A p := by
  obtain ⟨shape, hsound⟩ := hp.exists_sound hsize
  have hsafe (hrunning : m.halted = false) : ∃ v, m.Shows p v ∧ v.Safe p (A.declared p) shape := by
    refine (hsound.isSafe_of_reachable hm).resolve_left ?_
    rw [hrunning]
    exact Bool.false_ne_true
  constructor
  case apart =>
    intro frame hframe L hL c c' hc hc' h
    obtain ⟨lower, hbased, -, -⟩ := hsound.exists_based hm
    have hplace := hbased.localBase_eq hsound hframe
    rw [(hL.lengths_declared p).1] at hplace
    exact L.eq_of_place_eq hplace hc hc' h
  case address =>
    intro frame F L f i m' hrunning hframes hL hf hi hop hstep
    obtain ⟨v, hshows, hv⟩ := hsafe hrunning
    obtain ⟨k, name, params, returns, body, hk, hnumber, rfl⟩ := id hL
    obtain ⟨f', hf', hlaid⟩ := hp.laidOut (hp.small hsize) hk
    rw [hnumber, hf'] at hf
    cases hf
    obtain ⟨c, hc, rfl⟩ := hlaid.exists_cell (Array.mem_toList_iff.2 (Array.mem_of_getElem? hi)) hop
    exact ⟨c, hc, rfl, Source.step_address hsize hsound hshows hv hframes hL (hnumber ▸ hf') hc hi hstep⟩
  case call =>
    intro frame F f i hrunning hframes hf hi hop
    obtain ⟨v, hshows, hv⟩ := hsafe hrunning
    exact hsound.call_slots hshows hv hframes hf hi hop

end

/-- In a compiled program every function is laid out as its definition says, in its header and in all its code, and no variables
of a call ever share a cell. (No text of `2 ^ 60` bytes fits into memory.) -/
theorem compile_lays_out_storage {source : Bytes} {p : Program} (hsize : source.length < 2 ^ 60) (h : compile source = .ok p) :
    (∃ A : Source, A.IsTreeOf source) ∧ ∀ A : Source, A.IsTreeOf source →
      A.LaysOut p ∧ ∀ (input : Bytes) (m : Machine), m.Reachable p input → m.HousesCells A p := by
  refine ⟨Source.exists_isTreeOf h, fun A hA => ?_⟩
  obtain ⟨P, hmakes⟩ := hA.exists_makes h
  have hyield := Nat.lt_of_le_of_lt hA.length_yield_le hsize
  exact ⟨hmakes.laysOut (hmakes.small hyield), fun input m hm => hmakes.housesCells hyield hm⟩

/-- A program with a variable that hides another, and one that is declared in code that is dropped. -/
def nested : Bytes := Bytes.ofString
  "fn f(a: int, b: int) -> int \x7b let x: int = a; \x7b const x: int = b; a = x; \x7d return x; let y: int = 1; \x7d fn main() -> void \x7b f(1, 2); \x7d"

theorem compile_lays_out_storage_nested : ∃ (p : Program) (A : Source) (f : Function) (m : Machine), compile nested =
    .ok p ∧ A.IsTreeOf nested ∧
    p.functions[1]? = some f ∧ f.header.params = 2 ∧ f.header.returns = 1 ∧ f.header.locals = 3 ∧ m.Reachable p [] ∧
    m.frames.length = 3 ∧ A.LaysOut p ∧ m.HousesCells A p := by
  have hrun : nested.length < 2 ^ 60 ∧ (compile nested).toOption.any (fun p =>
      p.functions[1]?.any (fun f => f.header.params == 2 && f.header.returns == 1 && f.header.locals == 3) &&
        ((Machine.start p []).run 0 8).1 == .running && ((Machine.start p []).run 0 8).2.frames.length == 3) = true := by
    decide +kernel
  obtain ⟨hsize, hcode⟩ := hrun
  rcases hp : compile nested with e | p
  · rw [hp] at hcode
    cases hcode
  · rw [hp] at hcode
    simp only [Except.toOption, Option.any_some, Bool.and_eq_true, beq_iff_eq, Option.any_eq_true] at hcode
    obtain ⟨⟨⟨f, hf, ⟨hparams, hreturns⟩, hlocals⟩, hrunning⟩, hframes⟩ := hcode
    obtain ⟨⟨A, hA⟩, hlays⟩ := compile_lays_out_storage hsize hp
    have hm : ((Machine.start p []).run 0 8).2.Reachable p [] := Machine.Reachable.start.run (Prod.ext hrunning rfl)
    exact ⟨p, A, f, _, rfl, hA, hf, hparams, hreturns, hlocals, hm, hframes, (hlays A hA).1, (hlays A hA).2 _ _ hm⟩

end OnePass

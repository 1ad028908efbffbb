import Mathlib.Data.List.Forall2
import OnePass.Proofs.Emission.Rules

/-!
# Traces of code

Of the code of a tree often only the instructions of some sort matter, such as those with an operand that is a place of the pool.
If branches are not among them, then those instructions stand in the code in the order of the tree, whatever way branches are
closed, and each is for something in the tree (`Traces`).
-/

namespace OnePass

/-! ## Items -/

/-- The instructions among items that are complete. -/
def Item.instructions (items : List Item) : List Instruction :=
  items.filterMap fun
    | .instr i => some i
    | .exit | .again => none

@[simp] theorem Item.instructions_append (items more : List Item) :
    instructions (items ++ more) = instructions items ++ instructions more :=
  List.filterMap_append

@[simp] theorem Item.instructions_plain (code : List Instruction) : instructions (plain code) = code := by
  simp [instructions, plain, List.filterMap_map]

/-- No branch is of the sort. -/
class Opcode.IsStraight (sort : Opcode → Bool) : Prop where
  br : sort .br = false
  brTrue : sort .brTrue = false

/-- If branches are left out, it does not matter to where they are closed. -/
theorem Item.filter_close {sort : Opcode → Bool} [hsort : Opcode.IsStraight sort] (first stop : Nat) (items : List Item) :
    (items.mapIdx (Item.close first stop)).filter (fun i => sort i.op) = (instructions items).filter fun i => sort i.op := by
  have hshift (close : Nat → Item → Instruction) (hinstr : ∀ place i, close place (.instr i) = i)
      (hexit : ∀ place, sort (close place .exit).op = false) (hagain : ∀ place, sort (close place .again).op = false) :
      (items.mapIdx close).filter (fun i => sort i.op) = (instructions items).filter fun i => sort i.op := by
    induction items generalizing close with
    | nil => rfl
    | cons item items ih =>
      have hrest := ih (fun place => close (place + 1)) (fun _ => hinstr _) (fun _ => hexit _) fun _ => hagain _
      rw [List.mapIdx_cons, List.filter_cons, hrest]
      cases item with
      | instr i =>
        rw [hinstr]
        change _ = List.filter _ (i :: instructions items)
        rw [List.filter_cons]
      | exit =>
        rw [hexit]
        rfl
      | again =>
        rw [hagain]
        rfl
  exact hshift _ (fun _ _ => rfl) (fun _ => hsort.br) fun _ => hsort.br

/-! ## Traces -/

theorem exists_mem_of_forall₂ {α β : Type} {R : α → β → Prop} {l : List α} {l' : List β} (h : List.Forall₂ R l l')
    {a : α} (ha : a ∈ l) :
    ∃ b ∈ l', R a b := by
  induction h with
  | nil => cases ha
  | cons hab _ ih =>
    rcases List.mem_cons.1 ha with rfl | ha
    · exact ⟨_, List.mem_cons_self, hab⟩
    · obtain ⟨b, hb, hr⟩ := ih ha
      exact ⟨b, List.mem_cons_of_mem _ hb, hr⟩

/-- The instructions of a sort in the code are for these things, one after another. -/
def Traces {α : Type} (sort : Opcode → Bool) (R : α → Instruction → Prop) (things : List α) (code : List Instruction) : Prop :=
  List.Forall₂ R things (code.filter fun i => sort i.op)

/-- The instructions among the items are for these things. -/
def TracesItems {α : Type} (sort : Opcode → Bool) (R : α → Instruction → Prop) (things : List α) (items : List Item) : Prop :=
  Traces sort R things (Item.instructions items)

section

variable {α : Type} {sort : Opcode → Bool} {R : α → Instruction → Prop} {things more others : List α}
  {code code' : List Instruction} {items items' : List Item}

namespace Traces

theorem nil : Traces sort R [] [] := List.Forall₂.nil

theorem append (h : Traces sort R things code) (h' : Traces sort R more code') :
    Traces sort R (things ++ more) (code ++ code') := by
  rw [Traces, List.filter_append]
  exact List.rel_append h h'

theorem silent (h : ∀ i ∈ code, sort i.op = false) : Traces sort R [] code := by
  rw [Traces, List.filter_eq_nil_iff.2 fun i hi => by simp [h i hi]]
  exact .nil

theorem append_silent (h : Traces sort R things code) (hsilent : ∀ i ∈ code', sort i.op = false) :
    Traces sort R things (code ++ code') :=
  List.append_nil things ▸ h.append (silent hsilent)

theorem cons_silent {i : Instruction} (hi : sort i.op = false) (h : Traces sort R things code) :
    Traces sort R things (i :: code) := by
  rwa [Traces, List.filter_cons_of_neg (by simp [hi])]

theorem cons {thing : α} {i : Instruction} (hi : sort i.op = true) (hthing : R thing i) (h : Traces sort R things code) :
    Traces sort R (thing :: things) (i :: code) := by
  rw [Traces, List.filter_cons_of_pos (p := fun i : Instruction => sort i.op) hi]
  exact .cons hthing h

/-- An instruction of the sort is for one of the things. -/
theorem exists_thing (h : Traces sort R things code) {i : Instruction} (hi : i ∈ code) (hsort : sort i.op = true) :
    ∃ thing ∈ things, R thing i := exists_mem_of_forall₂ (List.Forall₂.flip h) (List.mem_filter.2 ⟨hi, hsort⟩)

theorem test [hsort : Opcode.IsStraight sort] (h : Traces sort R things code) : Traces sort R things (testCode code) :=
  h.append_silent fun i hi => by rw [List.mem_singleton.1 hi, hsort.brTrue]

theorem plain (h : Traces sort R things code) : TracesItems sort R things
    (plain code) := by rwa [TracesItems, Item.instructions_plain]

end Traces

namespace TracesItems

theorem nil : TracesItems sort R [] [] := Traces.nil

theorem append (h : TracesItems sort R things items) (h' : TracesItems sort R more items') :
    TracesItems sort R (things ++ more) (items ++ items') := by
  rw [TracesItems, Item.instructions_append]
  exact .append h h'

variable [hsort : Opcode.IsStraight sort]

theorem cons_branch {distance : Int} (h : TracesItems sort R things items) :
    TracesItems sort R things (.instr (branchBy distance) :: items) := .cons_silent hsort.br h

theorem close (h : TracesItems sort R things items) (first stop : Nat) :
    Traces sort R things (items.mapIdx (Item.close first stop)) := by
  rw [Traces, Item.filter_close]
  exact h

variable (h : Traces sort R things code) (hbody : TracesItems sort R more items)

include h hbody

/-- A branch of an `if`. -/
theorem arm (hothers : TracesItems sort R others items') :
    TracesItems sort R (things ++ (more ++ others)) (armItems (testCode code) items items') := by
  rw [armItems, armHead, List.append_assoc]
  exact h.test.plain.append (hbody.append hothers.cons_branch).cons_branch

/-- A branch of an `if` after which there is none. -/
theorem only : TracesItems sort R (things ++ more) (armItems (testCode code) items []) := by
  have harm := arm h hbody nil
  rwa [List.append_nil] at harm

theorem loop (breaks : Bool) :
    TracesItems sort R (things ++ more) (plain (closedLoop (loopItems (testCode code) items breaks))) := by
  refine .plain (close ?_ _ _)
  have hback : TracesItems sort R [] (if breaks then [] else [Item.again]) := by cases breaks <;> exact .nil
  have hbody := hbody.append hback
  rw [List.append_nil] at hbody
  exact h.test.plain.append hbody

end TracesItems

end

end OnePass

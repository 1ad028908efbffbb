import OnePass.Proofs.Emission.Laws

/-!
# The layout of code

A stream holds the items of a translation in one of two forms: as they are emitted, the branches out of the loop still open
(`emitted`), and as they are once these are patched (`patched`). Patching the exits of a loop closes it (`patched_emitted`). The
items of a function's body need no patch, as there is no loop around them (`ItemLaw.fit`).
-/

namespace OnePass

variable {code : List Instruction} {place : Nat} {handles : List Nat}

@[simp] theorem plain_nil : plain [] = [] := rfl

/-- The instruction that stands for an item at a place before the loop, which starts at `first`, is closed. -/
def Item.emit (first place : Nat) : Item → Instruction
  | instr i => i
  | exit => { op := .br }
  | again => branchBy (first - (place + 1))

/-- Items from a place on, as they are emitted. -/
def emitted (first place : Nat) (items : List Item) : List Instruction :=
  (items.zipIdx place).map fun item => item.1.emit first item.2

@[simp] theorem emitted_nil (first place : Nat) : emitted first place [] = [] := rfl

theorem emitted_cons (first place : Nat) (item : Item) (items : List Item) :
    emitted first place (item :: items) = item.emit first place :: emitted first (place + 1) items := rfl

@[simp] theorem length_emitted (first place : Nat) (items : List Item) : (emitted first place items).length = items.length := by
  simp [emitted]

theorem emitted_append (first place : Nat) (items more : List Item) :
    emitted first place (items ++ more) = emitted first place items ++ emitted first (place + items.length) more := by
  simp [emitted, List.zipIdx_append]

@[simp] theorem emitted_plain (first place : Nat) (code : List Instruction) : emitted first place (plain code) = code := by
  rw [emitted, plain, List.zipIdx_map, List.map_map]
  exact List.zipIdx_map_fst ..

/-- Items from a place on, in a loop that starts and ends at these places. -/
def closedFrom (first stop place : Nat) (items : List Item) : List Instruction :=
  (items.zipIdx place).map fun item => item.1.close first stop item.2

theorem closedFrom_cons (first stop place : Nat) (item : Item) (items : List Item) :
    closedFrom first stop place (item :: items) = item.close first stop place :: closedFrom first stop (place + 1) items := rfl

@[simp] theorem length_closedFrom (first stop place : Nat) (items : List Item) :
    (closedFrom first stop place items).length = items.length := by
  simp [closedFrom]

theorem closedFrom_append (first stop place : Nat) (items more : List Item) :
    closedFrom first stop place (items ++ more) =
      closedFrom first stop place items ++ closedFrom first stop (place + items.length) more := by
  simp [closedFrom, List.zipIdx_append]

@[simp] theorem closedFrom_plain (first stop place : Nat) (code : List Instruction) :
    closedFrom first stop place (plain code) = code := by
  rw [closedFrom, plain, List.zipIdx_map, List.map_map]
  exact List.zipIdx_map_fst ..

/-- A closed loop is the same wherever it stands. -/
theorem closedLoop_eq (place : Nat) (items : List Item) :
    closedLoop items = closedFrom place (place + items.length) place items := by
  refine List.ext_getElem (by simp [closedLoop]) fun i h1 h2 => ?_
  simp only [closedLoop, closedFrom, List.getElem_mapIdx, List.getElem_map, List.getElem_zipIdx]
  have hi : i < items.length := by simpa using h2
  cases items[i] with
  | instr => rfl
  | exit => exact congrArg branchBy (by omega)
  | again => exact congrArg branchBy (by omega)

/-- The places of the branches out of the loop among items. -/
def exits (place : Nat) : List Item → List Nat
  | [] => []
  | .exit :: items => place :: exits (place + 1) items
  | _ :: items => exits (place + 1) items

theorem exits_append (place : Nat) (items more : List Item) :
    exits place (items ++ more) = exits place items ++ exits (place + items.length) more := by
  induction items generalizing place with
  | nil => rfl
  | cons item items ih =>
    rw [List.length_cons, Nat.add_comm items.length, ← Nat.add_assoc]
    cases item <;> simp [exits, ih]

@[simp] theorem exits_plain (place : Nat) (code : List Instruction) : exits place (plain code) = [] := by
  induction code generalizing place with
  | nil => rfl
  | cons i code ih => exact ih (place + 1)

theorem mem_exits {p : Nat} {items : List Item} : p ∈ exits place items ↔ (.exit, p) ∈ items.zipIdx place := by
  induction items generalizing place with
  | nil => simp [exits]
  | cons item items ih => cases item <;> simp [exits, ih]

theorem le_of_mem_exits {p : Nat} {items : List Item} (h : p ∈ exits place items) : place ≤ p ∧ p < place + items.length :=
  ⟨List.le_snd_of_mem_zipIdx (mem_exits.1 h), List.snd_lt_add_of_mem_zipIdx (mem_exits.1 h)⟩

/-! ## Patches -/

/-- Code from a place on, the branches at these handles pointed to `stop`. -/
def patched (handles : List Nat) (stop place : Nat) (code : List Instruction) : List Instruction :=
  (code.zipIdx place).map fun i => if i.2 ∈ handles then { i.1 with operand := Int64.ofInt (stop - i.2 - 1) } else i.1

theorem patched_cons (handles : List Nat) (stop place : Nat) (i : Instruction) (code : List Instruction) :
    patched handles stop place (i :: code) =
      (if place ∈ handles then { i with operand := Int64.ofInt (stop - place - 1) } else i) ::
        patched handles stop (place + 1) code := rfl

@[simp] theorem length_patched (handles : List Nat) (stop place : Nat) (code : List Instruction) :
    (patched handles stop place code).length = code.length := by
  simp [patched]

theorem patched_append (handles : List Nat) (stop place : Nat) (code more : List Instruction) :
    patched handles stop place (code ++ more) =
      patched handles stop place code ++ patched handles stop (place + code.length) more := by
  simp [patched, List.zipIdx_append]

/-- Only handles that point into the code count. -/
theorem patched_congr {handles' : List Nat} (stop : Nat)
    (h : ∀ p, place ≤ p → p < place + code.length → (p ∈ handles ↔ p ∈ handles')) :
    patched handles stop place code = patched handles' stop place code := by
  refine List.map_congr_left fun i hi => ?_
  simp only [h i.2 (List.le_snd_of_mem_zipIdx hi) (List.snd_lt_add_of_mem_zipIdx hi)]

@[simp] theorem patched_nil (stop place : Nat) (code : List Instruction) : patched [] stop place code = code := by
  simp [patched]

/-- Code that no handle points into stays as it is. -/
theorem patched_of_forall_not_mem (stop : Nat) (h : ∀ p ∈ handles, p < place ∨ place + code.length ≤ p) :
    patched handles stop place code = code := by
  refine Eq.trans (patched_congr stop fun p hp hp' => ?_) (patched_nil ..)
  simp only [List.not_mem_nil, iff_false]
  intro hmem
  have := h p hmem
  omega

/-- Patching one branch after others is patching them all. -/
theorem patched_modify (handles : List Nat) (stop handle : Nat) (code : List Instruction) :
    patched handles stop 0 (code.modify handle fun ins => { ins with operand := Int64.ofInt ((stop : Int) - handle - 1) }) =
      patched (handle :: handles) stop 0 code := by
  refine List.ext_getElem? fun i => ?_
  simp only [patched, List.getElem?_map, List.getElem?_zipIdx, List.getElem?_modify, Option.map_map]
  cases code[i]? with
  | none => simp
  | some ins =>
    by_cases hi : handle = i
    · subst hi
      by_cases hmem : handle ∈ handles <;> simp [hmem]
    · by_cases hmem : i ∈ handles <;> simp [hi, hmem, Ne.symm hi]

/-- A loop is closed when the branches out of it are patched. -/
theorem patched_emitted (first stop place : Nat) (items : List Item) :
    patched (exits place items) stop place (emitted first place items) = closedFrom first stop place items := by
  refine List.ext_getElem? fun i => ?_
  simp only [patched, emitted, closedFrom, List.getElem?_map, List.getElem?_zipIdx, Option.map_map]
  cases hitem : items[i]? with
  | none => rfl
  | some item =>
    have hmem : place + i ∈ exits place items ↔ item = .exit := by
      rw [mem_exits, List.mk_add_mem_zipIdx_iff_getElem?, hitem, Option.some_inj]
    cases item <;> simp [hmem, Item.emit, Item.close, branchBy, Int.sub_sub]

/-- The branches out of a loop are that of its condition and those noted in its body. -/
theorem mem_exits_loopItems (place : Nat) (test : List Instruction) (items : List Item) (breaks : Bool) (p : Nat) :
    p ∈ exits place (loopItems test items breaks) ↔
      p ∈ (place + test.length) :: (exits (place + test.length + 1) items).reverse := by
  have hlast : ∀ q, exits q (if breaks then [] else [.again]) = [] := by
    intro q
    cases breaks <;> rfl
  have htest : (plain test).length = test.length := List.length_map ..
  simp [loopItems, exits_append, exits, hlast, htest]

/-- Code that ends in the items of a loop, once the branches out of it are patched. -/
theorem patched_loop (code test : List Instruction) (items : List Item) (breaks : Bool) :
    patched ((code.length + test.length) :: (exits (code.length + test.length + 1) items).reverse)
        (code.length + (loopItems test items breaks).length) 0
        (code ++ emitted code.length code.length (loopItems test items breaks)) =
      code ++ closedLoop (loopItems test items breaks) := by
  have hmem (p : Nat) := mem_exits_loopItems code.length test items breaks p
  rw [patched_append, Nat.zero_add, patched_of_forall_not_mem]
  · rw [patched_congr _ fun p _ _ => (hmem p).symm, patched_emitted, ← closedLoop_eq]
  · intro p hp
    have := le_of_mem_exits ((hmem p).2 hp)
    omega

@[simp] theorem length_armHead (test : List Instruction) (body : List Item) :
    (armHead test body).length = test.length + 1 + body.length := by
  simp [armHead, plain]
  omega

theorem exits_armHead (place : Nat) (test : List Instruction) (body : List Item) :
    exits place (armHead test body) = exits (place + test.length + 1) body := by
  have hplain : (plain test).length = test.length := List.length_map ..
  simp [armHead, exits_append, exits, hplain]

/-- A branch of an `if` and the open branch at its end, once the branch past its body is patched. -/
theorem patched_armHead (code test : List Instruction) (first : Nat) (body : List Item) :
    patched [code.length + test.length] (code.length + test.length + 1 + body.length + 1) 0
        (code ++ (test ++ [{ op := .br }] ++ (emitted first (code.length + test.length + 1) body ++ [{ op := .br }]))) =
      code ++ emitted first code.length (armHead test body ++ [.instr { op := .br }]) := by
  have hbefore : patched [code.length + test.length] (code.length + test.length + 1 + body.length + 1) 0 (code ++ test) =
      code ++ test := patched_of_forall_not_mem _ fun p hp => by
    rw [List.mem_singleton.1 hp, List.length_append]
    omega
  have hafter (place : Nat) (hplace : code.length + test.length < place) (more : List Instruction) :
      patched [code.length + test.length] (code.length + test.length + 1 + body.length + 1) place more = more :=
    patched_of_forall_not_mem _ fun p hp => by
      rw [List.mem_singleton.1 hp]
      omega
  have hskip : ((code.length + test.length + 1 + body.length + 1 : Nat) : Int) - (code.length + test.length : Nat) - 1 =
      body.length + 1 := by omega
  have hassoc : code ++ (test ++ [{ op := .br }] ++ (emitted first (code.length + test.length + 1) body ++ [{ op := .br }])) =
      (code ++ test) ++ ({ op := .br } :: (emitted first (code.length + test.length + 1) body ++ [{ op := .br }])) := by simp
  rw [hassoc, patched_append, hbefore, patched_cons, hafter _ (by simp)]
  have hplain : (plain test).length = test.length := List.length_map ..
  simp only [Nat.zero_add, List.length_append, List.mem_singleton, if_true, hskip, armHead, emitted_append,
    emitted_plain, emitted_cons, emitted_nil, hplain, List.append_assoc, List.cons_append, branchBy, Item.emit]

/-- The branches at the ends of the branches of an `if` are patched together: that of one of them, and those of the others. -/
theorem patched_arm {first : Nat} {test : List Instruction} {body others : List Item} {ends : List Nat}
    (hends : ∀ p ∈ ends, place + (armHead test body).length + 1 ≤ p)
    (hcode : patched ends (place + (armHead test body).length + 1 + others.length) (place + (armHead test body).length + 1) code =
      emitted first (place + (armHead test body).length + 1) others) :
    patched ((place + (armHead test body).length) :: ends) (place + (armHead test body).length + 1 + others.length) place
        (emitted first place (armHead test body ++ [.instr { op := .br }]) ++ code) =
      emitted first place (armItems test body others) := by
  have hhead : patched ((place + (armHead test body).length) :: ends)
    (place + (armHead test body).length + 1 + others.length) place
      (emitted first place (armHead test body)) = emitted first place (armHead test body) :=
    patched_of_forall_not_mem _ fun p hp => by
      rw [length_emitted]
      rcases List.mem_cons.1 hp with rfl | hp
      · omega
      · have := hends p hp
        omega
  have hrest : patched ((place + (armHead test body).length) :: ends) (place + (armHead test body).length + 1 + others.length)
      (place + (armHead test body).length + 1) code =
      patched ends (place + (armHead test body).length + 1 + others.length) (place + (armHead test body).length + 1) code := by
    refine patched_congr _ fun p hp _ => ⟨fun hmem => ?_, List.mem_cons_of_mem _⟩
    rcases List.mem_cons.1 hmem with rfl | hmem
    · omega
    · exact hmem
  have hend : ((place + (armHead test body).length + 1 + others.length : Nat) : Int) -
    (place + (armHead test body).length : Nat) - 1 =
      others.length := by omega
  rw [emitted_append, List.append_assoc, patched_append, length_emitted, hhead]
  simp only [emitted_cons, emitted_nil, List.cons_append, List.nil_append, patched_cons, hrest, hcode, armItems,
    emitted_append, Item.emit, List.mem_cons_self, if_true, hend, branchBy]

/-! ## What items there are -/

/-- The code starts no function. -/
def Unmarked (code : List Instruction) : Prop := ∀ i ∈ code, i.op ≠ .marker

namespace Unmarked

@[simp] theorem nil : Unmarked [] := by simp [Unmarked]

@[simp] theorem cons {i : Instruction} : Unmarked (i :: code) ↔ i.op ≠ .marker ∧ Unmarked code := by
  simp [Unmarked]

@[simp] theorem append {more : List Instruction} : Unmarked (code ++ more) ↔ Unmarked code ∧ Unmarked more := by
  simp [Unmarked, or_imp, forall_and]

@[simp] theorem home_address (home : Home) : home.address.op ≠ .marker := by cases home <;> nofun

@[simp] theorem withNat (op : Opcode) (n : Nat) : (Instruction.withNat op n).op = op := rfl

end Unmarked

theorem Operator.unmarked_code {op : Operator} {left right type : ValueType} (h : op.code left right = .ok (code, type)) :
    Unmarked code := by
  cases op <;> cases left <;> cases right <;> cases h <;> simp

theorem CodeLaw.unmarked (P : List PoolEntry) (N : Scope) : CodeLaw P N Unmarked where
  nil := .nil
  append hcode hmore := .append.2 ⟨hcode, hmore⟩
  push _ := by simp
  address _ := by simp
  load := by simp
  store := by simp
  stackAlloc _ := by simp
  call _ := by simp
  callName _ := by simp
  negInt := by simp
  negDouble := by simp
  operation hop := Operator.unmarked_code hop

/-- The item can stand inside of a loop, or outside of all. -/
def Item.Fits (inLoop : Bool) : Item → Prop
  | instr i => i.op ≠ .marker
  | exit | again => inLoop = true

/-- All items can. -/
def Fit (inLoop : Bool) (items : List Item) : Prop := ∀ item ∈ items, item.Fits inLoop

namespace Fit

variable {inLoop : Bool} {items more : List Item}

@[simp] theorem nil : Fit inLoop [] := by simp [Fit]

@[simp] theorem cons {item : Item} : Fit inLoop (item :: items) ↔ item.Fits inLoop ∧ Fit inLoop items := by simp [Fit]

@[simp] theorem append : Fit inLoop (items ++ more) ↔ Fit inLoop items ∧ Fit inLoop more := by simp [Fit, or_imp, forall_and]

@[simp] theorem plain {code : List Instruction} : Fit inLoop (plain code) ↔ Unmarked code := by
  simp [Fit, OnePass.plain, Unmarked, Item.Fits]

theorem unmarked_close (h : Fit inLoop items) (first stop : Nat) : Unmarked (items.mapIdx (Item.close first stop)) := by
  intro i hi
  obtain ⟨place, hplace, rfl⟩ := List.mem_mapIdx.1 hi
  have hfits := h items[place] (List.getElem_mem _)
  cases hitem : items[place] with
  | instr i =>
    rw [hitem] at hfits
    exact hfits
  | exit => nofun
  | again => nofun

/-- Outside of all loops nothing waits for a loop to be closed. -/
theorem emitted_eq (h : Fit false items) (first place : Nat) : emitted first place items = items.mapIdx (Item.close 0 0) := by
  obtain ⟨code, rfl⟩ : ∃ code, items = OnePass.plain code := by
    induction items with
    | nil => exact ⟨[], rfl⟩
    | cons item items ih =>
      obtain ⟨hitem, hitems⟩ := cons.1 h
      obtain ⟨code, rfl⟩ := ih hitems
      cases item with
      | instr i => exact ⟨i :: code, rfl⟩
      | exit => cases hitem
      | again => cases hitem
  rw [emitted_plain]
  refine List.ext_getElem (by simp [OnePass.plain]) fun i h1 h2 => ?_
  simp [OnePass.plain, Item.close]

end Fit

theorem ItemLaw.fit {P : List PoolEntry} {returns : ValueType} :
    ItemLaw P returns fun inLoop _ _ _ _ items => Fit inLoop items where
  nil := Fit.nil
  cons _ hfirst hrest := by
    split
    · exact hfirst
    · exact Fit.append.2 ⟨hfirst, hrest⟩
  declare hd := Fit.plain.2 ((CodeLaw.unmarked ..).declaration hd)
  effect he := by
    have hcode := (CodeLaw.unmarked ..).expr _ he
    split <;> simpa using hcode
  exit := by simp [Item.Fits]
  again := by simp [Item.Fits]
  leave _ := by simp [Item.Fits]
  result _ hvalue := by simpa using (CodeLaw.unmarked ..).expr _ hvalue
  loop {_ _ _ _ test _ f items _} hcondition _ hbody := by
    have htest := (CodeLaw.unmarked ..).expr _ hcondition
    have hloop : Fit true (loopItems (testCode test) items f.breaks) := by
      cases h : f.breaks <;> simp [loopItems, testCode, htest, hbody, Item.Fits]
    exact Fit.plain.2 (hloop.unmarked_close _ _)
  arm hcondition _ hbody hothers := by
    have htest := (CodeLaw.unmarked ..).expr _ hcondition
    simp [armItems, armHead, testCode, htest, hbody, hothers, Item.Fits, branchBy]

end OnePass

import OnePass.Proofs.Binary.RoundTrip
import OnePass.Proofs.Trees
import OnePass.Proofs.Emission.Laws
import OnePass.Proofs.Emission.Sizes

/-!
# Compiled programs fit into binaries

A binary has four bytes for most operands, and it forgets which globals had no value. Neither matters to the program of a tree
that is not too long: all its instructions are `Portable`, as the places and numbers that they refer to are as few as its
terminals. So the program can be written and read back (`Source.Makes.exists_write`).
-/

namespace OnePass

variable {code : List Instruction} {x : Bytes} {A : Source}

/-- Operands of four bytes lie below this, and not below its negative. -/
def operandLimit : Nat := 2 ^ 31

/-- The instruction can be kept in a binary, and if it calls a primitive, it goes by a global that is there for that. -/
structure Instruction.Portable (P : List PoolEntry) (i : Instruction) : Prop where
  encodable : i.op.isEncodable = true
  regular : i.Regular
  routine : i.op = .callName → ∃ (slot : Nat) (f : Bytes), i.operand.toInt = slot ∧ P[slot]? = some (.primitive f)

/-- The item is an instruction that can be kept, or a branch that will be one. -/
def Item.Portable (P : List PoolEntry) : Item → Prop
  | .instr i => i.Portable P
  | .exit | .again => True

/-- Where the slot or the function is that a name stands for. -/
def Binding.place : Binding → Nat
  | .variable _ _ _ (.global n) | .variable _ _ _ (.local n) | .variable _ _ _ (.argument n) | .function _ _ n _ => n

/-- The names stand for places that an operand can name. -/
def Scope.Reachable (N : Scope) : Prop := ∀ entry ∈ N, entry.2.place < operandLimit

section

variable {P : List PoolEntry}
variable {N : Scope} {first n number slot stop : Nat} {τ : ValueType} {entry : Bytes × Binding} {items : List Item} {home : Home}
  {test : List Instruction} {d : Definition}

namespace Instruction

variable {op : Opcode}

/-- An operation without an operand. -/
theorem portable_op (h : op.isEncodable = true) (hcall : op ≠ .callName) : Portable P { op } where
  encodable := h
  regular := ⟨fun _ => show -2 ^ 31 ≤ (0 : Int64).toInt ∧ (0 : Int64).toInt < 2 ^ 31 by decide, fun _ => rfl, fun _ => rfl⟩
  routine hop := absurd hop hcall

/-- An operation with a short operand. -/
theorem portable_operand {x : Int64} (h : op.operandWidth = 4) (hcall : op ≠ .callName)
    (hx : -2 ^ 31 ≤ x.toInt ∧ x.toInt < 2 ^ 31) :
    Portable P { op, operand := x } where
  encodable := by cases op <;> first | rfl | cases h
  regular := ⟨fun _ => hx, fun hwidth => absurd (h.symm.trans hwidth) (by decide), fun _ => rfl⟩
  routine hop := absurd hop hcall

theorem portable_push (x : Int64) : Portable P { op := .push, operand := x } where
  encodable := rfl
  regular := ⟨nofun, nofun, fun _ => rfl⟩
  routine := nofun

theorem toInt_ofNat_operand (h : n < operandLimit) : (Int64.ofNat n).toInt = n :=
  Int64.toInt_ofNat_of_lt (Nat.lt_trans h (by decide))

theorem portable_withNat (h : op.operandWidth = 4) (hcall : op ≠ .callName) (hn : n < operandLimit) :
    (withNat op n).Portable P := by
  refine portable_operand h hcall ?_
  rw [toInt_ofNat_operand hn]
  unfold operandLimit at hn
  omega

theorem portable_callName {f : Bytes} (hslot : P[slot]? = some (.primitive f)) (hP : P.length ≤ operandLimit) :
    (withNat .callName slot).Portable P := by
  have hn : slot < operandLimit := Nat.lt_of_lt_of_le (List.getElem?_eq_some_iff.1 hslot).1 hP
  refine ⟨rfl, ⟨fun _ => ?_, nofun, fun _ => rfl⟩, fun _ => ⟨slot, f, toInt_ofNat_operand hn, hslot⟩⟩
  rw [withNat, toInt_ofNat_operand hn]
  unfold operandLimit at hn
  omega

theorem portable_branchBy {distance : Int} (h : -2 ^ 31 ≤ distance ∧ distance < 2 ^ 31) : (branchBy distance).Portable P := by
  refine portable_operand rfl nofun ?_
  rwa [Int64.toInt_ofInt_of_le (by omega) (by omega)]

end Instruction

open Instruction

theorem Home.portable_address {const assigned : Bool} (h : (Binding.variable τ const assigned home).place < operandLimit) :
    home.address.Portable P := by
  have hint {n : Nat} (hn : n < operandLimit) : -2 ^ 31 ≤ (Int64.ofInt n).toInt ∧ (Int64.ofInt n).toInt < 2 ^ 31 := by
    unfold operandLimit at hn
    rw [Int64.toInt_ofInt_of_le (by omega) (by omega)]
    omega
  cases home <;> exact portable_operand rfl nofun (hint h)

theorem Scope.Reachable.of_lookup (hN : N.Reachable) {binding : Binding} (h : N.lookup x = some binding) :
    binding.place < operandLimit := by
  obtain ⟨before, after, rfl, -⟩ := List.lookup_eq_some_iff.1 h
  exact hN (x, binding) (by simp)

theorem Scope.Reachable.cons (h : entry.2.place < operandLimit) (hN : N.Reachable) :
    Scope.Reachable (entry :: N) := List.forall_mem_cons.2 ⟨h, hN⟩

/-! ## Expressions -/

theorem Operator.portable_code {op : Operator} {τ1 τ2 : ValueType} (h : op.code τ1 τ2 = .ok (code, τ)) :
    ∀ i ∈ code, i.Portable P := by
  have hcode : ∀ i ∈ code, i = { op := i.op } ∧ i.op.isEncodable = true ∧ i.op ≠ .callName := by
    cases op <;> cases τ1 <;> cases τ2 <;> cases h <;> decide
  intro i hi
  obtain ⟨heq, hop, hcall⟩ := hcode i hi
  rw [heq]
  exact portable_op hop hcall

theorem ValueType.slots_lt (τ : ValueType) : τ.slots < operandLimit := by
  cases τ <;> simp [slots, operandLimit]

theorem CodeLaw.portable (hP : P.length ≤ operandLimit) (hN : N.Reachable) :
    CodeLaw P N fun code => ∀ i ∈ code, i.Portable P where
  nil := List.forall_mem_nil _
  append hcode hmore := List.forall_mem_append.2 ⟨hcode, hmore⟩
  push value := List.forall_mem_singleton.2 (portable_push value)
  address hx := List.forall_mem_singleton.2 (Home.portable_address (hN.of_lookup hx))
  load := List.forall_mem_singleton.2 (portable_op rfl nofun)
  store := List.forall_mem_singleton.2 (portable_op rfl nofun)
  stackAlloc type := List.forall_mem_singleton.2 (portable_withNat rfl nofun type.slots_lt)
  call hf := List.forall_mem_singleton.2 (portable_withNat rfl nofun (hN.of_lookup hf))
  callName hslot := List.forall_mem_singleton.2 (portable_callName (getElem?_of_idxOf? hslot) hP)
  negInt := List.forall_mem_singleton.2 (portable_op rfl nofun)
  negDouble := List.forall_mem_singleton.2 (portable_op rfl nofun)
  operation hop := Operator.portable_code hop

theorem Declaration.portable_of_emits (hP : P.length ≤ operandLimit) {N : Scope} (hN : N.Reachable)
    {d : Declaration} {home : Home}
    {code : List Instruction} (hhome : (d.entry home).2.place < operandLimit) (h : d.Emits P N home code) :
      ∀ i ∈ code, i.Portable P :=
  (CodeLaw.portable hP (hN.cons hhome)).declaration h

/-! ## Statements -/

theorem portable_plain (h : ∀ i ∈ code, i.Portable P) : ∀ item ∈ plain code, item.Portable P :=
  List.forall_mem_map.2 h

/-- Items become instructions that can be kept if the loop around them is not too long. -/
theorem Item.Portable.close {place : Nat} {item : Item} (h : item.Portable P) (hfirst : first < operandLimit)
    (hstop : stop < operandLimit) (hplace : place < operandLimit) : (item.close first stop place).Portable P := by
  unfold operandLimit at hfirst hstop hplace
  cases item with
  | instr i => exact h
  | exit => exact portable_branchBy (by omega)
  | again => exact portable_branchBy (by omega)

theorem portable_mapIdx_close (h : ∀ item ∈ items, item.Portable P) (hfirst : first < operandLimit) (hstop : stop < operandLimit)
    (hlength : items.length < operandLimit) : ∀ i ∈ items.mapIdx (Item.close first stop), i.Portable P := by
  intro i hi
  obtain ⟨place, hplace, rfl⟩ := List.mem_mapIdx.1 hi
  exact (h _ (List.getElem_mem hplace)).close hfirst hstop (Nat.lt_trans hplace hlength)

theorem portable_testCode (h : ∀ i ∈ code, i.Portable P) : ∀ i ∈ testCode code, i.Portable P :=
  List.forall_mem_append.2 ⟨h, List.forall_mem_singleton.2 (portable_operand rfl nofun (by decide))⟩

theorem length_plain_closedLoop (items : List Item) : (plain (closedLoop items)).length = items.length := by
  simp [plain, closedLoop]

theorem length_le_loopItems (test : List Instruction) (items : List Item) (breaks : Bool) :
    items.length ≤ (loopItems test items breaks).length := by
  simp only [loopItems, List.length_append, List.length_cons]
  omega

theorem Stmt.reachable_scope (hN : N.Reachable) (s : Stmt) (hn : n + s.locals.length ≤ operandLimit) :
    Scope.Reachable (s.scope n ++ N) := by
  cases s with
  | declare d =>
    have hentry : (d.entry (.local n)).2.place < operandLimit := hn
    exact hN.cons hentry
  | _ => exact hN

variable {returns : ValueType}

theorem ItemLaw.portable (hP : P.length ≤ operandLimit) : ItemLaw P returns fun _ N n ds _ items =>
    N.Reachable → n + ds.length ≤ operandLimit → items.length < operandLimit → ∀ item ∈ items, item.Portable P where
  nil _ _ _ := List.forall_mem_nil _
  cons {_ _ n _ _ _ _ first} _ hfirst hrest hN hn hlength := by
    rw [List.length_append] at hn
    by_cases hleaves : first.flow.leaves
    · rw [if_pos hleaves] at hlength ⊢
      exact hfirst hN (by omega) hlength
    · rw [if_neg hleaves, List.length_append] at hlength
      rw [if_neg hleaves]
      have hscope := first.reachable_scope (n := n) hN (by omega)
      exact List.forall_mem_append.2 ⟨hfirst hN (by omega) (by omega), hrest hscope (by omega) (by omega)⟩
  declare {_ _ n _ d} hd hN hn _ := by
    have hhome : (d.entry (.local n)).2.place < operandLimit := hn
    exact portable_plain (Declaration.portable_of_emits hP hN hhome hd)
  effect he hN _ _ := by
    refine portable_plain (List.forall_mem_append.2 ⟨(CodeLaw.portable hP hN).expr _ he, ?_⟩)
    split
    · exact List.forall_mem_nil _
    · exact List.forall_mem_singleton.2 (portable_op rfl nofun)
  exit _ _ _ := List.forall_mem_singleton.2 trivial
  again _ _ _ := List.forall_mem_singleton.2 trivial
  leave _ _ _ _ := List.forall_mem_singleton.2 (portable_op rfl nofun)
  result _ hvalue hN _ _ := by
    have hlaw := CodeLaw.portable hP hN
    have haddress : Instruction.Portable P { op := .argA } := portable_operand rfl nofun (by decide)
    have hret : Instruction.Portable P { op := .ret } := portable_op rfl nofun
    exact portable_plain (hlaw.append (hlaw.append (List.forall_mem_singleton.2 haddress) (hlaw.expr _ hvalue))
      (hlaw.append hlaw.store (List.forall_mem_singleton.2 hret)))
  loop {_ _ _ _ _ _ f _ _} hcondition _ hbody hN hn hlength := by
    rw [length_plain_closedLoop] at hlength
    have htest := portable_plain (portable_testCode ((CodeLaw.portable hP hN).expr _ hcondition))
    have hitems := hbody hN hn (Nat.lt_of_le_of_lt (length_le_loopItems _ _ _) hlength)
    have hagain : ∀ item ∈ (if f.breaks then [] else [Item.again]), item.Portable P := by cases f.breaks <;> simp [Item.Portable]
    refine portable_plain (portable_mapIdx_close ?_ (by decide) hlength hlength)
    exact List.forall_mem_append.2 ⟨htest, List.forall_mem_cons.2 ⟨trivial, List.forall_mem_append.2 ⟨hitems, hagain⟩⟩⟩
  arm {_ _ _ _ _ _ _ _ _ items others _} hcondition _ hbody hothers hN hn hlength := by
    rw [List.length_append] at hn
    rw [length_armItems] at hlength
    have htest := portable_plain (portable_testCode ((CodeLaw.portable hP hN).expr _ hcondition))
    have hitems := hbody hN (by omega) (by omega)
    have hothers := hothers hN (by omega) (by omega)
    unfold operandLimit at hlength
    have hskip : (branchBy (items.length + 1)).Portable P := portable_branchBy (by omega)
    have hover : (branchBy others.length).Portable P := portable_branchBy (by omega)
    exact List.forall_mem_append.2 ⟨List.forall_mem_append.2 ⟨htest, List.forall_mem_cons.2 ⟨hskip, hitems⟩⟩,
      List.forall_mem_cons.2 ⟨hover, hothers⟩⟩

/-! ## Definitions -/

theorem Param.reachable_scope {params : List Param} (h : slot + params.length ≤ operandLimit) :
    (Param.scope slot params).Reachable := by
  induction params generalizing slot with
  | nil => exact List.forall_mem_nil _
  | cons param params ih =>
    rw [List.length_cons] at h
    exact List.forall_mem_append.2 ⟨ih (by omega), List.forall_mem_singleton.2 (show slot < operandLimit by omega)⟩

theorem Definition.Emits.reachable_entry {output : Output} (h : d.Emits P N number output entry) (hP : P.length ≤ operandLimit)
    (hnumber : number + d.functions ≤ operandLimit) : entry.2.place < operandLimit := by
  cases h with
  | function => exact hnumber
  | «global» hslot hd => exact Nat.lt_of_lt_of_le (List.getElem?_eq_some_iff.1 hslot).1 hP

/-- Going through definitions, the names stay reachable, and the code of the entry routine can be kept. -/
theorem Source.Emits.portable_entryOf {N' : Scope} {ds : Source} {outputs : List Output} (h : ds.Emits P N number outputs N')
    (hP : P.length ≤ operandLimit) (hN : N.Reachable) (hnumber : number + ds.functions ≤ operandLimit) :
    N'.Reachable ∧ ∀ i ∈ entryOf outputs, i.Portable P := by
  induction h with
  | nil => exact ⟨hN, List.forall_mem_nil _⟩
  | @cons N N' number d ds output outputs entry hd hnew hds ih =>
    rw [Source.functions] at hnumber
    have hentry := hd.reachable_entry hP (by omega)
    obtain ⟨hN', hcode⟩ := ih (hN.cons hentry) (by omega)
    refine ⟨hN', ?_⟩
    cases hd with
    | function => exact hcode
    | «global» hslot hd => exact List.forall_mem_append.2 ⟨Declaration.portable_of_emits hP hN hentry hd, hcode⟩

theorem portable_mainCode (h : number < operandLimit) : ∀ i ∈ mainCode returns number, i.Portable P := by
  have halloc : (withNat .stackAlloc returns.slots).Portable P := portable_withNat rfl nofun returns.slots_lt
  have hcall : (withNat .call number).Portable P := portable_withNat rfl nofun h
  have hpop : (withNat .popN returns.slots).Portable P := portable_withNat rfl nofun returns.slots_lt
  refine List.forall_mem_append.2 ⟨List.forall_mem_cons.2 ⟨halloc, List.forall_mem_singleton.2 hcall⟩, ?_⟩
  split
  · exact List.forall_mem_nil _
  · exact List.forall_mem_singleton.2 hpop

theorem Definition.Emits.portable_code {f : Function} (h : d.Emits P N number (.function f) entry) (hP : P.length ≤ operandLimit)
    (hN : N.Reachable) (hnumber : number + d.functions ≤ operandLimit) (hyield : d.yield.length < operandLimit)
    (hsize : f.code.size < operandLimit) : ∀ i ∈ f.code.toList, i.Portable P := by
  have hentry := h.reachable_entry hP hnumber
  cases h with
  | @function name params returns body slot items hslot hparams hbody hreturns =>
    have hlength := Definition.length_function_le name params returns body
    have hslots : returns.type.slots ≤ 1 := by cases returns <;> decide
    have hscope : Scope.Reachable (Param.scope returns.type.slots params ++
        (name, .function (params.map (·.type.type)) returns.type number slot) :: N) :=
      List.forall_mem_append.2 ⟨Param.reachable_scope (by omega), hN.cons hentry⟩
    have hle : items.length < operandLimit := by
      simp only [List.size_toArray, bodyCode, List.length_append, List.length_mapIdx] at hsize
      omega
    have hitems := (ItemLaw.portable hP).block body hbody hscope (by omega) hle
    refine List.forall_mem_append.2 ⟨portable_mapIdx_close hitems (by decide) (by decide) hle, ?_⟩
    split
    · exact List.forall_mem_nil _
    · exact List.forall_mem_singleton.2 (portable_op rfl (by decide))

variable {A : Source} {p : Program}

/-- Every instruction of the program of a tree can be kept in a binary. -/
theorem Source.Makes.portable_code (h : A.Makes P p) (hsize : A.yield.length < 2 ^ 28) {k : Nat} {f : Function}
    (hf : p.functions[k]? = some f) : ∀ i ∈ f.code.toList, i.Portable P := by
  have hpool := h.length_pool_le
  have hcode := h.size_code_le hf
  have hfunctions := A.functions_le
  have hP : P.length ≤ operandLimit := by unfold operandLimit; omega
  cases k with
  | zero =>
    obtain ⟨outputs, N, returns, number, slot, hA, hmain, rfl⟩ := h.exists_entry hf
    obtain ⟨hN, hentry⟩ := hA.portable_entryOf hP (List.forall_mem_nil _) (by unfold operandLimit; omega)
    exact List.forall_mem_append.2 ⟨hentry, portable_mainCode (hN.of_lookup hmain)⟩
  | succ k =>
    obtain ⟨pre, d, post, outputs, N, entry, rfl, hpre, rfl, hd, -⟩ := h.exists_definition hf
    rw [Source.functions_append, Source.functions] at hfunctions
    rw [Source.yield_append, Source.yield_cons, List.length_append, List.length_append] at hsize hcode hfunctions
    obtain ⟨hN, -⟩ := hpre.portable_entryOf hP (List.forall_mem_nil _) (by unfold operandLimit; omega)
    unfold operandLimit at hP
    exact hd.portable_code hP hN (by unfold operandLimit; omega) (by unfold operandLimit; omega) (by unfold operandLimit; omega)

end

/-! ## Payloads -/

/-- No literal in the tree and no name of a function is longer than a binary may have it. -/
structure Source.ShortTexts (A : Source) : Prop where
  literal {quote : Quote} {content : Bytes} (h : Terminal.text quote content ∈ A.yield) : content.length ≤ 2 ^ 24
  name {name : Bytes} {params : List Param} {returns : TypeName} {body : Block}
    (h : Definition.function name params returns body ∈ A) :
    name.length ≤ 2 ^ 24

/-- The texts in a tree are those of the tokens of its source. -/
theorem Source.IsTreeOf.shortTexts {source : Bytes} (hA : A.IsTreeOf source)
    (h : ∀ t ∈ (lex source).1, t.lexeme.length ≤ 2 ^ 24) :
    A.ShortTexts := by
  have hmem {terminal : Terminal} (hterminal : terminal ∈ A.yield) : ∃ t ∈ (lex source).1, t.terminal = terminal := by
    rw [← List.mem_map, hA.tokens]
    exact List.mem_append_left _ hterminal
  refine ⟨fun {quote content} htext => ?_, fun {name params returns body} hd => ?_⟩
  · obtain ⟨t, ht, hterminal⟩ := hmem htext
    rw [← Token.lexeme_of_text hterminal]
    exact h t ht
  · have hname : Terminal.name name ∈ A.yield := List.mem_flatMap.2 ⟨_, hd, by simp [Definition.yield]⟩
    obtain ⟨t, ht, hterminal⟩ := hmem hname
    rw [← Token.lexeme_of_name hterminal]
    exact h t ht

theorem Primitive.length_le_of_ofName? {primitive : Primitive} (h : ofName? x = some primitive) : x.length ≤ 2 ^ 24 := by
  have hname := List.find?_some h
  rw [← beq_iff_eq.1 hname]
  cases primitive <;> decide

theorem Source.ShortTexts.length_payload_le (h : A.ShortTexts) {entry : PoolEntry} (hentry : entry ∈ A.entries) :
    entry.global.payload.length ≤ 2 ^ 24 := by
  rcases List.mem_cons.1 hentry with rfl | hentry
  · decide
  · obtain ⟨d, hd, hentry⟩ := List.mem_flatMap.1 hentry
    rcases List.mem_cons.1 hentry with rfl | hentry
    · cases d with
      | function => exact h.name hd
      | «global» d => simp [Definition.head, PoolEntry.global, Global.payload, slotSize]
    · obtain ⟨t, ht, hentry⟩ := List.mem_filterMap.1 hentry
      cases t with
      | text quote content =>
        cases hentry
        exact h.literal (List.mem_flatMap.2 ⟨d, hd, ht⟩)
      | name x =>
        rw [Terminal.entry?] at hentry
        split at hentry
        · rename_i hprimitive
          obtain ⟨primitive, hprimitive⟩ := Option.isSome_iff_exists.1 hprimitive
          cases hentry
          exact Primitive.length_le_of_ofName? hprimitive
        · cases hentry
      | _ => cases hentry

/-! ## Programs -/

namespace Binary

theorem exists_writeCode (h : ∀ i ∈ code, i.op.isEncodable = true) (function place : Nat) :
    ∃ b, writeCode function place code = .ok b := by
  induction code generalizing place with
  | nil => exact ⟨_, rfl⟩
  | cons i code ih =>
    obtain ⟨hi, hcode⟩ := List.forall_mem_cons.1 h
    obtain ⟨tail, htail⟩ := ih hcode (place + 1)
    rw [writeCode, if_pos hi, htail]
    exact ⟨_, rfl⟩

theorem exists_writeFunctions {fs : List Function} (h : ∀ f ∈ fs, ∀ i ∈ f.code.toList, i.op.isEncodable = true) (place : Nat) :
    ∃ b, writeFunctions place fs = .ok b := by
  induction fs generalizing place with
  | nil => exact ⟨_, rfl⟩
  | cons f fs ih =>
    obtain ⟨hf, hfs⟩ := List.forall_mem_cons.1 h
    obtain ⟨code, hcode⟩ := exists_writeCode hf place 0
    obtain ⟨tail, htail⟩ := ih hfs (place + 1)
    rw [writeFunctions, hcode, htail]
    exact ⟨_, rfl⟩

end Binary

section

variable {P : List PoolEntry} {A : Source} {p : Program}

theorem Source.Makes.regular (h : A.Makes P p) (hsize : A.yield.length < 2 ^ 28) (htexts : A.ShortTexts) :
    p.Regular ∧ ∀ g ∈ p.globals, g.payload.length ≤ 2 ^ 24 := by
  have hpayloads : ∀ g ∈ p.globals, g.payload.length ≤ 2 ^ 24 := by
    intro g hg
    rw [h.globals, List.mem_toArray] at hg
    obtain ⟨entry, hentry, rfl⟩ := List.mem_map.1 hg
    exact htexts.length_payload_le (h.pool.subset hentry)
  have hpool := h.length_pool_le
  have hfunctions := A.functions_le
  refine ⟨⟨?_, fun g hg => Nat.lt_of_le_of_lt (hpayloads g hg) (by decide), ?_, fun f hf => ?_⟩, hpayloads⟩
  · rw [h.globals, List.size_toArray, List.length_map]
    omega
  · rw [h.size_functions]
    omega
  · obtain ⟨k, hk, rfl⟩ := Array.mem_iff_getElem.1 hf
    have hget := Array.getElem?_eq_getElem hk
    have hcode := h.size_code_le hget
    exact ⟨by omega, fun i hi => (h.portable_code hsize hget i (Array.mem_toList_iff.2 hi)).regular⟩

/-- The program of a tree can be written, and reading gives it back but for what no binary keeps. -/
theorem Source.Makes.exists_write (h : A.Makes P p) (hsize : A.yield.length < 2 ^ 28) (htexts : A.ShortTexts) :
    ∃ b, Binary.write p = .ok b ∧ Binary.read b = .ok p.erased := by
  obtain ⟨hregular, hpayloads⟩ := h.regular hsize htexts
  have hencodable : ∀ f ∈ p.functions.toList, ∀ i ∈ f.code.toList, i.op.isEncodable = true := by
    intro f hf i hi
    obtain ⟨k, hk⟩ := List.mem_iff_getElem?.1 hf
    exact (h.portable_code hsize (Array.getElem?_toList ▸ hk) i hi).encodable
  obtain ⟨functions, hfunctions⟩ := Binary.exists_writeFunctions hencodable 0
  have hwrite := Binary.write_ok_iff.2 ⟨functions, hfunctions, rfl⟩
  exact ⟨_, hwrite, Binary.read_of_write hregular hpayloads hwrite⟩

end

end OnePass

import OnePass.Proofs.Safety.Frames

/-!
# Steps of a sound program

Every instruction of a sound program, executed in a safe view, leads to a safe view again or to one of a few faults
(`Program.Sound.execute`), and does to the stack what `View.Moves` says. One that succeeds leaves all operands but those that it
takes in their places (`View.Works`).
-/

namespace OnePass

open Exec.Leads

variable {n : Nat} {i : Instruction}

/-- The faults that a sound program can run into. -/
inductive MachineFault.Expected (p : Program) (D : Nat → Declared) : MachineFault → Prop where
  | stackOverflow : Expected p D .stackOverflow
  | divideByZero : Expected p D .divideByZero
  | input {primitive : Primitive} {e : InputError} (h : primitive = .getint ∨ primitive = .getdouble) :
      Expected p D (.input primitive e)
  | noText {index : UInt64} (h : p.globals.size ≤ index.toNat) : Expected p D (.noText index)
  /-- The header of a function has no room for the number of its locals. -/
  | noLocal {k : Nat} {operand : Int} (h : 2 ^ 32 ≤ (D k).locals.length) : Expected p D (.noLocal operand)

section

variable (p : Program) (D : Nat → Declared) (shape : Nat → Nat → Option Shape)

/-- A call of a sound program, its frame and those of its callers being the lower part of the stack. -/
structure Standing (G : Array UInt64) (frame : Frame) (F : List Frame) (f : Function) (lower : List UInt64) : Prop where
  sound : p.Sound D shape
  globals : G.size = p.globals.size
  based : Based p D shape p.globals.size (frame :: F) lower
  function : p.functions[frame.function]? = some f

/-- The operation pushes an address. -/
def Opcode.isAddress : Opcode → Bool
  | globA | locA | argA => true
  | _ => false

/-- If the instruction pushes an address, it is the slot on top. -/
structure Instruction.Puts (i : Instruction) (top : List UInt64) : Prop where
  global {n : Nat} (hop : i.op = .globA) (hn : i.operand.toInt = n) : top = [Address.ofGlobal n]
  own (hop : i.op = .locA ∨ i.op = .argA) : ∃ n < 2 ^ 62, top = [Address.ofStack n]

theorem Instruction.Puts.of_isAddress {top : List UInt64} (h : i.op.isAddress = false) : i.Puts top where
  global hop := by rw [hop] at h; cases h
  own hop := by rcases hop with hop | hop <;> rw [hop] at h <;> cases h

theorem Instruction.Puts.of_own (h : i.op = .locA ∨ i.op = .argA) (hn : n < 2 ^ 62) : i.Puts [Address.ofStack n] where
  global hop := by rw [hop] at h; rcases h with h | h <;> cases h
  own _ := ⟨n, hn, rfl⟩

theorem Instruction.Puts.of_globA (h : i.op = .globA) (hn : i.operand.toInt = n) : i.Puts [Address.ofGlobal n] where
  global {m} _ hm := by
    obtain rfl : n = m := Int.ofNat.inj (hn.symm.trans hm)
    rfl
  own hop := by rw [h] at hop; rcases hop with hop | hop <;> cases hop

/-- An instruction changes the globals only by a store, of the value on top to the address beneath it. -/
def Instruction.Sets (i : Instruction) (top : List UInt64) (G G' : Array UInt64) : Prop :=
  G' = G ∨ i.op = .store ∧ ∃ n x, top = [Address.ofGlobal n] ++ [x] ∧ G' = G.modify n fun _ => x

/-- The call is about to execute an instruction. What this takes is on top of the stack, and the other operands are beneath. -/
structure Executing (G : Array UInt64) (frame : Frame) (F : List Frame) (f : Function) (lower base top : List UInt64)
    (i : Instruction) (takes gives rest : Shape) : Prop extends Standing p D shape G frame F f lower where
  instruction : f.code[frame.pc]? = some i
  place : shape frame.function frame.pc = some (takes ++ rest)
  steps : i.Steps (D frame.function) (shape frame.function) frame.pc takes gives rest
  others : Operands p.globals.size frame.argBase lower.length base rest
  taken : Operands p.globals.size frame.argBase lower.length top takes

/-- What an instruction that succeeds does: what it does not take stays in its place, with what it gives above it. -/
inductive View.Works : View → View → Prop where
  | stay {G G' lower base top frame F C C' f i takes gives rest pc} {lower' top' : List UInt64}
    (h : Executing p D shape G frame F f lower base top i takes gives rest) (hlower : lower'.length = lower.length)
    (hbelow : lower'.take frame.argBase = lower.take frame.argBase) (hgo : i.Goes frame.pc pc)
    (hgives : top'.length = gives.length) (hputs : i.Puts top') (hsets : i.Sets top G G') :
    Works ⟨G, lower ++ base ++ top, frame :: F, C⟩ ⟨G', lower' ++ base ++ top', { frame with pc } :: F, C'⟩
  | call {G lower base top cells frame F C f i rest} {callee : Frame} {s : Signature}
    (h : Executing p D shape G frame F f lower base top i s.takes s.gives rest) (hop : i.op = .call)
    (hcallee : i.operand.toInt = callee.function) (hpc : callee.pc = 0)
    (hs : (D frame.function).callee callee.function = some s) :
    Works ⟨G, lower ++ base ++ top, frame :: F, C⟩ ⟨G, lower ++ base ++ top ++ cells, callee :: frame.next :: F, C⟩
  | ret {G lower frame caller F C f i} {S : List UInt64}
    (h : Executing p D shape G frame (caller :: F) f lower [] [] i [] [] []) (hop : i.op = .ret)
    (hbelow : S.take frame.argBase = lower.take frame.argBase) :
    Works ⟨G, lower, frame :: caller :: F, C⟩ ⟨G, S, caller :: F, C⟩

/-- A step from a view with this result to another is one of a sound program. -/
structure View.Outcome (u : View) (r : Except MachineFault Unit) (v : View) : Prop where
  safe (h : r = .ok ()) : v.Safe p D shape
  fault {e : MachineFault} (h : r = .error e) : e.Expected p D
  moves : u.Moves p v
  works (h : r = .ok ()) : u.Works p D shape v

/-- Executing an instruction in this view, of which the program counter has been moved on already, leads to an outcome. -/
def Exec.Proceeds (x : Exec Unit) (G : Array UInt64) (S : List UInt64) (frame : Frame) (F : List Frame) (C : Console) : Prop :=
  ∃ r v, Exec.Leads x p ⟨G, S, frame.next :: F, C⟩ r v ∧ View.Outcome p D shape ⟨G, S, frame :: F, C⟩ r v

end

section

variable {p : Program} {D : Nat → Declared} {shape : Nat → Nat → Option Shape} {G : Array UInt64} {frame : Frame} {F : List Frame}
  {C : Console} {f : Function} {lower operands base top : List UInt64} {takes gives rest : Shape}
    {i : Instruction} {x : Exec Unit}
variable {C' : Console} {pc : Nat} {G' : Array UInt64} {e : MachineFault} {op : Opcode}

namespace Standing

theorem length_eq (h : Standing p D shape G frame F f lower) : lower.length = frame.localBase + f.header.locals.toNat :=
  h.based.length_eq h.sound h.function

theorem take_argBase (h : Standing p D shape G frame F f lower) (more : List UInt64) :
    (lower ++ more).take frame.argBase = lower.take frame.argBase := by
  have := h.length_eq
  have := h.based.argBase_le
  exact List.take_append_of_le_length (by omega)

/-- The innermost call runs into a fault. -/
theorem stop {operands' : List UInt64} (h : Standing p D shape G frame F f lower) (he : e.Expected p D) :
    View.Outcome p D shape ⟨G, lower ++ operands, frame :: F, C⟩ (.error e)
      ⟨G', lower ++ operands', { frame with pc } :: F, C'⟩ where
  safe := nofun
  fault h := by cases h; exact he
  moves := by
    refine .stay pc h.function ?_ ?_
    · rw [h.take_argBase, h.take_argBase]
    · rw [← h.length_eq, List.length_append]
      exact Nat.le_add_right ..
  works := nofun

end Standing

/-! ## Instructions on operands -/

namespace Executing

/-- The instruction that the call is about to execute leads to an outcome. -/
abbrev Proceeds (_ : Executing p D shape G frame F f lower base top i takes gives rest) (C : Console) : Prop :=
  (Exec.execute frame f (frame.pc + 1) i).Proceeds p D shape G (lower ++ base ++ top) frame F C

/-- The innermost call goes on. -/
theorem stay {G' : Array UInt64} {C' : Console} {lower' top' : List UInt64} {pc : Nat}
    (h : Executing p D shape G frame F f lower base top i takes gives rest) (h' : Standing p D shape G' frame F f lower')
    (hlower : lower'.length = lower.length) (hbelow : lower'.take frame.argBase = lower.take frame.argBase)
    (hgo : i.Goes frame.pc pc)
    (htop : Operands p.globals.size frame.argBase lower.length top' gives) (hputs : i.Puts top') (hsets : i.Sets top G G') :
    View.Outcome p D shape ⟨G, lower ++ base ++ top, frame :: F, C⟩ (.ok ())
      ⟨G', lower' ++ base ++ top', { frame with pc } :: F, C'⟩ where
  safe _ := by
    refine ⟨h'.globals, { frame with pc }, F, lower', base ++ top', gives ++ rest, rfl, List.append_assoc ..,
      h'.based.jump pc, ?_, ?_⟩
    · rw [hlower]
      exact h.others.append htop
    · exact h.steps.next hgo
  fault := nofun
  moves := by
    refine .stay pc h.function ?_ ?_
    · rw [List.append_assoc, List.append_assoc, h.take_argBase, h'.take_argBase, hbelow]
    · rw [← h'.length_eq, List.append_assoc, List.length_append]
      exact Nat.le_add_right ..
  works _ := .stay h hlower hbelow hgo htop.length_eq hputs hsets

/-- The same where the instruction gives nothing. -/
theorem drop {lower' : List UInt64} (h : Executing p D shape G frame F f lower base top i takes [] rest)
    (h' : Standing p D shape G' frame F f lower') (hlower : lower'.length = lower.length)
    (hbelow : lower'.take frame.argBase = lower.take frame.argBase) (hgo : i.Goes frame.pc pc) (hop : i.op.isAddress = false)
    (hsets : i.Sets top G G') :
    View.Outcome p D shape ⟨G, lower ++ base ++ top, frame :: F, C⟩ (.ok ())
      ⟨G', lower' ++ base, { frame with pc } :: F, C'⟩ := by
  have houtcome : View.Outcome p D shape ⟨G, lower ++ base ++ top, frame :: F, C⟩ (.ok ())
      ⟨G', lower' ++ base ++ [], { frame with pc } :: F, C'⟩ := h.stay h' hlower hbelow hgo .nil (.of_isAddress hop) hsets
  rwa [List.append_nil] at houtcome

/-- An instruction that goes on behind itself, with other operands on top. -/
theorem replace {top' : List UInt64} (h : Executing p D shape G frame F f lower base top i takes gives rest)
    (hop : i.op.isOrdinary = true) (htop : Operands p.globals.size frame.argBase lower.length top' gives) (hputs : i.Puts top')
    (hx : Exec.Leads x p ⟨G, lower ++ base ++ top, frame.next :: F, C⟩ (.ok ())
      ⟨G, lower ++ base ++ top', frame.next :: F, C'⟩) : x.Proceeds p D shape G (lower ++ base ++ top) frame F C :=
  ⟨_, _, hx, h.stay h.toStanding rfl rfl ((Instruction.goes_iff_of_isOrdinary hop).2 rfl) htop hputs (.inl rfl)⟩

/-- An instruction that pushes operands. -/
theorem push {more : List UInt64} (h : Executing p D shape G frame F f lower base [] i [] gives rest)
    (hop : i.op.isOrdinary = true) (hmore : Operands p.globals.size frame.argBase lower.length more gives) (hputs : i.Puts more)
    (hx : Exec.Leads.Pushes x p G (frame.next :: F) C more) :
    x.Proceeds p D shape G (lower ++ base ++ []) frame F C := by
  rcases Nat.lt_or_ge stackSize ((lower ++ base).length + more.length) with hfull | hroom
  · obtain ⟨part, hpart⟩ := hx.overflow hfull
    refine ⟨_, _, by rw [List.append_nil]; exact hpart, ?_⟩
    rw [List.append_assoc, List.append_assoc]
    exact h.stop .stackOverflow
  · exact h.replace hop hmore hputs (by rw [List.append_nil]; exact hx.ok hroom)

/-- The target of a branch is a place of the function, or its end. -/
theorem exists_target (h : Executing p D shape G frame F f lower base top i takes gives rest)
    (hop : i.op = .br ∨ i.op = .brTrue) :
    ∃ target : Nat, (Int64.ofNat (frame.pc + 1) + i.operand).toInt = target ∧ target ≤ f.code.size ∧ i.Goes frame.pc target := by
  obtain ⟨target, htarget⟩ := h.steps.target hop
  have hgo : i.Goes frame.pc target := by
    unfold Instruction.Goes
    rcases hop with hop | hop <;> simp only [hop]
    · exact htarget
    · exact .inr htarget
  have hsize := h.sound.size h.function
  have hpc := (Array.getElem?_eq_some_iff.1 h.instruction).1
  have hle : target ≤ f.code.size := by
    rcases (h.sound.shaped h.function).inside (h.steps.next hgo) with hlt | ⟨-, heq, -⟩ <;> omega
  refine ⟨target, ?_, hle, hgo⟩
  unfold placeLimit at hsize
  rw [Int64.toInt_add, Int64.toInt_ofNat_of_lt (by omega), show ((frame.pc + 1 : Nat) : Int) + i.operand.toInt = target by omega]
  exact Int.bmod_eq_of_le (by omega) (by omega)

/-- An instruction that only takes operands, and may branch. -/
theorem branch (h : Executing p D shape G frame F f lower base top i takes [] rest) (hop : i.op.isAddress = false)
    (hgo : i.Goes frame.pc pc) (hx : Exec.Leads x p ⟨G, lower ++ base ++ top, frame.next :: F, C⟩ (.ok ())
      ⟨G, lower ++ base, { frame with pc } :: F, C⟩) : x.Proceeds p D shape G (lower ++ base ++ top) frame F C :=
  ⟨_, _, hx, h.drop h.toStanding rfl rfl hgo hop (.inl rfl)⟩

end Executing

/-- What an operation that needs no declaration is. -/
theorem Opcode.effect?_cases (h : op.effect? = some (takes, gives)) :
    (∃ g k k', op.unary? = some g ∧ takes = [k] ∧ gives = [k'] ∧ k'.IsValue) ∨
      (∃ g k1 k2 k', op.binary? = some g ∧ takes = [k2, k1] ∧ gives = [k'] ∧ k'.IsValue) ∨
      (op = .divI ∧ takes = [.int, .int] ∧ gives = [.int]) ∨ (op = .br ∧ takes = [] ∧ gives = []) := by
  cases op <;> cases h <;> simp [Opcode.unary?, Opcode.binary?, Kind.IsValue]

theorem Opcode.isAddress_of_effect? (h : op.effect? = some (takes, gives)) : op.isAddress = false := by
  cases op <;> first | rfl | cases h

namespace Executing

variable {a k : Kind} {first stop : Nat} {τ : ValueType} {primitive : Primitive} {s : Signature} {args : List UInt64}

/-- An operation that needs no declaration. -/
theorem fixed (h : Executing p D shape G frame F f lower base top i takes gives rest)
    (heffect : i.op.effect? = some (takes, gives)) :
    h.Proceeds C := by
  have hputs {top' : List UInt64} : i.Puts top' := .of_isAddress (Opcode.isAddress_of_effect? heffect)
  rcases Opcode.effect?_cases heffect with ⟨g, k, k', hop, rfl, rfl, hk'⟩ | ⟨g, k1, k2, k', hop, rfl, rfl, hk'⟩ | ⟨hop,
    rfl, rfl⟩ | ⟨hop, rfl, rfl⟩
  · obtain ⟨x, rfl, -⟩ := h.taken.exists_one
    have hordinary : i.op.isOrdinary = true := by cases hi : i.op <;> rw [hi] at hop <;> cases hop <;> rfl
    exact h.replace hordinary (.one (hk'.holds ..)) hputs (execute_unary hop)
  · obtain ⟨x, y, rfl, -, -⟩ := h.taken.exists_two
    have hordinary : i.op.isOrdinary = true := by cases hi : i.op <;> rw [hi] at hop <;> cases hop <;> rfl
    exact h.replace hordinary (.one (hk'.holds ..)) hputs (by rw [← List.append_assoc]; exact execute_binary hop)
  · obtain ⟨x, y, rfl, -, -⟩ := h.taken.exists_two
    by_cases hy : y = 0
    · subst hy
      refine ⟨_, _, by rw [← List.append_assoc]; exact execute_divI_zero hop, ?_⟩
      rw [List.append_assoc]
      exact h.stop .divideByZero
    · have hint := Kind.IsValue.holds (.inl rfl) p.globals.size frame.argBase lower.length (x.toInt64 / y.toInt64).toUInt64
      exact h.replace (hop ▸ rfl) (.one hint) hputs (by rw [← List.append_assoc]; exact execute_divI hop hy)
  · obtain ⟨target, htarget, hle, hgo⟩ := h.exists_target (.inl hop)
    obtain rfl := List.length_eq_zero_iff.1 h.taken.length_eq
    exact h.branch (hop ▸ rfl) hgo (by rw [List.append_nil]; exact execute_br hop htarget hle)

theorem brTrue (h : Executing p D shape G frame F f lower base top i [k] [] rest) (hop : i.op = .brTrue) : h.Proceeds C := by
  obtain ⟨x, rfl, -⟩ := h.taken.exists_one
  by_cases hx : x = 0
  · subst hx
    have hgo : i.Goes frame.pc (frame.pc + 1) := by
      unfold Instruction.Goes
      simp only [hop]
      exact .inl trivial
    exact h.branch (hop ▸ rfl) hgo (execute_brTrue_zero hop)
  · obtain ⟨target, htarget, hle, hgo⟩ := h.exists_target (.inr hop)
    exact h.branch (hop ▸ rfl) hgo (execute_brTrue hop hx htarget hle)

/-! ## Variables -/

/-- Where an address of a variable points. -/
theorem of_locates {address : UInt64} (ha : a.Locates k) (h : a.Holds p.globals.size first stop address) :
    (∃ n < p.globals.size, address = Address.ofGlobal n) ∨ ∃ n, first ≤ n ∧ n < stop ∧ address = Address.ofStack n := by
  rcases ha with ⟨rfl, -⟩ | ⟨rfl, -⟩ <;> exact h

theorem load (h : Executing p D shape G frame F f lower base top i [a] [k] rest) (hop : i.op = .load) (ha : a.Locates k)
    (hlength : lower.length ≤ stackSize) :
    h.Proceeds C := by
  obtain ⟨address, rfl, haddress⟩ := h.taken.exists_one
  have hk : k.IsValue := by rcases ha with ⟨-, rfl⟩ | ⟨-, rfl⟩ <;> simp [Kind.IsValue]
  obtain ⟨x, hread⟩ : ∃ x, Exec.Leads (Exec.read address) p ⟨G, lower ++ base, frame.next :: F, C⟩ (.ok x)
      ⟨G, lower ++ base, frame.next :: F, C⟩ := by
    rcases of_locates ha haddress with ⟨n, hn, rfl⟩ | ⟨n, -, hn, rfl⟩
    · have hsmall : n < 2 ^ 62 := Nat.lt_trans hn h.sound.globals
      have hget : G[n]? = some (G.getD n 0) := by simp [h.globals, hn]
      exact ⟨_, read_global (Address.region_ofGlobal hsmall) (by rw [Address.index_ofGlobal hsmall]; exact hget)⟩
    · have hsmall : n < 2 ^ 62 := by unfold stackSize at hlength; omega
      have hget : (lower ++ base)[n]? = some lower[n] := by rw [List.getElem?_append_left hn, List.getElem?_eq_getElem hn]
      exact ⟨_, read_stack (Address.region_ofStack hsmall) (by rw [Address.index_ofStack hsmall]; exact hget)⟩
  exact h.replace (hop ▸ rfl) (.one (hk.holds ..)) (.of_isAddress (hop ▸ rfl)) (execute_load hop hread)

theorem store (h : Executing p D shape G frame F f lower base top i [k, a] [] rest) (hop : i.op = .store) (ha : a.Locates k)
    (hlength : lower.length ≤ stackSize) :
    h.Proceeds C := by
  obtain ⟨address, x, rfl, haddress, -⟩ := h.taken.exists_two
  have hgo : i.Goes frame.pc (frame.pc + 1) := (Instruction.goes_iff_of_isOrdinary (hop ▸ rfl)).2 rfl
  rcases of_locates ha haddress with ⟨n, hn, rfl⟩ | ⟨n, hfirst, hn, rfl⟩
  · have hsmall : n < 2 ^ 62 := Nat.lt_trans hn h.sound.globals
    have hwrite := write_global (x := x) (p := p) (S := lower ++ base) (F := frame.next :: F) (C := C)
      (Address.region_ofGlobal hsmall) (by rw [Address.index_ofGlobal hsmall, h.globals]; exact hn)
    rw [Address.index_ofGlobal hsmall] at hwrite
    refine ⟨_, _, by rw [← List.append_assoc]; exact execute_store hop hwrite, ?_⟩
    exact h.drop { h.toStanding with globals := by rw [Array.size_modify, h.globals] } rfl rfl hgo (hop ▸ rfl)
      (.inr ⟨hop, n, x, rfl, rfl⟩)
  · have hsmall : n < 2 ^ 62 := by unfold stackSize at hlength; omega
    have hwrite := write_stack (x := x) (p := p) (G := G) (F := frame.next :: F) (C := C)
      (Address.region_ofStack hsmall) (S := lower ++ base) (by rw [Address.index_ofStack hsmall, List.length_append]; omega)
    rw [Address.index_ofStack hsmall, List.set_append_left _ _ hn] at hwrite
    refine ⟨_, _, by rw [← List.append_assoc]; exact execute_store hop hwrite, ?_⟩
    exact h.drop { h.toStanding with based := h.based.set hfirst x } List.length_set (List.take_set_of_le hfirst) hgo
      (hop ▸ rfl) (.inl rfl)

section

variable (h : Executing p D shape G frame F f lower base [] i [] [a] rest)

include h

theorem locA (hop : i.op = .locA) (hn : i.operand.toInt = n)
    (hτ : (D frame.function).locals[n]? = some τ) (ha : τ.addressKind? = some a) (hlength : lower.length ≤ stackSize) :
    h.Proceeds C := by
  rcases Nat.lt_or_ge n f.header.locals.toNat with hlt | hge
  · have hle := h.based.argBase_le
    have hlower := h.length_eq
    refine h.push (hop ▸ rfl) (.one ?_) (.of_own (.inl hop) (by unfold stackSize at hlength; omega))
      (pushes_execute_locA hop hn hlt)
    have hslot : ∃ m, frame.argBase ≤ m ∧ m < lower.length ∧ Address.ofStack (frame.localBase + n) = Address.ofStack m :=
      ⟨_, by omega, by omega, rfl⟩
    cases τ <;> cases ha <;> exact .inr hslot
  · have hlocals : 2 ^ 32 ≤ (D frame.function).locals.length := by
      have hlt := (List.getElem?_eq_some_iff.1 hτ).1
      rw [h.sound.locals h.function, UInt32.toNat_ofNat'] at hge
      rcases Nat.lt_or_ge (D frame.function).locals.length (2 ^ 32) with hsmall | hlarge
      · rw [Nat.mod_eq_of_lt hsmall] at hge
        omega
      · exact hlarge
    refine ⟨_, _, execute_locA_error hop hn hge, ?_⟩
    rw [List.append_assoc]
    exact h.stop (.noLocal hlocals)

theorem argA (hop : i.op = .argA) (hn : i.operand.toInt = n)
    (hτ : (D frame.function).arguments[n]? = some τ) (ha : τ.addressKind? = some a) (hlength : lower.length ≤ stackSize) :
    h.Proceeds C := by
  obtain ⟨hlt, hslot⟩ := h.based.lt_arguments h.sound h.function hlength (List.getElem?_eq_some_iff.1 hτ).1
  refine h.push (hop ▸ rfl) (.one ?_) (.of_own (.inr hop) (by unfold stackSize at hlength; omega))
    (pushes_execute_argA hop hn hlt)
  have hslot : ∃ m, frame.argBase ≤ m ∧ m < lower.length ∧ Address.ofStack (frame.argBase + n) = Address.ofStack m :=
    ⟨_, Nat.le_add_right .., hslot, rfl⟩
  cases τ <;> cases ha <;> exact .inr hslot

theorem globA (hop : i.op = .globA) (hn : i.operand.toInt = n)
    (hτ : (D frame.function).global n = some τ) (ha : τ.addressKind? = some a) :
    h.Proceeds C := by
  have hlt := h.sound.global hτ
  refine h.push (hop ▸ rfl) (.one ?_) (.of_globA hop hn) (pushes_execute_globA hop hn (by rwa [h.globals]))
  cases τ <;> cases ha <;> exact .inl ⟨n, hlt, rfl⟩

end

/-! ## Calls -/

theorem length_flatMap_kinds {params : List ValueType} (h : ∀ τ ∈ params, τ.IsStored) :
    (params.flatMap ValueType.kinds).length = params.length := by
  induction params with
  | nil => rfl
  | cons τ params ih =>
    obtain ⟨hτ, hparams⟩ := List.forall_mem_cons.1 h
    have hone : τ.kinds.length = 1 := by rcases hτ with rfl | rfl <;> rfl
    rw [List.flatMap_cons, List.length_append, ih hparams, hone, List.length_cons, Nat.add_comm]

/-- What a call finds on the stack: the slots for its result, and its arguments. -/
theorem split_takes (hs : s.IsPlain) (htop : Operands p.globals.size first stop top s.takes) :
    ∃ before args, top = before ++ args ∧ before.length = s.returns.slots ∧ args.length = s.params.length := by
  obtain ⟨before, args, rfl, hbefore, hargs⟩ := htop.split
  refine ⟨before, args, rfl, ?_, ?_⟩
  · rw [hbefore.length_eq]
    rcases hs.2 with h | h | h <;> rw [h] <;> rfl
  · rw [hargs.length_eq, length_flatMap_kinds fun τ hτ => hs.1 τ (List.mem_reverse.1 hτ), List.length_reverse]

/-- The result of a call is no address. -/
theorem operands_gives {slots : List UInt64} (hs : s.IsPlain) (hlength : slots.length = s.returns.slots) :
    Operands p.globals.size first stop slots s.gives := by
  refine .of_values ?_ ?_
  · rw [Signature.gives]
    rcases hs.2 with h | h | h <;> rw [h] <;> simp [ValueType.kinds, Kind.IsValue]
  · rw [hlength, Signature.gives]
    rcases hs.2 with h | h | h <;> rw [h] <;> rfl

/-- A primitive gives as many slots as its signature says. -/
theorem length_respond {given : List UInt64} (h : (primitive.respond p C args).1 = .ok given) :
    given.length = primitive.signature.returns.slots := by
  cases primitive <;> simp only [Primitive.respond] at h <;> first | (cases h; rfl) | (split at h <;> cases h; rfl)

/-- How a primitive fails. -/
theorem expected_respond (h : (primitive.respond p C args).1 = .error e) : e.Expected p D := by
  cases primitive with
  | getint =>
    simp only [Primitive.respond] at h
    split at h <;> cases h
    exact .input (.inl rfl)
  | getdouble =>
    simp only [Primitive.respond] at h
    split at h <;> cases h
    exact .input (.inr rfl)
  | getchar =>
    -- at the end of its input a byte is read all the same
    simp only [Primitive.respond] at h
    rcases hinput : C.input with _ | ⟨b, rest⟩ <;> rw [hinput] at h <;> cases h
  | putstr =>
    simp only [Primitive.respond] at h
    split at h <;> cases h
    rename_i hnone
    exact .noText (Array.getElem?_eq_none_iff.1 hnone)
  | putint | putchar | putdouble | putln => cases h

theorem callName (h : Executing p D shape G frame F f lower base top i primitive.signature.takes primitive.signature.gives rest)
    (hop : i.op = .callName) (hn : i.operand.toInt = n) (hprimitive : (D frame.function).routine n = some primitive) :
    h.Proceeds C := by
  obtain ⟨before, args, rfl, hbefore, hargs⟩ := split_takes primitive.isPlain_signature h.taken
  obtain ⟨g, hg, hname⟩ := h.sound.routine hprimitive
  have hcall := callPrimitive (S := lower ++ base) (G := G) (F := frame.next :: F) (C := C) hg hname hbefore hargs
  rw [List.append_assoc (lower ++ base)] at hcall
  rcases hrespond : (primitive.respond p C args).1 with e | given
  · rw [hrespond] at hcall
    refine ⟨_, _, execute_callName hop hn hcall, ?_⟩
    rw [List.append_assoc, List.append_assoc]
    exact h.stop (expected_respond hrespond)
  · rw [hrespond] at hcall
    exact h.replace (hop ▸ rfl) (operands_gives primitive.isPlain_signature (length_respond hrespond))
      (.of_isAddress (hop ▸ rfl)) (execute_callName hop hn hcall)

/-- A call puts a frame on the stack, whose shape is that of the start of a function. -/
theorem call {n : Nat} {s : Signature} (h : Executing p D shape G frame F f lower base top i s.takes s.gives rest)
    (hop : i.op = .call)
    (hn : i.operand.toInt = n) (hs : (D frame.function).callee n = some s) (hlength : (lower ++ base ++ top).length ≤ stackSize) :
    h.Proceeds C := by
  obtain ⟨-, -, hplain, g, hg, -, -⟩ := h.sound.callee hs
  obtain ⟨before, args, htops, hbefore, hargs⟩ := split_takes hplain h.taken
  have htopLength : top.length = s.arguments.length := by
    rw [htops, List.length_append, hbefore, hargs, hplain.length_arguments, Nat.add_comm]
  have hsum : (lower ++ base ++ top).length = (lower ++ base).length + top.length := List.length_append
  obtain ⟨hparams, hreturns, harguments⟩ := h.sound.header_eq hs hg (by omega)
  have hnext := h.steps.next ((Instruction.goes_iff_of_isOrdinary (hop ▸ rfl)).2 rfl)
  have hlower := h.length_eq
  rcases Nat.lt_or_ge stackSize ((lower ++ base ++ top).length + g.header.locals.toNat) with hfull | hroom
  · refine ⟨_, _, execute_call hop hn (enter_error hg (by omega) hlength hfull), ?_⟩
    rw [List.append_assoc, List.append_assoc]
    exact h.stop .stackOverflow
  · refine ⟨_, _, execute_call hop hn (enter hg (by omega) hroom), ?_, nofun, ?_, fun _ => .call h hop hn rfl hs⟩
    · intro _
      refine ⟨h.globals, _, _, lower ++ base ++ top ++ List.replicate g.header.locals.toNat 0, [], [], rfl,
        (List.append_nil _).symm, ?_, .nil, (h.sound.shaped hg).start⟩
      exact .call (h.based.jump _) h.others hnext hs hg (by simp only; omega) htopLength rfl List.length_replicate
    · have hbaseLength : (lower ++ base).length = lower.length + base.length := List.length_append
      exact .call h.function hg (by omega)

/-- A return takes the frame off the stack, but for the result. -/
theorem ret (h : Executing p D shape G frame F f lower base top i [] [] rest) (hop : i.op = .ret)
    (hentry : (D frame.function).isEntry = false) (hlength : lower.length ≤ stackSize) :
    h.Proceeds C := by
  obtain rfl := h.steps.leaves (.inl hop)
  obtain rfl := List.length_eq_zero_iff.1 h.others.length_eq
  obtain rfl := List.length_eq_zero_iff.1 h.taken.length_eq
  rw [Proceeds, List.append_nil, List.append_nil]
  have hbased := h.based
  cases hbased with
  | entry hfunction =>
    rw [(h.sound.isEntry _).2 hfunction] at hentry
    cases hentry
  | @call _ caller F lower operands args cells rest s k f' hlower hoperands hreturn hs hf' hargBase hargs hlocalBase hcells =>
    obtain ⟨-, -, hplain, -⟩ := h.sound.callee hs
    have hsum : (lower ++ operands ++ args ++ cells).length = (lower ++ operands).length + args.length + cells.length := by
      simp only [List.length_append]
    obtain ⟨-, hreturns, harguments⟩ := h.sound.header_eq hs h.function (by omega)
    have htake : (lower ++ operands ++ args ++ cells).take (frame.argBase + f.header.returns.toNat) =
        lower ++ (operands ++ args.take s.returns.slots) := by
      rw [hargBase, hreturns, List.append_assoc (lower ++ operands), List.take_length_add_append,
        List.take_append_of_le_length (by omega), List.append_assoc]
    refine ⟨_, _, execute_ret hop (leave nofun (by omega)), ?_, nofun, .ret h.function (by omega), fun _ => .ret h hop ?_⟩
    · intro _
      refine ⟨h.globals, caller, F, lower, operands ++ args.take s.returns.slots, s.gives ++ rest, rfl,
        htake, hlower, ?_, hreturn⟩
      exact hoperands.append (operands_gives hplain (by rw [List.length_take]; omega))
    · rw [List.take_take, Nat.min_eq_left (Nat.le_add_right ..)]

end Executing

/-- Every instruction of a sound program proceeds. -/
theorem Program.Sound.execute {σ : Shape} (h : Standing p D shape G frame F f lower) (hi : f.code[frame.pc]? = some i)
    (hσ : shape frame.function frame.pc = some σ) (hoperands : Operands p.globals.size frame.argBase lower.length operands σ)
    (hlength : (lower ++ operands).length ≤ stackSize) :
    (Exec.execute frame f (frame.pc + 1) i).Proceeds p D shape G (lower ++ operands) frame F C := by
  obtain ⟨takes, gives, rest, rfl, hsteps⟩ := (h.sound.shaped h.function).suits hi _ hσ
  obtain ⟨base, top, rfl, hbase, htop⟩ := hoperands.split
  rw [← List.append_assoc] at hlength ⊢
  have h : Executing p D shape G frame F f lower base top i takes gives rest := ⟨h, hi, hσ, hsteps, hbase, htop⟩
  have hlower : lower.length ≤ stackSize := by
    simp only [List.length_append] at hlength
    omega
  have hacts := hsteps.acts
  cases hacts with
  | fixed heffect => exact h.fixed heffect
  | push hop hk =>
    cases htop
    exact h.push (hop ▸ rfl) (.one (hk.isValue.holds ..)) (.of_isAddress (hop ▸ rfl)) (pushes_execute_push hop)
  | pop hop hk =>
    obtain ⟨x, rfl, -⟩ := htop.exists_one
    exact h.branch (hop ▸ rfl) ((Instruction.goes_iff_of_isOrdinary (hop ▸ rfl)).2 rfl) (execute_pop hop)
  | brTrue hop hk => exact h.brTrue hop
  | ret hop hentry => exact h.ret hop hentry hlower
  | popN hop hn hks =>
    rw [← htop.length_eq] at hn
    exact h.branch (hop ▸ rfl) ((Instruction.goes_iff_of_isOrdinary (hop ▸ rfl)).2 rfl) (execute_popN hop hn)
  | stackAlloc hop hn hks =>
    cases htop
    exact h.push (hop ▸ rfl) (.of_values (fun k hk => (hks k hk).isValue) List.length_replicate)
      (.of_isAddress (hop ▸ rfl)) (pushes_execute_stackAlloc hop hn)
  | locA hop hn hτ ha =>
    cases htop
    exact h.locA hop hn hτ ha hlower
  | argA hop hn hτ ha =>
    cases htop
    exact h.argA hop hn hτ ha hlower
  | globA hop hn hτ ha =>
    cases htop
    exact h.globA hop hn hτ ha
  | load hop ha => exact h.load hop ha hlower
  | store hop ha => exact h.store hop ha hlower
  | call hop hn hs hplain => exact h.call hop hn hs hlength
  | callName hop hn hprimitive => exact h.callName hop hn hprimitive

/-- What a step of a sound program does, from a safe view: the entry routine ends with nothing on the stack, or the next
instruction has its outcome. -/
theorem Program.Sound.step (hp : p.Sound D shape) {m : Machine} {v : View} (hm : m.Shows p v) (hv : v.Safe p D shape) :
    (m.step = (.ok (), { m with halted := true }) ∧ m.sp = 0 ∧ m.frames.length = 1) ∨
      ∃ r m' v', m.step = (r, m') ∧ m'.Shows p v' ∧ View.Outcome p D shape v r v' := by
  obtain ⟨G, S, frames, C⟩ := v
  obtain ⟨hG, frame, F, lower, operands, σ, hframes, hslots, hbased, hoperands, hσ⟩ := hv
  cases hframes
  cases hslots
  have hf : ∃ f, p.functions[frame.function]? = some f := by
    cases hbased with
    | entry hfunction =>
      obtain ⟨-, f, hf, -⟩ := hp.entry
      exact ⟨f, hfunction ▸ hf⟩
    | call _ _ _ _ hf => exact ⟨_, hf⟩
  obtain ⟨f, hf⟩ := hf
  cases hi : f.code[frame.pc]? with
  | some i =>
    have hlength := hm.length_le
    obtain ⟨r, v', hleads, houtcome⟩ := Program.Sound.execute ⟨hp, hG, hbased, hf⟩ hi hσ hoperands hlength
    obtain ⟨m', hstep, hm'⟩ := hm.step hf hi hleads
    exact .inr ⟨r, m', v', hstep, hm', houtcome⟩
  | none =>
    -- only the entry routine has a shape at its end, and it has no frame but its own
    have hpc := Array.getElem?_eq_none_iff.1 hi
    rcases (hp.shaped hf).inside hσ with hlt | ⟨hentry, -, rfl⟩
    · omega
    · have hzero := (hp.isEntry _).1 hentry
      cases hbased with
      | entry =>
        cases hoperands
        exact .inl ⟨hm.step_halt hf hi, hm.sp, by rw [hm.frames]; rfl⟩
      | call _ _ _ hs => exact absurd hzero (hp.callee hs).1

end

end OnePass

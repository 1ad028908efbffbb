import OnePass.Proofs.Globals.Schedule
import OnePass.Proofs.Safety.Run

/-!
# Addresses of globals on the stack

In a run of a program that keeps to a schedule, an address of a global is on the stack for one of two reasons (`Frame.Kept`): it
has just been pushed, to be loaded from, or it waits for a store. In the entry routine it then waits for the end of the global's
initialization, as the only operand so far, and in a function the global is no constant. A step keeps this (`View.Kept.works`),
while the entry routine goes on place by place.
-/

namespace OnePass

variable {a k : Kind} {slots' : List UInt64}

/-! ## Kinds of addresses -/

/-- The kind of the address of a variable. -/
def Kind.IsAddress (k : Kind) : Prop := k = .intAddress ∨ k = .doubleAddress

theorem Kind.IsValue.not_isAddress (h : k.IsValue) : ¬ k.IsAddress := by
  rcases h with rfl | rfl | rfl <;> exact fun h => h.elim nofun nofun

theorem Kind.Locates.isAddress (h : a.Locates k) : a.IsAddress := by
  rcases h with ⟨rfl, -⟩ | ⟨rfl, -⟩
  · exact .inl rfl
  · exact .inr rfl

theorem Kind.Locates.isValue (h : a.Locates k) : k.IsValue := by
  rcases h with ⟨-, rfl⟩ | ⟨-, rfl⟩
  · exact .inl rfl
  · exact .inr (.inl rfl)

theorem Signature.IsPlain.isValue_gives {s : Signature} (h : s.IsPlain) : ∀ k ∈ s.gives, k.IsValue := by
  unfold Signature.gives
  rcases h.2 with hreturns | hreturns | hreturns <;> rw [hreturns] <;> simp [ValueType.kinds, Kind.IsValue]

section

variable {D : Declared} {i : Instruction} {takes gives : Shape}

section

variable (h : i.Acts D takes gives)

include h

/-- Only what pushes an address gives one. -/
theorem Instruction.Acts.of_isAddress (ha : a ∈ gives) (haddress : a.IsAddress) :
    i.op.isAddress = true ∧ takes = [] ∧ gives = [a] := by
  have hvalue {ks : Shape} (hks : ∀ k ∈ ks, k.IsValue) (ha : a ∈ ks) : False := (hks a ha).not_isAddress haddress
  cases h with
  | fixed h =>
    refine (hvalue (fun k hk => ?_) ha).elim
    cases hop : i.op <;> rw [hop] at h <;> cases h <;> simp at hk <;> simp [hk, Kind.IsValue]
  | push hop hk => exact (hvalue (List.forall_mem_singleton.2 hk.isValue) ha).elim
  | pop | brTrue | ret | popN | store => cases ha
  | stackAlloc hop hn hks => exact (hvalue (fun k hk => (hks k hk).isValue) ha).elim
  | locA hop | argA hop | globA hop =>
    obtain rfl := List.mem_singleton.1 ha
    exact ⟨by rw [hop]; rfl, rfl, rfl⟩
  | load hop hlocates => exact (hvalue (List.forall_mem_singleton.2 hlocates.isValue) ha).elim
  | call hop hn hs hplain => exact (hvalue hplain.isValue_gives ha).elim
  | callName hop hn hp => exact (hvalue (Primitive.isPlain_signature _).isValue_gives ha).elim

theorem Instruction.Acts.gives_ne_nil (hop : i.op.isAddress = true) : gives ≠ [] := by
  cases h with
  | locA | argA | globA => nofun
  | fixed h => simp [Opcode.isAddress_of_effect? h] at hop
  | _ => simp_all [Opcode.isAddress]

/-- A load takes an address. -/
theorem Instruction.Acts.of_load (hop : i.op = .load) : ∃ a k, takes = [a] ∧ gives = [k] ∧ a.Locates k := by
  cases h with
  | load _ ha => exact ⟨_, _, rfl, rfl, ha⟩
  | fixed h => simp [hop, Opcode.effect?] at h
  | _ => simp_all

/-- A store takes an address beneath the value. -/
theorem Instruction.Acts.of_store (hop : i.op = .store) : ∃ a k, takes = [k, a] ∧ gives = [] ∧ a.Locates k := by
  cases h with
  | store _ ha => exact ⟨_, _, rfl, rfl, ha⟩
  | fixed h => simp [hop, Opcode.effect?] at h
  | _ => simp_all

theorem Instruction.Acts.of_globA (hop : i.op = .globA) : ∃ n τ, i.operand.toInt = (n : Nat) ∧ D.global n = some τ := by
  cases h with
  | globA _ hn hτ _ => exact ⟨_, _, hn, hτ⟩
  | fixed h => simp [hop, Opcode.effect?] at h
  | _ => simp_all

end

end

/-! ## Addresses in frames -/

/-- At this place of the function, a load stands. -/
def Function.LoadsAt (f : Function) (place : Nat) : Prop := ∃ i, f.code[place]? = some i ∧ i.op = .load

/-- What the address of a global waits for, in the function with this number and at this place, above so many operands. -/
def Schedule.Awaits (S : Schedule) : Nat → Nat → Nat → Nat → Prop
  | 0, place, depth, n => depth = 0 ∧ ∃ start stop, S.inits n start stop ∧ start < place ∧ place ≤ stop
  | _ + 1, _, _, n => ¬ S.const n

/-- Among the operands of a call, between those above and those below, is the address of a global. -/
structure Frame.Bears (p : Program) (shape : Nat → Nat → Option Shape) (slots : List UInt64) (frame : Frame) (f : Function)
    (above below : Shape) (n : Nat) : Prop where
  function : p.functions[frame.function]? = some f
  shape : ∃ a, a.IsAddress ∧ shape frame.function frame.pc = some (above ++ a :: below)
  limit : n < p.globals.size
  slot : slots[frame.localBase + f.header.locals.toNat + below.length]? = some (Address.ofGlobal n)

/-- Every address of a global among the operands of a call is loaded from at once, or waits for a store. -/
structure Frame.Kept (p : Program) (S : Schedule) (shape : Nat → Nat → Option Shape) (slots : List UInt64) (frame : Frame) :
    Prop where
  loads {f : Function} {below : Shape} {n : Nat} (h : frame.Bears p shape slots f [] below n) (hload : f.LoadsAt frame.pc) :
    ∃ before i, frame.pc = before + 1 ∧ f.code[before]? = some i ∧ i.op = .globA ∧ i.operand.toInt = n
  waits {f : Function} {above below : Shape} {n : Nat} (h : frame.Bears p shape slots f above below n)
    (hload : above = [] → ¬ f.LoadsAt frame.pc) : S.Awaits frame.function frame.pc below.length n
  /-- An initialization starts with no operands. -/
  starts (hentry : frame.function = 0) {n stop : Nat} (h : S.inits n frame.pc stop) : shape 0 frame.pc = some []

theorem Frame.Kept.congr {p : Program} {S : Schedule} {shape : Nat → Nat → Option Shape} {slots : List UInt64} {frame : Frame}
    (h : frame.Kept p S shape slots)
    (hslots : ∀ {f above below n}, frame.Bears p shape slots' f above below n → frame.Bears p shape slots f above below n) :
    frame.Kept p S shape slots' :=
  ⟨fun hbears => h.loads (hslots hbears), fun hbears => h.waits (hslots hbears), h.starts⟩

section

variable {p : Program} {D : Nat → Declared} {shape : Nat → Nat → Option Shape} {S : Schedule} {G : Array UInt64} {frame : Frame}
  {F : List Frame} {f : Function} {lower base top slots : List UInt64} {i : Instruction} {takes gives rest : Shape}
variable {globals place : Nat} {R : Access} {items : List Item} {x : UInt64} {above : Shape} {innermost : Frame}

namespace Executing

variable (h : Executing p D shape G frame F f lower base top i takes gives rest)

include h

theorem getElem?_others {j : Nat} (hj : j < rest.length) :
    (lower ++ base ++ top)[frame.localBase + f.header.locals.toNat + j]? = base[j]? := by
  have hlength := h.others.length_eq
  rw [← h.length_eq, List.append_assoc, List.getElem?_append_right (Nat.le_add_right ..), Nat.add_sub_cancel_left,
    List.getElem?_append_left (by omega)]

theorem getElem?_taken : (lower ++ base ++ top)[frame.localBase + f.header.locals.toNat + rest.length]? = top[0]? := by
  rw [← h.length_eq, ← h.others.length_eq, ← List.length_append, List.getElem?_append_right (Nat.le_refl _), Nat.sub_self]

/-- Nothing lies beneath the operands of the entry routine. -/
theorem lower_eq_nil (hentry : frame.function = 0) : lower = [] ∧ F = [] := by
  have hbased := h.based
  cases hbased with
  | entry => exact ⟨rfl, rfl⟩
  | call _ _ _ hs => exact absurd hentry (h.sound.callee hs).1

end Executing

/-- In the entry routine there are no addresses but those of globals. -/
theorem Kind.Holds.exists_global {first : Nat} (h : a.Holds globals first 0 x) (ha : a.IsAddress) :
    ∃ n < globals, x = Address.ofGlobal n := by
  rcases ha with rfl | rfl <;> rcases h with hglobal | ⟨n, -, hn, -⟩
  · exact hglobal
  · exact absurd hn (Nat.not_lt_zero n)
  · exact hglobal
  · exact absurd hn (Nat.not_lt_zero n)

/-- A store has to be allowed, what a load loads from has been pushed right before it, and a call is one of a function that may be
called. -/
theorem Access.Does.of_op (h : R.Does items place i) :
    (i.op = .store → R.acts) ∧
      (i.op = .load → ∃ before home, place = before + 1 ∧ items[before]? = some (.instr home.address) ∧ R.reads home) ∧
      (i.op = .call → ∃ number, i = .withNat .call number ∧ R.calls number) := by
  cases h with
  | load hop hplace hbefore hhome => exact ⟨by simp [hop], fun _ => ⟨_, _, hplace, hbefore, hhome⟩, by simp [hop]⟩
  | @read home hi =>
    subst hi
    rcases Home.op_address home with h | h | h <;> simp [h]
  | alone hi =>
    cases hi with
    | @address home => rcases Home.op_address home with h | h | h <;> simp [h]
    | call hnumber => exact ⟨by simp [Instruction.withNat], by simp [Instruction.withNat], fun _ => ⟨_, rfl, hnumber⟩⟩
    | act hop hacts => refine ⟨fun _ => hacts, fun h => ?_, fun h => ?_⟩ <;> simp [Item.op, h, Opcode.isOrdinary] at hop
    | silent hop => refine ⟨fun h => ?_, fun h => ?_, fun h => ?_⟩ <;> simp [Item.op, h, Opcode.isSilent] at hop

theorem Home.isAddress_address (home : Home) : home.address.op.isAddress = true := by
  cases home <;> rfl

namespace Executing

/-- An initialization ends with a store. -/
theorem op_of_inits (h : Executing p D shape G frame F f lower base top i takes gives rest) (hS : p.Follows S)
    (hentry : frame.function = 0) {n start : Nat} (hinits : S.inits n start frame.pc) : i.op = .store := by
  obtain ⟨-, f', i', hf', hi', hop⟩ := hS.store hinits
  rw [← hentry, h.function] at hf'
  cases hf'
  rw [h.instruction] at hi'
  cases hi'
  exact hop

/-- Where an address is left on top of the stack, no load follows. -/
theorem not_loadsAt (h : Executing p D shape G frame F f lower base top i takes [] rest) (hS : p.Follows S) {pc : Nat}
    (hgo : i.Goes frame.pc pc) {below : Shape} (hrest : rest = a :: below) : ¬ f.LoadsAt pc := by
  rintro ⟨j, hj, hop⟩
  have hplace : pc = frame.pc + 1 := h.steps.place_eq hgo (by rw [h.steps.next hgo, hrest]; rfl)
  obtain ⟨before, home, hbefore, hitem, -⟩ := (hS.does h.function hj).of_op.2.1 hop
  obtain rfl : before = frame.pc := by omega
  rw [plain, List.getElem?_map, Array.getElem?_toList, h.instruction] at hitem
  cases hitem
  exact h.steps.acts.gives_ne_nil (Home.isAddress_address home) rfl

/-- The address of a global is on top after an instruction only if the instruction pushes it. -/
theorem of_puts (h : Executing p D shape G frame F f lower base top i takes gives rest) {more : List UInt64} (hputs : i.Puts more)
    (hop : i.op.isAddress = true) {n : Nat} (hn : n < p.globals.size) (hmore : more[0]? = some (Address.ofGlobal n)) :
    i.op = .globA ∧ i.operand.toInt = n := by
  have hsmall : n < 2 ^ 62 := Nat.lt_trans hn h.sound.globals
  have hown (hown : i.op = .locA ∨ i.op = .argA) : False := by
    obtain ⟨m, hm, rfl⟩ := hputs.own hown
    have hregion := congrArg Address.region (Option.some.inj hmore)
    rw [Address.region_ofStack hm, Address.region_ofGlobal hsmall] at hregion
    exact absurd hregion (by decide)
  cases hglobA : i.op with
  | globA =>
    obtain ⟨m, τ, hm, hτ⟩ := h.steps.acts.of_globA hglobA
    rw [hputs.global hglobA hm] at hmore
    have hindex := congrArg Address.index (Option.some.inj hmore)
    rw [Address.index_ofGlobal (Nat.lt_trans (h.sound.global hτ) h.sound.globals), Address.index_ofGlobal hsmall] at hindex
    exact ⟨rfl, hm.trans (congrArg _ hindex)⟩
  | locA => exact (hown (.inl hglobA)).elim
  | argA => exact (hown (.inr hglobA)).elim
  | _ =>
    rw [hglobA] at hop
    cases hop

/-- The addresses of globals after an instruction are those that it leaves where they are, and the one that it pushes. -/
theorem bears_cases (h : Executing p D shape G frame F f lower base top i takes gives rest) {pc : Nat} (hgo : i.Goes frame.pc pc)
    (hsame : ∀ j < rest.length, slots[lower.length + j]? = base[j]?) (hputs : i.Puts (slots.drop (lower.length + rest.length)))
    {below : Shape} {n : Nat} (hbears : Frame.Bears p shape slots { frame with pc } f above below n) :
    (∃ more a, above = gives ++ more ∧ rest = more ++ a :: below ∧ a.IsAddress ∧
      base[below.length]? = some (Address.ofGlobal n)) ∨
      (above = [] ∧ below = rest ∧ takes = [] ∧ i.op = .globA ∧ i.operand.toInt = n) := by
  obtain ⟨-, ⟨a, ha, hσ⟩, hn, hslot⟩ := hbears
  rw [← h.length_eq] at hslot
  rw [h.steps.next hgo] at hσ
  rcases split_of_append (Option.some.inj hσ) with ⟨more, rfl, rfl⟩ | ⟨more, hgives, rfl⟩
  · refine .inl ⟨more, a, rfl, rfl, ha, ?_⟩
    rw [← hsame below.length (by rw [List.length_append, List.length_cons]; omega), hslot]
  · have hmem : a ∈ gives := by
      rw [hgives]
      exact List.mem_append_right _ List.mem_cons_self
    obtain ⟨hop, rfl, rfl⟩ := h.steps.acts.of_isAddress hmem ha
    obtain ⟨rfl, rfl⟩ : above = [] ∧ more = [] := by
      rcases above with _ | ⟨b, above⟩
      · exact ⟨rfl, (List.cons.inj hgives).2.symm⟩
      · simp at hgives
    have hmore : (slots.drop (lower.length + rest.length))[0]? = some (Address.ofGlobal n) := by
      rw [List.getElem?_drop]
      exact hslot
    obtain ⟨hglobA, hoperand⟩ := h.of_puts hputs hop hn hmore
    exact .inr ⟨rfl, rfl, rfl, hglobA, hoperand⟩

end Executing

namespace Frame.Kept

/-- An address that a store takes has waited for it. -/
theorem store {n : Nat} (hkept : frame.Kept p S shape (lower ++ base ++ ([Address.ofGlobal n] ++ [x])))
    (h : Executing p D shape G frame F f lower base ([Address.ofGlobal n] ++ [x]) i [k, a] gives rest) (ha : a.IsAddress)
    (hn : n < p.globals.size) : S.Awaits frame.function frame.pc rest.length n := by
  have hbears : frame.Bears p shape (lower ++ base ++ ([Address.ofGlobal n] ++ [x])) f [k] rest n :=
    ⟨h.function, ⟨a, ha, h.place⟩, hn, h.getElem?_taken⟩
  exact hkept.waits hbears nofun

/-- A load takes the address that was pushed right before it. -/
theorem load (hS : p.Follows S) {n : Nat} (hkept : frame.Kept p S shape (lower ++ base ++ [Address.ofGlobal n]))
    (h : Executing p D shape G frame F f lower base [Address.ofGlobal n] i [a] gives rest) (ha : a.IsAddress) (hop : i.op = .load)
    (hn : n < p.globals.size) : ∃ home, home.IsGlobal n ∧ (S.access frame.function frame.pc).reads home := by
  obtain ⟨before, j, hpc, hj, hjop, hoperand⟩ := hkept.loads ⟨h.function, ⟨a, ha, h.place⟩, hn, h.getElem?_taken⟩
    ⟨i, h.instruction, hop⟩
  obtain ⟨before', home, hplace, hbefore, hhome⟩ := (hS.does h.function h.instruction).of_op.2.1 hop
  obtain rfl : before = before' := by omega
  rw [plain, List.getElem?_map, Array.getElem?_toList, hj] at hbefore
  cases hbefore
  exact ⟨home, ⟨hjop, hoperand⟩, hhome⟩

/-- The address of a global that has been pushed is loaded from at once, or waits from there on. -/
theorem awaits_given (hS : p.Follows S) (hkept : frame.Kept p S shape (lower ++ base ++ top))
    (h : Executing p D shape G frame F f lower base top i [] gives rest) {n : Nat} (hop : i.op = .globA)
    (hoperand : i.operand.toInt = n)
    (hload : ¬ f.LoadsAt (frame.pc + 1)) : S.Awaits frame.function (frame.pc + 1) rest.length n := by
  cases hS.does h.function h.instruction with
  | read _ hnext =>
    refine absurd ?_ hload
    rw [plain, List.getElem?_map, Array.getElem?_toList] at hnext
    obtain ⟨j, hj, hload⟩ := Option.map_eq_some_iff.1 hnext
    cases hload
    exact ⟨_, hj, rfl⟩
  | load h =>
    rw [hop] at h
    cases h
  | alone hi =>
    cases hi with
    | address hhome =>
      cases hentry : frame.function with
      | succ k =>
        rw [hentry] at hhome
        exact hhome n ⟨hop, hoperand⟩
      | zero =>
        rw [hentry] at hhome
        obtain ⟨stop, hinits⟩ := hhome n ⟨hop, hoperand⟩
        have hempty := hkept.starts hentry hinits
        rw [← hentry, h.place] at hempty
        have hlt := (hS.store hinits).1
        exact ⟨by rw [← List.nil_append rest, Option.some.inj hempty]; rfl, frame.pc, stop, hinits, by omega, by omega⟩
    | call => cases hop
    | act h => simp [Item.op, hop, Opcode.isOrdinary] at h
    | silent h => simp [Item.op, hop, Opcode.isSilent] at h

variable (hS : p.Follows S) (hkept : frame.Kept p S shape (lower ++ base ++ top))
  (h : Executing p D shape G frame F f lower base top i takes gives rest)
include hS hkept h

/-- A store of the entry routine ends an initialization. -/
theorem store_entry (hop : i.op = .store) (hentry : frame.function = 0) :
    rest = [] ∧ gives = [] ∧ ∃ n start x, top = [Address.ofGlobal n] ++ [x] ∧ n < p.globals.size ∧ S.inits n start frame.pc := by
  obtain ⟨a, k, rfl, rfl, ha⟩ := h.steps.acts.of_store hop
  obtain ⟨address, x, rfl, hholds, -⟩ := h.taken.exists_two
  rw [(h.lower_eq_nil hentry).1] at hholds
  obtain ⟨n, hn, rfl⟩ := hholds.exists_global ha.isAddress
  have hwaits := hkept.store h ha.isAddress hn
  have hdoes := hS.does h.function h.instruction
  rw [hentry] at hwaits hdoes
  obtain ⟨hrest, start, stop, hinits, hlt, hle⟩ := hwaits
  obtain ⟨m, first, hinits'⟩ := hdoes.of_op.1 hop
  obtain ⟨rfl, rfl, rfl⟩ := hS.apart hinits' hinits hlt hle
  exact ⟨List.length_eq_zero_iff.1 hrest, rfl, n, start, x, rfl, hn, hinits⟩

/-- An address that an instruction leaves where it is waits on. -/
theorem awaits_rest {pc : Nat} (hgo : i.Goes frame.pc pc) {more below : Shape} (hrest : rest = more ++ a :: below)
    (ha : a.IsAddress) {n : Nat} (hn : n < p.globals.size)
    (hslot : base[below.length]? = some (Address.ofGlobal n)) : S.Awaits frame.function pc below.length n := by
  have hlength : below.length < rest.length := by
    rw [hrest, List.length_append, List.length_cons]
    omega
  have hbears : frame.Bears p shape (lower ++ base ++ top) f (takes ++ more) below n :=
    ⟨h.function, ⟨a, ha, by rw [h.place, hrest, List.append_assoc]⟩, hn, by rw [h.getElem?_others hlength, hslot]⟩
  have hwaits := hkept.waits hbears fun hnil ⟨j, hj, hop⟩ => by
    -- a load would take the address
    rw [h.instruction] at hj
    cases hj
    obtain ⟨_, _, rfl, -⟩ := h.steps.acts.of_load hop
    cases hnil
  cases hentry : frame.function with
  | succ k =>
    rw [hentry] at hwaits
    exact hwaits
  | zero =>
    rw [hentry] at hwaits
    obtain ⟨hdepth, start, stop, hinits, hlt, hle⟩ := hwaits
    have hf := h.function
    rw [hentry] at hf
    obtain rfl := (Instruction.goes_iff_of_isOrdinary (hS.ordinary hf h.instruction)).1 hgo
    have hne : frame.pc ≠ stop := by
      rintro rfl
      rw [(hkept.store_entry hS h (h.op_of_inits hS hentry hinits) hentry).1] at hrest
      cases more <;> cases hrest
    exact ⟨hdepth, start, stop, hinits, by omega, by omega⟩

/-- Where the entry routine gets to an initialization, its stack is empty. -/
theorem starts_next {pc : Nat} (hgo : i.Goes frame.pc pc) (hentry : frame.function = 0) {n stop : Nat}
    (hinits : S.inits n pc stop) : shape 0 pc = some [] := by
  have hf := h.function
  rw [hentry] at hf
  have hplace := (Instruction.goes_iff_of_isOrdinary (hS.ordinary hf h.instruction)).1 hgo
  rcases hS.adjoins hinits with hzero | ⟨m, first, last, hbefore, hlast⟩
  · omega
  · obtain rfl : last = frame.pc := by omega
    obtain ⟨rfl, rfl, -⟩ := hkept.store_entry hS h (h.op_of_inits hS hentry hbefore) hentry
    have hnext := h.steps.next hgo
    rwa [hentry] at hnext

/-- A call goes on: an instruction keeps all addresses but those it takes, and what it pushes is kept from there on. -/
theorem advance {pc : Nat} (hgo : i.Goes frame.pc pc) (hsame : ∀ j < rest.length, slots[lower.length + j]? = base[j]?)
    (hputs : i.Puts (slots.drop (lower.length + rest.length))) :
    Frame.Kept p S shape slots { frame with pc } := by
  have hfunction {g : Function} {above below : Shape} {n : Nat}
    (hbears : Frame.Bears p shape slots { frame with pc } g above below n) :
      g = f := Option.some.inj (hbears.function.symm.trans h.function)
  have hnext (hop : i.op = .globA) : pc = frame.pc + 1 := (Instruction.goes_iff_of_isOrdinary (by rw [hop]; rfl)).1 hgo
  refine ⟨fun {g below n} hbears hload => ?_, fun {g above below n} hbears hload => ?_, hkept.starts_next hS h hgo⟩
  · obtain rfl := hfunction hbears
    rcases h.bears_cases hgo hsame hputs hbears with ⟨more, a, hnil, hrest, -, -⟩ | ⟨-, -, -, hop, hoperand⟩
    · obtain ⟨rfl, rfl⟩ := List.append_eq_nil_iff.1 hnil.symm
      exact absurd hload (h.not_loadsAt hS hgo hrest)
    · exact ⟨frame.pc, i, hnext hop, h.instruction, hop, hoperand⟩
  · obtain rfl := hfunction hbears
    rcases h.bears_cases hgo hsame hputs hbears with ⟨more, a, -, hrest, ha, hslot⟩ | ⟨rfl, rfl, rfl, hop, hoperand⟩
    · exact hkept.awaits_rest hS h hgo hrest ha hbears.limit hslot
    · obtain rfl := hnext hop
      exact hkept.awaits_given hS h hop hoperand (hload rfl)

end Frame.Kept

/-! ## Addresses in views -/

theorem Based.localBase_le (h : Based p D shape globals (frame :: F) lower) : frame.localBase ≤ lower.length := by
  cases h with
  | entry _ _ hlocalBase => exact Nat.le_of_eq hlocalBase
  | call _ _ _ _ _ _ _ hlocalBase =>
    simp only [hlocalBase, List.length_append]
    omega

/-- The addresses among the operands of a caller lie beneath the frame of the innermost call. -/
theorem Based.lt_argBase (hp : p.Sound D shape) (h : Based p D shape globals (innermost :: F) lower) (hframe : frame ∈ F)
    (hf : p.functions[frame.function]? = some f) {below : Shape} (hσ : shape frame.function frame.pc = some (above ++ a :: below))
    (ha : a.IsAddress) : frame.localBase + f.header.locals.toNat + below.length < innermost.argBase := by
  generalize hframes : innermost :: F = frames at h
  induction h generalizing innermost F with
  | entry =>
    obtain ⟨-, rfl⟩ := List.cons.inj hframes
    cases hframe
  | @call innermost' caller F' lower operands args cells rest s k g hlower hoperands hreturn hs hg hargBase
      hargs hlocalBase hcells ih =>
    obtain ⟨rfl, rfl⟩ := List.cons.inj hframes
    rw [hargBase, List.length_append]
    rcases List.mem_cons.1 hframe with rfl | hframe
    · rw [hreturn] at hσ
      rw [hlower.length_eq hp hf, hoperands.length_eq]
      rcases split_of_append (Option.some.inj hσ) with ⟨more, -, rfl⟩ | ⟨more, hgives, -⟩
      · rw [List.length_append, List.length_cons]
        omega
      · -- the result of a call is no address
        have hmem : a ∈ s.gives := by
          rw [hgives]
          exact List.mem_append_right _ List.mem_cons_self
        exact absurd ha ((hp.callee hs).2.2.1.isValue_gives a hmem).not_isAddress
    · have hlt := ih hframe rfl
      have := hlower.argBase_le
      have := hlower.localBase_le
      omega

/-- The callers keep their addresses if nothing beneath the frame of the innermost call is written. -/
theorem Frame.Kept.of_take (h : Standing p D shape G innermost F f lower) (hframe : frame ∈ F)
    (hkept : frame.Kept p S shape slots)
    (hbelow : slots'.take innermost.argBase = slots.take innermost.argBase) : frame.Kept p S shape slots' := by
  refine hkept.congr fun {g above below n} hbears => ?_
  obtain ⟨hg, ⟨a, ha, hσ⟩, hn, hslot⟩ := hbears
  have hlt := h.based.lt_argBase h.sound hframe hg hσ ha
  refine ⟨hg, ⟨a, ha, hσ⟩, hn, ?_⟩
  rw [← List.getElem?_take_of_lt hlt, ← hbelow, List.getElem?_take_of_lt hlt, hslot]

theorem Frame.Kept.of_empty (hσ : shape frame.function frame.pc = some []) : frame.Kept p S shape slots := by
  have hbears {f : Function} {above below : Shape} {n : Nat} (h : frame.Bears p shape slots f above below n) : False := by
    obtain ⟨a, -, hσ'⟩ := h.shape
    rw [hσ] at hσ'
    cases above <;> cases hσ'
  exact ⟨fun h => (hbears h).elim, fun h => (hbears h).elim, fun hentry _ _ _ => hentry ▸ hσ⟩

/-- The calls from the innermost one on: the entry routine stands at this place, where the functions that are called are known. -/
inductive Schedule.Stages (S : Schedule) (place : Nat) : List Frame → Prop where
  | entry {frame : Frame} (hfunction : frame.function = 0) (hpc : frame.pc = place) : Stages S place [frame]
  | call {frame : Frame} {F : List Frame} (hfunction : frame.function ≠ 0) (hopens : S.opens frame.function ≤ place)
      (h : Stages S place F) :
    Stages S place (frame :: F)

/-- All calls keep their addresses, while the entry routine stands at this place. -/
structure View.Kept (p : Program) (S : Schedule) (shape : Nat → Nat → Option Shape) (place : Nat) (v : View) : Prop where
  frames : ∀ frame ∈ v.frames, frame.Kept p S shape v.slots
  stages : S.Stages place v.frames

namespace Schedule.Stages

variable {place : Nat}

theorem ne_nil {frames : List Frame} (h : S.Stages place frames) : frames ≠ [] := by
  cases h <;> nofun

/-- The place of the entry routine after a step of the innermost of these calls. -/
def next (frames : List Frame) (place : Nat) : Nat := if frames.length = 1 then place + 1 else place

theorem stay (hS : p.Follows S) (h : S.Stages place (frame :: F)) (hf : p.functions[frame.function]? = some f)
    (hi : f.code[frame.pc]? = some i) {pc : Nat} (hgo : i.Goes frame.pc pc) :
    S.Stages (next (frame :: F) place) ({ frame with pc } :: F) := by
  cases h with
  | entry hfunction hpc =>
    rw [hfunction] at hf
    have hnext := (Instruction.goes_iff_of_isOrdinary (hS.ordinary hf hi)).1 hgo
    exact .entry hfunction (by simp only [hnext, hpc]; rfl)
  | call hfunction hopens h =>
    have hlength : (frame :: F).length ≠ 1 := by
      have := List.length_pos_iff.2 h.ne_nil
      rw [List.length_cons]
      omega
    rw [next, if_neg hlength]
    exact .call hfunction hopens h

theorem le_next (frames : List Frame) (place : Nat) : place ≤ next frames place := by
  unfold next
  split <;> omega

/-- A function that is called is known. -/
theorem opens_le (hS : p.Follows S) (h : S.Stages place (frame :: F)) (hf : p.functions[frame.function]? = some f)
    (hi : f.code[frame.pc]? = some i) (hop : i.op = .call) {n : Nat} (hn : i.operand.toInt = n) : S.opens n ≤ place := by
  obtain ⟨number, rfl, hcalls⟩ := (hS.does hf hi).of_op.2.2 hop
  have hlimit : number < placeLimit := by
    cases hk : frame.function with
    | zero =>
      rw [hk] at hcalls
      exact hcalls.1
    | succ k =>
      rw [hk] at hcalls
      exact hcalls.1
  obtain rfl : number = n := Int.ofNat.inj ((toInt_withNat hlimit).symm.trans hn)
  cases h with
  | entry hfunction hpc =>
    rw [hfunction] at hcalls
    exact hpc ▸ hcalls.2
  | call hfunction hopens h =>
    obtain ⟨k, hk⟩ := Nat.exists_eq_succ_of_ne_zero hfunction
    rw [hk] at hcalls hopens
    exact Nat.le_trans hcalls.2 hopens

end Schedule.Stages

/-- A step keeps the addresses. The entry routine goes on by one place if it is the innermost call, and stays where it is
otherwise. -/
theorem View.Kept.works (hS : p.Follows S) {u v : View} (hu : u.Kept p S shape place) (h : u.Works p D shape v) :
    v.Kept p S shape (Schedule.Stages.next u.frames place) := by
  cases h with
  | @stay G G' lower base top frame F C C' f i takes gives rest pc lower' top' h hlower hbelow hgo hgives hputs hsets =>
    obtain ⟨hkept, hcallers⟩ := List.forall_mem_cons.1 hu.frames
    have hbase := h.others.length_eq
    have hle : frame.argBase ≤ lower.length := Nat.le_trans h.based.argBase_le h.based.localBase_le
    refine ⟨List.forall_mem_cons.2 ⟨hkept.advance hS h hgo (fun j hj => ?_) ?_, fun caller hcaller => ?_⟩,
      hu.stages.stay hS h.function h.instruction hgo⟩
    · rw [List.append_assoc, ← hlower, List.getElem?_append_right (Nat.le_add_right ..), Nat.add_sub_cancel_left,
        List.getElem?_append_left (by omega)]
    · rwa [← hlower, ← hbase, ← List.length_append, List.drop_left]
    · refine .of_take h.toStanding hcaller (hcallers caller hcaller) ?_
      rw [List.append_assoc, List.append_assoc, List.take_append_of_le_length (by omega),
        List.take_append_of_le_length hle, hbelow]
  | @call G lower base top cells frame F C f i rest callee s h hop hcallee hpc hs =>
    obtain ⟨hkept, hcallers⟩ := List.forall_mem_cons.1 hu.frames
    have hbase := h.others.length_eq
    have hle : frame.argBase ≤ lower.length := Nat.le_trans h.based.argBase_le h.based.localBase_le
    have hgo : i.Goes frame.pc (frame.pc + 1) := (Instruction.goes_iff_of_isOrdinary (by rw [hop]; rfl)).2 rfl
    obtain ⟨hne, -, -, g, hg, -⟩ := h.sound.callee hs
    have hstart : shape callee.function callee.pc = some [] := by
      rw [hpc]
      exact (h.sound.shaped hg).start
    refine ⟨List.forall_mem_cons.2 ⟨.of_empty hstart, List.forall_mem_cons.2 ⟨?_, fun caller hcaller => ?_⟩⟩, ?_⟩
    · refine hkept.advance hS h hgo (fun j hj => ?_) (.of_isAddress (by rw [hop]; rfl))
      rw [List.append_assoc, List.append_assoc, List.getElem?_append_right (Nat.le_add_right ..), Nat.add_sub_cancel_left,
        List.getElem?_append_left (by omega)]
    · refine .of_take h.toStanding hcaller (hcallers caller hcaller) ?_
      rw [List.take_append_of_le_length (by simp only [List.length_append]; omega)]
    · exact .call hne (Nat.le_trans (hu.stages.opens_le hS h.function h.instruction hop hcallee) (Schedule.Stages.le_next ..))
        (hu.stages.stay hS h.function h.instruction hgo)
  | @ret G lower slots frame caller F C f i h hop hbelow =>
    obtain ⟨-, hcallers⟩ := List.forall_mem_cons.1 hu.frames
    refine ⟨fun caller hcaller => .of_take h.toStanding hcaller (hcallers caller hcaller) hbelow, ?_⟩
    rw [Schedule.Stages.next, if_neg (by simp)]
    have hstages := hu.stages
    cases hstages with
    | call _ _ h => exact h

end

end OnePass

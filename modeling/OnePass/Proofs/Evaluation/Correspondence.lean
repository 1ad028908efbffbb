import OnePass.Proofs.Emission.Outputs
import OnePass.Proofs.Evaluation.Simulation

/-!
# Memory and slots

How the memory of an evaluation is laid out in a machine. While a call is at work, its arguments and locals stand in the stack,
above what was there before and beneath the operands (`Setting.view`), and the global variables are in the slots that the pool
gives them (`Memory.InSlots`). Reading and writing a variable through its address is reading and writing the memory.
-/

namespace OnePass

variable {a : Datum} {τ : ValueType} {data : List Datum} {types : List ValueType} {i : Nat}

/-! ## Data -/

/-- The slot for a datum. -/
def Datum.slot : Datum → UInt64
  | void => 0
  | int n => n.toUInt64
  | double bits => bits
  | bool b => Exec.truth b

/-- The datum is of a type, and these slots stand for it. -/
inductive Datum.Shown : ValueType → Datum → List UInt64 → Prop where
  | void : Shown .void .void []
  | int (n : Int64) : Shown .int (.int n) [n.toUInt64]
  | double (bits : UInt64) : Shown .double (.double bits) [bits]
  /-- Of a truth value it matters only whether it is zero. -/
  | bool {b : Bool} {x : UInt64} (h : b = true ↔ x ≠ 0) : Shown .bool (.bool b) [x]

/-- A variable of the type may hold the datum. -/
def Datum.HasType (τ : ValueType) (a : Datum) : Prop := a.Shown τ [a.slot]

theorem Datum.Shown.hasType {slots : List UInt64} (h : a.Shown τ slots) (hτ : τ.IsStored) : a.HasType τ ∧ slots = [a.slot] := by
  rcases hτ with rfl | rfl <;> cases h
  · exact ⟨.int _, rfl⟩
  · exact ⟨.double _, rfl⟩

theorem ValueType.IsStored.hasType_zero (h : τ.IsStored) : τ.zero.HasType τ ∧ τ.zero.slot = 0 := by
  rcases h with rfl | rfl
  · exact ⟨.int 0, rfl⟩
  · exact ⟨.double 0, rfl⟩

/-- The data of variables of these types. -/
structure HaveTypes (types : List ValueType) (data : List Datum) : Prop where
  length : data.length = types.length
  get {i : Nat} {τ : ValueType} (h : types[i]? = some τ) : ∃ a, data[i]? = some a ∧ a.HasType τ

theorem HaveTypes.set (h : HaveTypes types data) (hi : types[i]? = some τ) (ha : a.HasType τ) :
    HaveTypes types (data.set i a) := by
  refine ⟨by rw [List.length_set, h.length], fun {j τ'} hj => ?_⟩
  have hlt := (List.getElem?_eq_some_iff.1 hi).1
  by_cases heq : i = j
  · subst heq
    rw [hi] at hj
    cases hj
    exact ⟨a, List.getElem?_set_self (by rw [h.length]; exact hlt), ha⟩
  · rw [List.getElem?_set_ne heq]
    exact h.get hj

theorem HaveTypes.zeros (h : ∀ τ ∈ types, τ.IsStored) : HaveTypes types (types.map ValueType.zero) := by
  refine ⟨List.length_map _, fun {i τ} hi => ⟨τ.zero, by rw [List.getElem?_map, hi]; rfl, ?_⟩⟩
  exact (h τ (List.mem_of_getElem? hi)).hasType_zero.1

theorem HaveTypes.cons (ha : a.HasType τ) (h : HaveTypes types data) : HaveTypes (τ :: types) (a :: data) := by
  refine ⟨by rw [List.length_cons, List.length_cons, h.length], fun {i τ'} hi => ?_⟩
  cases i with
  | zero =>
    cases hi
    exact ⟨a, rfl, ha⟩
  | succ i => exact h.get hi

/-! ## Memory -/

/-- The global variables are in the slots that the pool has for them. -/
structure Memory.InSlots (A : Source) (P : List PoolEntry) (m : Memory) (G : Array UInt64) : Prop where
  size : G.size = P.length
  get {slot : Nat} {const : Bool} {x : Bytes} {τ : ValueType} (h : P[slot]? = some (.variable const x))
    (hτ : A.typeOf? x = some τ) :
    (m.globals x).HasType τ ∧ G[slot]? = some (m.globals x).slot

/-- Of the memory only the global variables matter. -/
theorem Memory.InSlots.of_globals_eq {A : Source} {P : List PoolEntry} {m m' : Memory} {G : Array UInt64} (h : m.InSlots A P G)
    (hm : m'.globals = m.globals) : m'.InSlots A P G := by
  refine ⟨h.size, fun hslot hτ => ?_⟩
  rw [hm]
  exact h.get hslot hτ

/-- A machine with the view does what the evaluation does, with the global variables in their slots. -/
abbrev View.Evaluates (A : Source) (P : List PoolEntry) (p : Program) (u : View) (fuel : Nat) (post : α → Memory → View → Prop)
    (r : Except Halt α × Memory) : Prop := u.Simulates p (Memory.InSlots A P) fuel post r

/-- A call at work: its function, what lies beneath its slots, the calls around it, and what its slots are for. -/
structure Setting where
  function : Nat
  lower : List UInt64
  callers : List Frame
  returns : ValueType
  params : List ValueType
  locals : List ValueType

namespace Setting

variable (s : Setting)

/-- The frame of the call. -/
def frame (pc : Nat) : Frame where
  function := s.function
  pc
  argBase := s.lower.length
  localBase := s.lower.length + (s.returns.slots + s.params.length)

/-- The slots of the call: that for its result, which stays zero until the end, its arguments and its locals. -/
def cells (m : Memory) : List UInt64 := List.replicate s.returns.slots 0 ++ m.arguments.map Datum.slot ++ m.locals.map Datum.slot

/-- What a machine shows with these operands on the stack, at this place of the function. -/
def view (m : Memory) (G : Array UInt64) (ops : List UInt64) (pc : Nat) : View :=
  ⟨G, s.lower ++ s.cells m ++ ops, s.frame pc :: s.callers, m.console⟩

/-- The memory has what the slots are for. -/
structure Fits (A : Source) (P : List PoolEntry) (m : Memory) (G : Array UInt64) : Prop where
  arguments : HaveTypes s.params m.arguments
  locals : HaveTypes s.locals m.locals
  globals : m.InSlots A P G

/-- The function of the call is this one, whose header has the right sizes. -/
structure Of (p : Program) (f : Function) : Prop where
  function : p.functions[s.function]? = some f
  arguments : (f.header.params + f.header.returns).toNat = s.returns.slots + s.params.length
  returns : f.header.returns.toNat = s.returns.slots
  locals : f.header.locals.toNat = s.locals.length

end Setting

/-! ## Names -/

/-- The variable with this home is the one that the name stands for in the evaluation. -/
def Home.Means (A : Source) (P : List PoolEntry) (s : Setting) (τ : ValueType) : Home → Referent → Prop
  | .global n, .global x => A.typeOf? x = some τ ∧ ∃ const, P[n]? = some (.variable const x)
  | .local n, .local i => n = i ∧ s.locals[i]? = some τ
  | .argument n, .argument i => n = s.returns.slots + i ∧ s.params[i]? = some τ
  | _, _ => False

/-- The function with this place among the definitions has this number and these types. -/
structure Source.HasFunction (A : Source) (k number : Nat) (params : List ValueType) (returns : ValueType) : Prop where
  plain : Signature.IsPlain ⟨params, returns⟩
  number : number = Source.functions (A.take k) + 1
  definition : ∃ name ps type body, A[k]? = some (.function name ps type body) ∧ params = ps.map (·.type.type) ∧
    returns = type.type

/-- The name stands for the same in the code and in the evaluation. -/
def Binding.Means (A : Source) (P : List PoolEntry) (s : Setting) : Binding → Referent → Prop
  | .variable τ _ _ home, r => τ.IsStored ∧ home.Means A P s τ r
  | .function params returns number _, .function k => A.HasFunction k number params returns
  | .function .., _ => False

/-- All names stand for the same. -/
def Scope.Means (A : Source) (P : List PoolEntry) (s : Setting) : Scope → Environment → Prop
  | [], [] => True
  | (x, b) :: N, (y, r) :: E => x = y ∧ b.Means A P s r ∧ Scope.Means A P s N E
  | _, _ => False

section

variable {A : Source} {P : List PoolEntry} {s : Setting} {N : Scope} {E : Environment} {x : Bytes}

/-- A name is unknown on both sides, or stands for the same. -/
theorem Scope.Means.lookup_cases (h : N.Means A P s E) (x : Bytes) :
    (N.lookup x = none ∧ E.lookup x = none) ∨ ∃ b r, N.lookup x = some b ∧ E.lookup x = some r ∧ b.Means A P s r := by
  induction N generalizing E with
  | nil => cases E with
    | nil => exact .inl ⟨rfl, rfl⟩
    | cons => exact h.elim
  | cons entry N ih => cases E with
    | nil => exact h.elim
    | cons entry' E =>
      obtain ⟨y, b⟩ := entry
      obtain ⟨z, r⟩ := entry'
      obtain ⟨rfl, hb, h⟩ := h
      rw [List.lookup_cons, List.lookup_cons]
      cases x == y with
      | true => exact .inr ⟨b, r, rfl, rfl, hb⟩
      | false => exact ih h

theorem Scope.Means.lookup_none (h : N.Means A P s E) (hx : N.lookup x = none) : E.lookup x = none := by
  rcases h.lookup_cases x with ⟨-, hE⟩ | ⟨b, r, hN, -, -⟩
  · exact hE
  · rw [hx] at hN
    cases hN

theorem Scope.Means.lookup {b : Binding} (h : N.Means A P s E) (hx : N.lookup x = some b) :
    ∃ r, E.lookup x = some r ∧ b.Means A P s r := by
  rcases h.lookup_cases x with ⟨hN, -⟩ | ⟨b', r, hN, hE, hb⟩
  · rw [hx] at hN
    cases hN
  · rw [hx] at hN
    cases hN
    exact ⟨r, hE, hb⟩

theorem Scope.Means.append {N' : Scope} {E' : Environment} (h : N.Means A P s E) (h' : N'.Means A P s E') :
    Scope.Means A P s (N ++ N') (E ++ E') := by
  induction N generalizing E with
  | nil => cases E with
    | nil => exact h'
    | cons => exact h.elim
  | cons entry N ih => cases E with
    | nil => exact h.elim
    | cons entry' E => exact ⟨h.1, h.2.1, ih h.2.2⟩

end

/-! ## Variables -/

/-- The address of the variable with a home. -/
def Setting.addressOf (s : Setting) : Home → UInt64
  | .global n => Address.ofGlobal n
  | .local n => Address.ofStack (s.lower.length + (s.returns.slots + s.params.length) + n)
  | .argument n => Address.ofStack (s.lower.length + n)

section

variable {A : Source} {P : List PoolEntry} {p : Program} {s : Setting} {f : Function} {m : Memory}
  {G : Array UInt64} {F : List Frame} {C : Console} {τ : ValueType} {home : Home} {r : Referent}
variable {after before : List UInt64} {n : Nat}

theorem Home.Means.pushes (h : home.Means A P s τ r) (hs : s.Of p f) (hsize : G.size = P.length) (hP : P.length < placeLimit)
    (pc next : Nat) : Exec.Leads.Pushes (Exec.execute (s.frame pc) f next home.address) p G F C [s.addressOf home] := by
  have hoperand {n : Nat} (hn : n < placeLimit) : (Int64.ofInt n).toInt = n :=
    Int64.toInt_ofInt_of_le (by omega) (by unfold placeLimit at hn; omega)
  have hword (n : UInt32) : n.toNat < placeLimit := Nat.lt_trans n.toNat_lt (by decide)
  cases home with
  | «global» n => cases r with
    | «global» x =>
      obtain ⟨-, const, hn⟩ := h
      have hlt := (List.getElem?_eq_some_iff.1 hn).1
      exact Exec.Leads.pushes_execute_globA rfl (hoperand (Nat.lt_trans hlt hP)) (hsize ▸ hlt)
    | _ => exact h.elim
  | «local» n => cases r with
    | «local» i =>
      obtain ⟨rfl, hn⟩ := h
      have hlt : n < f.header.locals.toNat := hs.locals ▸ (List.getElem?_eq_some_iff.1 hn).1
      exact Exec.Leads.pushes_execute_locA rfl (hoperand (Nat.lt_trans hlt (hword _))) hlt
    | _ => exact h.elim
  | argument n => cases r with
    | argument i =>
      obtain ⟨rfl, hn⟩ := h
      have hlt : s.returns.slots + i < (f.header.params + f.header.returns).toNat := by
        rw [hs.arguments]
        exact Nat.add_lt_add_left (List.getElem?_eq_some_iff.1 hn).1 _
      exact Exec.Leads.pushes_execute_argA rfl (hoperand (Nat.lt_trans hlt (hword _))) hlt
    | _ => exact h.elim

/-- The locals of the call in the stack. -/
theorem Setting.slots_eq_locals (s : Setting) (m : Memory) (ops : List UInt64) : s.lower ++ s.cells m ++ ops =
    (s.lower ++ (List.replicate s.returns.slots 0 ++ m.arguments.map Datum.slot)) ++ (m.locals.map Datum.slot ++ ops) := by
  simp [Setting.cells]

/-- The arguments of the call in the stack. -/
theorem Setting.slots_eq_arguments (s : Setting) (m : Memory) (ops : List UInt64) : s.lower ++ s.cells m ++ ops =
    (s.lower ++ List.replicate s.returns.slots 0) ++ (m.arguments.map Datum.slot ++ (m.locals.map Datum.slot ++ ops)) := by
  simp [Setting.cells]

theorem getElem?_append_map_slot (hn : n = before.length + i) (ha : data[i]? = some a) :
    (before ++ (data.map Datum.slot ++ after))[n]? = some a.slot := by
  have hlt := (List.getElem?_eq_some_iff.1 ha).1
  rw [List.getElem?_append_right (by omega), List.getElem?_append_left (by rw [List.length_map]; omega), List.getElem?_map,
    show n - before.length = i by omega, ha]
  rfl

theorem set_append_map_slot (hn : n = before.length + i) (hlt : i < data.length) :
    (before ++ (data.map Datum.slot ++ after)).set n a.slot = before ++ ((data.set i a).map Datum.slot ++ after) := by
  rw [List.set_append_right _ _ (by omega), show n - before.length = i by omega,
    List.set_append_left _ _ (by rwa [List.length_map]), List.map_set]

theorem Home.Means.read (h : home.Means A P s τ r) (hm : s.Fits A P m G) (hP : P.length < placeLimit) :
    ∃ a, r.read? m = some a ∧ a.HasType τ ∧ ∀ (ops : List UInt64) (F : List Frame) (C : Console),
      Exec.Leads (Exec.read (s.addressOf home)) p ⟨G, s.lower ++ s.cells m ++ ops, F, C⟩ (.ok a.slot)
        ⟨G, s.lower ++ s.cells m ++ ops, F, C⟩ := by
  cases home with
  | «global» n => cases r with
    | «global» x =>
      obtain ⟨hτ, const, hn⟩ := h
      obtain ⟨htype, hget⟩ := hm.globals.get hn hτ
      exact ⟨_, rfl, htype, fun _ _ _ => .read_ofGlobal (Nat.lt_trans (List.getElem?_eq_some_iff.1 hn).1 hP) hget⟩
    | _ => exact h.elim
  | «local» n => cases r with
    | «local» i =>
      obtain ⟨rfl, hn⟩ := h
      obtain ⟨a, ha, htype⟩ := hm.locals.get hn
      refine ⟨a, ha, htype, fun ops F C => .read_ofStack ?_⟩
      rw [s.slots_eq_locals]
      exact getElem?_append_map_slot (by simp [hm.arguments.length]) ha
    | _ => exact h.elim
  | argument n => cases r with
    | argument i =>
      obtain ⟨rfl, hn⟩ := h
      obtain ⟨a, ha, htype⟩ := hm.arguments.get hn
      refine ⟨a, ha, htype, fun ops F C => .read_ofStack ?_⟩
      rw [s.slots_eq_arguments]
      exact getElem?_append_map_slot (by simp [Nat.add_assoc]) ha
    | _ => exact h.elim

theorem Memory.InSlots.write {n : Nat} {const : Bool} {x : Bytes} {a : Datum} (h : m.InSlots A P G) (hP : DistinctVariables P)
    (hn : P[n]? = some (.variable const x)) (hτ : A.typeOf? x = some τ) (ha : a.HasType τ) :
    ((Referent.global x).write a m).InSlots A P (G.modify n fun _ => a.slot) := by
  refine ⟨by rw [Array.size_modify, h.size], fun {slot const' y τ'} hslot hτ' => ?_⟩
  have hsize : n < G.size := h.size ▸ (List.getElem?_eq_some_iff.1 hn).1
  by_cases hy : y = x
  · subst hy
    obtain rfl := hP hn hslot
    rw [hτ] at hτ'
    cases hτ'
    simp only [Referent.write, if_true]
    exact ⟨ha, by rw [Array.getElem?_modify, if_pos rfl, Array.getElem?_eq_getElem hsize]; rfl⟩
  · have hne : n ≠ slot := by
      rintro rfl
      rw [hn] at hslot
      cases hslot
      exact hy rfl
    simp only [Referent.write, if_neg hy]
    rw [Array.getElem?_modify, if_neg hne]
    exact h.get hslot hτ'

theorem Home.Means.write {a : Datum} (h : home.Means A P s τ r) (hm : s.Fits A P m G) (hP : P.length < placeLimit)
    (hdistinct : DistinctVariables P) (ha : a.HasType τ) :
    ∃ G', s.Fits A P (r.write a m) G' ∧ ∀ (ops : List UInt64) (F : List Frame) (C : Console),
      Exec.Leads (Exec.write (s.addressOf home) a.slot) p ⟨G, s.lower ++ s.cells m ++ ops, F, C⟩ (.ok ())
        ⟨G', s.lower ++ s.cells (r.write a m) ++ ops, F, C⟩ := by
  cases home with
  | «global» n => cases r with
    | «global» x =>
      obtain ⟨hτ, const, hn⟩ := h
      have hlt := (List.getElem?_eq_some_iff.1 hn).1
      refine ⟨_, ⟨hm.arguments, hm.locals, hm.globals.write hdistinct hn hτ ha⟩, fun ops F C => ?_⟩
      exact .write_ofGlobal (Nat.lt_trans hlt hP) (hm.globals.size ▸ hlt)
    | _ => exact h.elim
  | «local» n => cases r with
    | «local» i =>
      obtain ⟨rfl, hn⟩ := h
      have hlt : n < m.locals.length := hm.locals.length ▸ (List.getElem?_eq_some_iff.1 hn).1
      refine ⟨G, ⟨hm.arguments, hm.locals.set hn ha, hm.globals.of_globals_eq rfl⟩, fun ops F C => ?_⟩
      have hplace : s.lower.length + (s.returns.slots + s.params.length) + n =
          (s.lower ++ (List.replicate s.returns.slots 0 ++ m.arguments.map Datum.slot)).length +
            n := by simp [hm.arguments.length]
      rw [s.slots_eq_locals, s.slots_eq_locals]
      simp only [Referent.write]
      rw [← set_append_map_slot hplace hlt]
      exact .write_ofStack (by simp [hm.arguments.length]; omega)
    | _ => exact h.elim
  | argument n => cases r with
    | argument i =>
      obtain ⟨rfl, hn⟩ := h
      have hlt : i < m.arguments.length := hm.arguments.length ▸ (List.getElem?_eq_some_iff.1 hn).1
      refine ⟨G, ⟨hm.arguments.set hn ha, hm.locals, hm.globals.of_globals_eq rfl⟩, fun ops F C => ?_⟩
      have hplace : s.lower.length + (s.returns.slots + i) = (s.lower ++ List.replicate s.returns.slots 0).length + i := by
        simp [Nat.add_assoc]
      rw [s.slots_eq_arguments, s.slots_eq_arguments]
      simp only [Referent.write]
      rw [← set_append_map_slot hplace hlt]
      exact .write_ofStack (by simp; omega)
    | _ => exact h.elim

end

end OnePass

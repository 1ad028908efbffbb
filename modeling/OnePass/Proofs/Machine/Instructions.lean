import OnePass.Proofs.Machine.Views

/-!
# What instructions do

Each instruction as it leads from one view of the machine to the next. Operations on the topmost slot, and on the two topmost
ones, are one family each (`Opcode.unary?`, `Opcode.binary?`). At the end stands what a step does: it takes the next instruction
of the innermost call, moves on past it and executes it (`Machine.Shows.step`).
-/

namespace OnePass

namespace Opcode

/-- What an operation on the topmost slot makes of it. -/
def unary? : Opcode → Option (UInt64 → UInt64)
  | not => some fun x => Exec.truth (x == 0)
  | negI => some fun x => (-x.toInt64).toUInt64
  | negF => some Double.neg
  | iToF => some fun x => Double.ofInt64 x.toInt64
  | fToI => some fun x => (Double.toInt64 x).toUInt64
  | setLt => some fun x => Exec.truth (x.toInt64 < 0)
  | setGt => some fun x => Exec.truth (0 < x.toInt64)
  | _ => none

/-- What an operation on the two topmost slots, which never fails, makes of them. -/
def binary? : Opcode → Option (UInt64 → UInt64 → UInt64)
  | addI => some fun x y => (x.toInt64 + y.toInt64).toUInt64
  | subI => some fun x y => (x.toInt64 - y.toInt64).toUInt64
  | mulI => some fun x y => (x.toInt64 * y.toInt64).toUInt64
  | addF => some Double.add
  | subF => some Double.sub
  | mulF => some Double.mul
  | divF => some Double.div
  | cmpI => some fun x y => Exec.order (x.toInt64 < y.toInt64) (y.toInt64 < x.toInt64)
  | cmpF => some fun x y => Exec.order (Double.lt x y) (Double.lt y x)
  | _ => none

end Opcode

namespace Exec.Leads

variable {p : Program} {G : Array UInt64} {S : List UInt64} {F : List Frame} {C : Console} {frame : Frame}
  {f : Function} {next : Nat} {i : Instruction}
variable {a x y : UInt64} {n target : Nat} {u v : View} {r : Except MachineFault Unit}

/-- The slots in use are no more than the stack has. -/
theorem of_length_le {α : Type} {x : Exec α} {r : Except MachineFault α} (h : u.slots.length ≤ stackSize → Leads x p u r v) :
    Leads x p u r v := fun m hm => h hm.length_le m hm

theorem length_lt_of_snoc (h : (S ++ [x]).length ≤ stackSize) : S.length < stackSize := by
  rw [List.length_append, List.length_singleton] at h
  exact h

theorem execute_unary {g : UInt64 → UInt64} (h : i.op.unary? = some g) :
    Leads (execute frame f next i) p ⟨G, S ++ [x], F, C⟩ (.ok ()) ⟨G, S ++ [g x], F, C⟩ := by
  refine of_length_le fun hlength => ?_
  have hsize : S.length < stackSize := length_lt_of_snoc hlength
  unfold execute
  cases hop : i.op <;> rw [hop] at h <;> cases h <;> exact bind pop (push hsize)

theorem execute_binary {g : UInt64 → UInt64 → UInt64} (h : i.op.binary? = some g) :
    Leads (Exec.execute frame f next i) p ⟨G, S ++ [x] ++ [y], F, C⟩ (.ok ()) ⟨G, S ++ [g x y], F, C⟩ := by
  refine of_length_le fun hlength => ?_
  have hsize : S.length < stackSize := by
    have := length_lt_of_snoc hlength
    rw [List.length_append] at this
    omega
  unfold Exec.execute
  cases hop : i.op <;> rw [hop] at h <;> cases h <;> exact bind pop2 (push hsize)

theorem execute_divI (hop : i.op = .divI) (hy : y ≠ 0) :
    Leads (Exec.execute frame f next i) p ⟨G, S ++ [x] ++ [y], F, C⟩ (.ok ())
      ⟨G, S ++ [(x.toInt64 / y.toInt64).toUInt64], F, C⟩ := by
  refine of_length_le fun hlength => ?_
  have hsize : S.length < stackSize := by
    have := length_lt_of_snoc hlength
    rw [List.length_append] at this
    omega
  unfold Exec.execute
  simp only [hop]
  refine bind pop2 ?_
  simp only [if_neg hy]
  exact push hsize

theorem execute_divI_zero (hop : i.op = .divI) :
    Leads (Exec.execute frame f next i) p ⟨G, S ++ [x] ++ [0], F, C⟩ (.error .divideByZero) ⟨G, S, F, C⟩ := by
  unfold Exec.execute
  simp only [hop]
  refine bind pop2 ?_
  simp only [if_pos]
  exact bind_error (.throw _)

theorem execute_pop (hop : i.op = .pop) : Leads (Exec.execute frame f next i) p ⟨G, S ++ [x], F, C⟩ (.ok ()) ⟨G, S, F, C⟩ := by
  unfold Exec.execute
  simp only [hop]
  exact bind pop (.pure _)

theorem execute_popN {more : List UInt64} (hop : i.op = .popN) (hoperand : i.operand.toInt = more.length) :
    Leads (Exec.execute frame f next i) p ⟨G, S ++ more, F, C⟩ (.ok ()) ⟨G, S, F, C⟩ := by
  unfold Exec.execute
  simp only [hop, hoperand]
  refine get_bind fun m hm => ?_
  have hsp := hm.sp
  rw [List.length_append] at hsp
  rw [if_neg (by omega)]
  refine bind (.pure _) (modify fun m hm => ?_) m hm
  have hshrink := hm.shrink rfl
  rwa [show S.length = m.sp - (more.length : Int).toNat by rw [hm.sp]; simp] at hshrink

/-! ## Instructions that push -/

/-- Pushes slots if there is room for them, and otherwise overflows the stack. -/
structure Pushes (x : Exec Unit) (p : Program) (G : Array UInt64) (F : List Frame) (C : Console) (more : List UInt64) : Prop where
  ok {S : List UInt64} (h : S.length + more.length ≤ stackSize) : Leads x p ⟨G, S, F, C⟩ (.ok ()) ⟨G, S ++ more, F, C⟩
  overflow {S : List UInt64} (h : stackSize < S.length + more.length) :
    ∃ part, Leads x p ⟨G, S, F, C⟩ (.error .stackOverflow) ⟨G, S ++ part, F, C⟩

theorem pushes_push (x : UInt64) : Pushes (Exec.push x) p G F C [x] where
  ok h := push h
  overflow {S} h := ⟨[], of_length_le fun hlength => by
    rw [List.append_nil]
    exact push_error (Nat.le_antisymm hlength (Nat.le_of_lt_succ h))⟩

theorem pushes_pushZeros (n : Nat) : Pushes (Exec.pushZeros n) p G F C (List.replicate n 0) where
  ok h := pushZeros (by rwa [List.length_replicate] at h)
  overflow {S} h := ⟨List.replicate (stackSize - S.length) 0, of_length_le fun hlength =>
    pushZeros_error hlength (by rwa [List.length_replicate] at h)⟩

theorem pushes_execute_push (hop : i.op = .push) : Pushes (Exec.execute frame f next i) p G F C [i.operand.toUInt64] := by
  unfold Exec.execute
  simp only [hop]
  exact pushes_push _

theorem pushes_execute_stackAlloc (hop : i.op = .stackAlloc) (hoperand : i.operand.toInt = n) :
    Pushes (Exec.execute frame f next i) p G F C (List.replicate n 0) := by
  unfold Exec.execute
  simp only [hop, hoperand, Int.toNat_natCast]
  exact pushes_pushZeros n

theorem pushes_execute_locA (hop : i.op = .locA) (hoperand : i.operand.toInt = n) (hn : n < f.header.locals.toNat) :
    Pushes (Exec.execute frame f next i) p G F C [Address.ofStack (frame.localBase + n)] := by
  unfold Exec.execute
  simp only [hop, hoperand]
  rw [if_neg (by omega)]
  exact pushes_push _

theorem execute_locA_error (hop : i.op = .locA) (hoperand : i.operand.toInt = n) (hn : f.header.locals.toNat ≤ n) :
    Leads (Exec.execute frame f next i) p ⟨G, S, F, C⟩ (.error (.noLocal n)) ⟨G, S, F, C⟩ := by
  unfold Exec.execute
  simp only [hop, hoperand]
  rw [if_pos (by omega)]
  exact bind_error (.throw _)

theorem pushes_execute_argA (hop : i.op = .argA) (hoperand : i.operand.toInt = n)
    (hn : n < (f.header.params + f.header.returns).toNat) :
    Pushes (Exec.execute frame f next i) p G F C [Address.ofStack (frame.argBase + n)] := by
  unfold Exec.execute
  simp only [hop, hoperand]
  rw [if_neg (by omega)]
  exact pushes_push _

theorem pushes_execute_globA (hop : i.op = .globA) (hoperand : i.operand.toInt = n) (hn : n < G.size) :
    Pushes (Exec.execute frame f next i) p G F C [Address.ofGlobal n] := by
  have hglob {S : List UInt64} {r : Except MachineFault Unit} {v : View}
      (h : Leads (Exec.push (Address.ofGlobal n)) p ⟨G, S, F, C⟩ r v) :
        Leads (Exec.execute frame f next i) p ⟨G, S, F, C⟩ r v := by
    unfold Exec.execute
    simp only [hop, hoperand]
    refine get_bind fun m hm => ?_
    rw [hm.globals, if_neg (by simp only; omega)]
    exact h m hm
  refine ⟨fun h => hglob ((pushes_push _).ok h), fun h => ?_⟩
  obtain ⟨part, hpart⟩ := (pushes_push (p := p) (G := G) (F := F) (C := C) (Address.ofGlobal n)).overflow h
  exact ⟨part, hglob hpart⟩

/-! ## Loads and stores -/

theorem read_ofGlobal (hn : n < 2 ^ 62) (hx : G[n]? = some x) :
    Leads (Exec.read (Address.ofGlobal n)) p ⟨G, S, F, C⟩ (.ok x) ⟨G, S, F, C⟩ :=
  read_global (Address.region_ofGlobal hn) (by rwa [Address.index_ofGlobal hn])

theorem read_ofStack (hx : S[n]? = some x) : Leads (Exec.read (Address.ofStack n)) p ⟨G, S, F, C⟩ (.ok x) ⟨G, S, F, C⟩ := by
  refine of_length_le fun hlength => ?_
  have hn : n < 2 ^ 62 := Nat.lt_of_lt_of_le (List.getElem?_eq_some_iff.1 hx).1 (Nat.le_trans hlength (by decide))
  exact read_stack (Address.region_ofStack hn) (by rwa [Address.index_ofStack hn])

theorem write_ofGlobal (hn : n < 2 ^ 62) (hsize : n < G.size) :
    Leads (Exec.write (Address.ofGlobal n) x) p ⟨G, S, F, C⟩ (.ok ()) ⟨G.modify n fun _ => x, S, F, C⟩ := by
  have hwrite := write_global (p := p) (S := S) (F := F) (C := C) (x := x) (Address.region_ofGlobal hn) (G := G)
    (by rwa [Address.index_ofGlobal hn])
  rwa [Address.index_ofGlobal hn] at hwrite

theorem write_ofStack (hsize : n < S.length) : Leads (Exec.write (Address.ofStack n) x) p ⟨G, S, F, C⟩
    (.ok ()) ⟨G, S.set n x, F, C⟩ := by
  refine of_length_le fun hlength => ?_
  have hn : n < 2 ^ 62 := Nat.lt_of_lt_of_le hsize (Nat.le_trans hlength (by decide))
  have hwrite := write_stack (p := p) (G := G) (F := F) (C := C) (x := x) (Address.region_ofStack hn) (S := S)
    (by rwa [Address.index_ofStack hn])
  rwa [Address.index_ofStack hn] at hwrite

theorem execute_load (hop : i.op = .load) (hread : Leads (Exec.read a) p ⟨G, S, F, C⟩ (.ok x) ⟨G, S, F, C⟩) :
    Leads (Exec.execute frame f next i) p ⟨G, S ++ [a], F, C⟩ (.ok ()) ⟨G, S ++ [x], F, C⟩ := by
  refine of_length_le fun hlength => ?_
  have hsize : S.length < stackSize := length_lt_of_snoc hlength
  unfold Exec.execute
  simp only [hop]
  exact bind pop (bind hread (push hsize))

theorem execute_store (hop : i.op = .store) (hwrite : Leads (Exec.write a x) p ⟨G, S, F, C⟩ (.ok ()) v) :
    Leads (Exec.execute frame f next i) p ⟨G, S ++ [a] ++ [x], F, C⟩ (.ok ()) v := by
  unfold Exec.execute
  simp only [hop]
  exact bind pop2 hwrite

/-! ## Branches and calls -/

variable {top : Frame}

theorem execute_br (hop : i.op = .br) (htarget : (Int64.ofNat next + i.operand).toInt = target) (hsize : target ≤ f.code.size) :
    Leads (Exec.execute frame f next i) p ⟨G, S, top :: F, C⟩ (.ok ()) ⟨G, S, { top with pc := target } :: F, C⟩ := by
  unfold Exec.execute
  simp only [hop]
  exact branch htarget hsize

theorem execute_brTrue (hop : i.op = .brTrue) (hx : x ≠ 0) (htarget : (Int64.ofNat next + i.operand).toInt = target)
    (hsize : target ≤ f.code.size) :
    Leads (Exec.execute frame f next i) p ⟨G, S ++ [x], top :: F, C⟩ (.ok ()) ⟨G, S, { top with pc := target } :: F, C⟩ := by
  unfold Exec.execute
  simp only [hop]
  refine bind pop ?_
  rw [if_pos hx]
  exact branch htarget hsize

theorem execute_brTrue_zero (hop : i.op = .brTrue) :
    Leads (Exec.execute frame f next i) p ⟨G, S ++ [0], F, C⟩ (.ok ()) ⟨G, S, F, C⟩ := by
  unfold Exec.execute
  simp only [hop]
  refine bind pop ?_
  rw [if_neg (by decide)]
  exact .pure _

theorem execute_call (hop : i.op = .call) (hoperand : i.operand.toInt = n) (h : Leads (Exec.enter n) p u r v) :
    Leads (Exec.execute frame f next i) p u r v := by
  unfold Exec.execute
  simp only [hop, hoperand]
  exact h

theorem execute_ret (hop : i.op = .ret) (h : Leads (Exec.leave frame f) p u r v) :
    Leads (Exec.execute frame f next i) p u r v := by
  unfold Exec.execute
  simp only [hop]
  exact h

theorem execute_callName (hop : i.op = .callName) (hoperand : i.operand.toInt = n) (h : Leads (Exec.callPrimitive n) p u r v) :
    Leads (Exec.execute frame f next i) p u r v := by
  unfold Exec.execute
  simp only [hop, hoperand]
  exact h

end Exec.Leads

namespace Machine.Shows

variable {m : Machine} {p : Program} {G : Array UInt64} {S : List UInt64} {frame : Frame} {F : List Frame}
  {C : Console} {f : Function}

/-- A step executes the next instruction of the innermost call, the program counter being past it already. -/
theorem step {i : Instruction} {r : Except MachineFault Unit} {v : View} (hm : m.Shows p ⟨G, S, frame :: F, C⟩)
    (hf : p.functions[frame.function]? = some f) (hi : f.code[frame.pc]? = some i)
    (h : Exec.Leads (Exec.execute frame f (frame.pc + 1) i) p ⟨G, S, frame.next :: F, C⟩ r v) :
    ∃ m', m.step = (r, m') ∧ m'.Shows p v := by
  unfold Machine.step
  rw [if_neg (by rw [hm.running]; nofun), hm.frames]
  refine Exec.Leads.get_bind (fun m hm => ?_) m hm
  simp only [hm.program, hf, hi]
  exact Exec.Leads.bind (Exec.Leads.jump _) h m hm

/-- The entry routine halts at its end. -/
theorem step_halt (hm : m.Shows p ⟨G, S, [frame], C⟩) (hf : p.functions[frame.function]? = some f)
    (hi : f.code[frame.pc]? = none) :
    m.step = (.ok (), { m with halted := true }) := by
  unfold Machine.step
  rw [if_neg (by rw [hm.running]; nofun), hm.frames]
  change (Exec.advance frame).run m = _
  rw [Exec.advance, Exec.run_get_bind]
  simp only [hm.program, hf, hi, hm.frames]
  rfl

end Machine.Shows

end OnePass

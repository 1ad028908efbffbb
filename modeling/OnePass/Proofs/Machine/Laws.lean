import OnePass.Proofs.Machine.Views

/-!
# Laws of steps

What holds of most parts of a step holds since the few parts that touch the machine keep it. Such a property is a law
(`Exec.Law`); the instructions are gone through here once.
-/

namespace OnePass

/-- The instruction looks at nothing of the machine but its slots, and goes on to the next one. -/
def Opcode.isPlain : Opcode → Bool
  | popN | globA | br | brFalse | brTrue | call | ret | callName => false
  | _ => true

namespace Exec

/-- A property that parts of a step take over from their own parts, and that the parts which touch the machine have. -/
structure Law (L : ∀ {α : Type}, Exec α → Prop) : Prop where
  pure {α : Type} (a : α) : L (pure a)
  throw {α : Type} {e : MachineFault} (he : e ≠ .beyondStack) : L (throw e : Exec α)
  bind {α β : Type} {x : Exec α} {f : α → Exec β} (hx : L x) (hf : ∀ a, L (f a)) : L (x >>= f)
  push (x : UInt64) : L (push x)
  pop : L pop
  top : L top
  setTop (x : UInt64) : L (setTop x)
  read (a : UInt64) : L (read a)
  write (a x : UInt64) : L (write a x)
  print (b : Bytes) : L (print b)
  printGlobal (index : UInt64) : L (printGlobal index)
  /-- Taking something off the input. -/
  take {α : Type} (reader : Bytes → α × Bytes) : L (modifyGet fun m : Machine =>
    ((reader m.console.input).1, { m with console := { m.console with input := (reader m.console.input).2 } }))

namespace Law

variable {L : ∀ {α : Type}, Exec α → Prop} (h : Law L) {α : Type}

include h

/-- A check before the rest of a step. -/
theorem check {c : Prop} [Decidable c] {e : MachineFault} (he : e ≠ .beyondStack) {x : Exec α} (hx : L x) :
    L (if c then (MonadExcept.throw e : Exec Unit) >>= fun _ => x else x) := by
  split
  · exact h.bind (h.throw he) fun _ => hx
  · exact hx

theorem pushZeros (n : Nat) : L (pushZeros n) := by
  induction n with
  | zero => exact h.pure ()
  | succ n ih => exact h.bind (h.push 0) fun _ => ih

theorem pop2 : L pop2 := h.bind h.pop fun _ => h.bind h.pop fun _ => h.pure _

theorem unary (f : UInt64 → UInt64) : L (unary f) := h.bind h.pop fun _ => h.push _

theorem binary (f : UInt64 → UInt64 → UInt64) : L (binary f) := h.bind h.pop2 fun _ => h.push _

theorem scan (primitive : Primitive) (reader : Bytes → Except InputError α × Bytes) : L (scan primitive reader) := by
  refine h.bind (h.take reader) fun result => ?_
  cases result with
  | ok a => exact h.pure a
  | error e => exact h.throw (by nofun)

/-- A primitive, once it has its slots. -/
theorem carryOut (primitive : Primitive) : L (carryOut primitive) := by
  cases primitive with
  | getint | getchar | getdouble => exact h.bind (h.scan _ _) fun _ => h.setTop _
  | putint | putchar | putdouble => exact h.bind h.pop fun _ => h.print _
  | putstr => exact h.bind h.pop fun _ => h.printGlobal _
  | putln => exact h.print _

/-- A plain instruction. -/
theorem execute {i : Instruction} (hplain : i.op.isPlain = true) (frame : Frame) (f : Function) (next : Nat) :
    L (execute frame f next i) := by
  unfold Exec.execute
  cases hop : i.op with
  | nop => exact h.pure ()
  | push => exact h.push _
  | pop => exact h.bind h.pop fun _ => h.pure _
  | dup => exact h.bind h.top fun _ => h.push _
  | locA | argA => exact h.check (by nofun) (h.push _)
  | load => exact h.bind h.pop fun _ => h.bind (h.read _) fun _ => h.push _
  | store => exact h.bind h.pop2 fun _ => h.write _ _
  | stackAlloc => exact h.pushZeros _
  | addI | subI | mulI | addF | subF | mulF | divF | cmpI | cmpF => exact h.binary _
  | divI => exact h.bind h.pop2 fun _ => h.check (by nofun) (h.push _)
  | not | negI | negF | iToF | fToI | setLt | setGt => exact h.unary _
  | abort | marker | unassigned => exact h.throw (by nofun)
  | popN | globA | br | brFalse | brTrue | call | ret | callName =>
    rw [hop] at hplain
    cases hplain

end Law

end Exec

end OnePass

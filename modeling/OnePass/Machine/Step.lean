import OnePass.Machine.Basic

/-!
# Steps of the machine

What each instruction does. An instruction that fails leaves the machine as far as it got, with the program counter already past
it, so that a machine may be stepped on after a fault.
-/

namespace OnePass

/-- A part of a step: it changes the machine, also when it fails. -/
abbrev Exec := ExceptT MachineFault (StateM Machine)

namespace Exec

/-! ## The stack -/

/-- Pushes a slot. -/
def push (x : UInt64) : Exec Unit := do
  let m ← get
  if h : m.sp < stackSize then set { m with stack := m.stack.set m.sp x h, sp := m.sp + 1 }
  else throw .stackOverflow

/-- Pushes zeros one by one. -/
def pushZeros : Nat → Exec Unit
  | 0 => return ()
  | n + 1 => do
    push 0
    pushZeros n

/-- Pops a slot. -/
def pop : Exec UInt64 := do
  let m ← get
  if m.sp = 0 then throw .stackUnderflow
  set { m with sp := m.sp - 1 }
  if h : m.sp - 1 < stackSize then return m.stack[m.sp - 1] else throw .beyondStack

/-- Pops two slots, of which the second was pushed first. Gives them in the order they were pushed. -/
def pop2 : Exec (UInt64 × UInt64) := do
  let y ← pop
  let x ← pop
  return (x, y)

/-- The slot on top, which stays there. -/
def top : Exec UInt64 := do
  let m ← get
  if m.sp = 0 then throw .stackUnderflow
  if h : m.sp - 1 < stackSize then return m.stack[m.sp - 1] else throw .beyondStack

/-- Sets the slot on top. -/
def setTop (x : UInt64) : Exec Unit := do
  let m ← get
  if h : m.sp - 1 < stackSize then set { m with stack := m.stack.set (m.sp - 1) x h } else throw .beyondStack

/-- The slot at an address: a global, or a place on the stack in use. -/
def read (a : UInt64) : Exec UInt64 := do
  let m ← get
  let i := Address.index a
  if Address.region a = Address.globalRegion ∧ i < m.globals.size then return (m.globals[i]?).getD 0
  else if Address.region a = Address.stackRegion ∧ i < m.sp then
    if h : i < stackSize then return m.stack[i] else throw .beyondStack
  else throw (.badAddress a)

/-- Sets the slot at an address. -/
def write (a x : UInt64) : Exec Unit := do
  let m ← get
  let i := Address.index a
  if Address.region a = Address.globalRegion ∧ i < m.globals.size then set { m with globals := m.globals.modify i fun _ => x }
  else if Address.region a = Address.stackRegion ∧ i < m.sp then
    if h : i < stackSize then set { m with stack := m.stack.set i x h } else throw .beyondStack
  else throw (.badAddress a)

/-! ## Calls and branches -/

/-- Enters a function, whose arguments are on the stack. -/
def enter (operand : Int) : Exec Unit := do
  let m ← get
  match if operand < 0 then none else m.program.functions[operand.toNat]? with
  | none => throw (.noFunction operand)
  | some f =>
    let arguments := f.header.params.toNat + f.header.returns.toNat
    let localBase := m.sp
    if localBase < arguments then throw .stackUnderflow
    pushZeros f.header.locals.toNat
    modify fun m =>
      { m with frames := { function := operand.toNat, argBase := localBase - arguments, localBase } :: m.frames }

/-- Leaves a function, of whose slots the return slots stay. Leaving the entry routine halts the machine. -/
def leave (frame : Frame) (f : Function) : Exec Unit :=
  modify fun m =>
    { m with
      sp := frame.argBase + f.header.returns.toNat
      frames := m.frames.tail
      halted := m.halted || m.frames.tail.isEmpty }

/-- Goes on at another place of the function. -/
def jump (pc : Nat) : Exec Unit :=
  modify fun m =>
    match m.frames with
    | frame :: frames => { m with frames := { frame with pc } :: frames }
    | [] => m

/-- Branches by a distance from the next instruction; the place just past the last one is a target too. -/
def branch (next : Nat) (f : Function) (distance : Int64) : Exec Unit := do
  let target := (Int64.ofNat next + distance).toInt
  if target < 0 ∨ f.code.size < target then throw (.badBranch target)
  jump target.toNat

/-! ## Primitives -/

/-- Writes to the console. -/
def print (b : Bytes) : Exec Unit := modify fun m => { m with console := m.console.write b }

/-- Reads from the console for a primitive. -/
def scan {α : Type} (primitive : Primitive) (reader : Bytes → Except InputError α × Bytes) : Exec α := do
  let result ← modifyGet fun m =>
    let (result, rest) := reader m.console.input
    (result, { m with console := { m.console with input := rest } })
  match result with
  | .ok a => return a
  | .error e => throw (.input primitive e)

/-- The next byte of the input, -1 at its end. -/
def readByte : Bytes → Except InputError UInt64 × Bytes
  | [] => (.ok 0xffffffffffffffff, [])
  | b :: rest => (.ok b.toUInt64, rest)

/-- Prints the text of the global with an index. -/
def printGlobal (index : UInt64) : Exec Unit := do
  match (← get).program.globals[index.toNat]? with
  | some g => print g.payload
  | none => throw (.noText index)

/-- Carries out a primitive: its argument is on top of the stack, or else the slot for its result. -/
def carryOut (primitive : Primitive) : Exec Unit := do
  match primitive with
  | .getint => setTop (← scan primitive Input.readInt).toUInt64
  | .getchar => setTop (← scan primitive readByte)
  | .getdouble => setTop (← scan primitive Input.readDouble)
  | .putint => print (Bytes.ofInt (← pop).toInt64.toInt)
  | .putchar => print [(← pop).toUInt8]
  | .putstr => printGlobal (← pop)
  | .putdouble => print (Double.text (← pop))
  | .putln => print [0x0a]

/-- Calls a primitive, which needs as many slots as its arguments and its result take. -/
def invoke (primitive : Primitive) : Exec Unit := do
  let m ← get
  if m.sp < primitive.signature.params.length + primitive.signature.returns.slots then throw .stackUnderflow
  if stackSize < m.sp then throw .beyondStack
  carryOut primitive

/-- Calls the primitive whose name a global holds. -/
def callPrimitive (operand : Int) : Exec Unit := do
  let m ← get
  match if operand < 0 then none else m.program.globals[operand.toNat]? with
  | none => throw (.noName operand)
  | some g =>
    match Primitive.ofName? (g.value.getD []) with
    | some primitive => invoke primitive
    | none => throw (.unknownPrimitive (g.value.getD []))

/-! ## Instructions -/

/-- An operation on the two topmost slots. -/
def binary (f : UInt64 → UInt64 → UInt64) : Exec Unit := do
  let (x, y) ← pop2
  push (f x y)

/-- An operation on the topmost slot. -/
def unary (f : UInt64 → UInt64) : Exec Unit := do push (f (← pop))

/-- An operation on the two topmost slots as integers. -/
def onInts (f : Int64 → Int64 → Int64) : Exec Unit := binary fun x y => (f x.toInt64 y.toInt64).toUInt64

/-- A truth value as a slot. -/
def truth (b : Bool) : UInt64 := if b then 1 else 0

/-- An order as a slot: -1, 0 or 1. -/
def order (less greater : Bool) : UInt64 := if less then 0xffffffffffffffff else if greater then 1 else 0

/-- Executes an instruction of a function in the frame of a call, the next instruction being at `next`. -/
def execute (frame : Frame) (f : Function) (next : Nat) (i : Instruction) : Exec Unit := do
  let operand := i.operand.toInt
  match i.op with
  | .nop => return ()
  | .push => push i.operand.toUInt64
  | .pop =>
    let _ ← pop
  | .popN =>
    if operand < 0 ∨ (← get).sp < operand then throw .stackUnderflow
    modify fun m => { m with sp := m.sp - operand.toNat }
  | .dup => push (← top)
  | .locA =>
    if operand < 0 ∨ (f.header.locals.toNat : Int) ≤ operand then throw (.noLocal operand)
    push (Address.ofStack (frame.localBase + operand.toNat))
  | .argA =>
    if operand < 0 ∨ ((f.header.params + f.header.returns).toNat : Int) ≤ operand then throw (.noArgument operand)
    push (Address.ofStack (frame.argBase + operand.toNat))
  | .globA =>
    if operand < 0 ∨ ((← get).globals.size : Int) ≤ operand then throw (.noGlobal operand)
    push (Address.ofGlobal operand.toNat)
  | .load => push (← read (← pop))
  | .store =>
    let (a, x) ← pop2
    write a x
  | .stackAlloc => pushZeros operand.toNat
  | .addI => onInts (· + ·)
  | .subI => onInts (· - ·)
  | .mulI => onInts (· * ·)
  | .divI =>
    let (x, y) ← pop2
    if y = 0 then throw .divideByZero
    push (x.toInt64 / y.toInt64).toUInt64
  | .addF => binary Double.add
  | .subF => binary Double.sub
  | .mulF => binary Double.mul
  | .divF => binary Double.div
  | .not => unary fun x => truth (x == 0)
  | .cmpI => binary fun x y => order (x.toInt64 < y.toInt64) (y.toInt64 < x.toInt64)
  | .cmpF => binary fun x y => order (Double.lt x y) (Double.lt y x)
  | .negI => unary fun x => (-x.toInt64).toUInt64
  | .negF => unary Double.neg
  | .iToF => unary fun x => Double.ofInt64 x.toInt64
  | .fToI => unary fun x => (Double.toInt64 x).toUInt64
  | .setLt => unary fun x => truth (x.toInt64 < 0)
  | .setGt => unary fun x => truth (0 < x.toInt64)
  | .br => branch next f i.operand
  | .brFalse => if (← pop) = 0 then branch next f i.operand
  | .brTrue => if (← pop) ≠ 0 then branch next f i.operand
  | .call => enter operand
  | .ret => leave frame f
  | .callName => callPrimitive operand
  | .abort => throw .aborted
  | .marker | .unassigned _ => throw (.notExecutable i.op)

/-- Executes the instruction that is next in the frame of a call. The entry routine may run past its end, which halts the
machine; no other function may. -/
def advance (frame : Frame) : Exec Unit := do
  let m ← get
  match m.program.functions[frame.function]? with
  | none => throw .beyondStack
  | some f =>
    match f.code[frame.pc]? with
    | none =>
      if m.frames.length = 1 then set { m with halted := true } else throw (.fellOffEnd frame.function)
    | some i =>
      jump (frame.pc + 1)
      execute frame f (frame.pc + 1) i

end Exec

namespace Machine

/-- Executes one instruction; a halted machine stays as it is. -/
def step (m : Machine) : Except MachineFault Unit × Machine :=
  if m.halted then (.ok (), m)
  else match m.frames with
    | [] => (.error .beyondStack, m)
    | frame :: _ => (Exec.advance frame).run m

end Machine

end OnePass

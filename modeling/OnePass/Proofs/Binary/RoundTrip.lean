import OnePass.Code.Binary

/-!
# Binaries, written and read

What is written can be read back (`read_write_iff`). A reader `Parses` a byte string as a value if it takes just that off the
front of every longer one, and `Refuses` it if it fails whatever follows; both are put together along the layout. A binary keeps
neither the names of variables nor the difference between a slot without a value and one of zeros (`Program.erased`).
-/

namespace OnePass

/-- The global as a binary keeps it. -/
def Global.erased (g : Global) : Global := { const := g.const, value := some g.payload }

/-- The program as a binary keeps it. -/
def Program.erased (p : Program) : Program := { p with globals := p.globals.map Global.erased }

/-- The operand of the instruction is what a binary can keep of it, and only a marker has a header. -/
structure Instruction.Regular (i : Instruction) : Prop where
  operand : i.op.operandWidth = 4 → -2 ^ 31 ≤ i.operand.toInt ∧ i.operand.toInt < 2 ^ 31
  noOperand : i.op.operandWidth = 0 → i.operand = 0
  header : i.op ≠ .marker → i.header = none

/-- The instructions of the function can be counted in a binary and are regular. -/
structure Function.Regular (f : Function) : Prop where
  size : f.code.size < 2 ^ 32
  code : ∀ i ∈ f.code, i.Regular

/-- The parts of the program can be counted in a binary, and its functions are regular. -/
structure Program.Regular (p : Program) : Prop where
  globals : p.globals.size < 2 ^ 32
  payloads : ∀ g ∈ p.globals, g.payload.length < 2 ^ 32
  functions : p.functions.size < 2 ^ 32
  function : ∀ f ∈ p.functions, f.Regular

theorem Opcode.operandWidth_cases (op : Opcode) : op.operandWidth = 0 ∨ op.operandWidth = 4 ∨ op.operandWidth = 8 := by
  cases op <;> simp [operandWidth]

theorem Opcode.mem_all_of_isEncodable {op : Opcode} (h : op.isEncodable) : op ∈ all := by
  cases op with
  | unassigned byte => cases h
  | _ => simp [all]

/-! ## Numbers -/

@[simp] theorem length_bigEndian (width n : Nat) : (bigEndian width n).length = width := by
  induction width generalizing n with
  | zero => rfl
  | succ width ih => simp [bigEndian, ih]

theorem ofBigEndian_append_singleton (b : Bytes) (d : UInt8) : ofBigEndian (b ++ [d]) = ofBigEndian b * 256 + d.toNat := by
  simp [ofBigEndian, List.foldl_append]

/-- The digits of a number are those of what is left of it in their width. -/
theorem ofBigEndian_bigEndian (width n : Nat) : ofBigEndian (bigEndian width n) = n % 256 ^ width := by
  induction width generalizing n with
  | zero => simp [bigEndian, ofBigEndian, Nat.mod_one]
  | succ width ih =>
    have hdigit : (UInt8.ofNat (n % 256)).toNat = n % 256 := by simp
    rw [bigEndian, ofBigEndian_append_singleton, ih, hdigit, Nat.pow_succ', Nat.mod_mul]
    omega

namespace Binary

variable {α β : Type}
variable {b : Bytes} {p : Program} {r : Reader α} {place : Nat} {f : α → Reader β} {g : Global}
  {gs : List Global} {i : Instruction} {c : β}

/-! ## Readers -/

/-- The reader takes the bytes off the front of every byte string that starts with them, and gives the value. -/
def Parses (r : Reader α) (b : Bytes) (a : α) : Prop := ∀ rest, r.run (b ++ rest) = .ok (a, rest)

/-- The reader fails on every byte string that starts with these bytes. -/
def Refuses (r : Reader α) (b : Bytes) : Prop := ∀ rest, ∃ e, r.run (b ++ rest) = .error e

namespace Parses

variable {a : α} {more : Bytes} {n : Nat}

theorem pure (a : α) : Parses (pure a : Reader α) [] a := fun _ => rfl

theorem bind (hr : Parses r b a) (hf : Parses (f a) more c) : Parses (r >>= f) (b ++ more) c := by
  intro rest
  rw [StateT.run_bind, List.append_assoc, hr]
  exact hf rest

theorem map {g : α → β} (hr : Parses r b a) : Parses (r >>= fun x => Pure.pure (g x)) b (g a) := by
  simpa using hr.bind (f := fun x => Pure.pure (g x)) (.pure (g a))

theorem refuses (hr : Parses r b a) (hf : Refuses (f a) more) : Refuses (r >>= f) (b ++ more) := by
  intro rest
  rw [StateT.run_bind, List.append_assoc, hr]
  exact hf rest

theorem take (short : ReadError) (b : Bytes) : Parses (take short b.length) b b := by
  intro rest
  simp [Binary.take, StateT.run_bind]
  rfl

theorem readNumber (short : ReadError) {width : Nat} (h : n < 256 ^ width) :
    Parses (readNumber short width) (bigEndian width n) n := by
  have htake := Parses.take short (bigEndian width n)
  rw [length_bigEndian] at htake
  have hmap := htake.map (g := ofBigEndian)
  rwa [ofBigEndian_bigEndian, Nat.mod_eq_of_lt h] at hmap

/-- A number of four bytes. -/
theorem word (short : ReadError) (h : n < 2 ^ 32) : Parses (Binary.readNumber short 4) (word n) n :=
  readNumber short (by simpa using h)

end Parses

namespace Refuses

theorem throw (e : ReadError) : Refuses (throw e : Reader α) [] := fun _ => ⟨e, rfl⟩

theorem bind (hr : Refuses r b) (more : Bytes) : Refuses (r >>= f) (b ++ more) := by
  intro rest
  obtain ⟨e, he⟩ := hr (more ++ rest)
  refine ⟨e, ?_⟩
  rw [StateT.run_bind, List.append_assoc, he]
  rfl

end Refuses

theorem bind_ok_iff {ε : Type} {x : Except ε α} {f : α → Except ε β} : x >>= f = .ok c ↔ ∃ a, x = .ok a ∧ f a = .ok c := by
  cases x with
  | error e => simp [bind, Except.bind]
  | ok a => simp [bind, Except.bind]

/-! ## The pool -/

theorem flag_eq_bigEndian (const : Bool) : [if const then (1 : UInt8) else 0] = bigEndian 1 (if const then 1 else 0) := by
  cases const <;> rfl

/-- The front of a global, before its payload. -/
theorem writeGlobal_eq (g : Global) :
    writeGlobal g = bigEndian 1 (if g.const then 1 else 0) ++ (word g.payload.length ++ g.payload) := by
  rw [← flag_eq_bigEndian]
  simp [writeGlobal]

theorem parses_readGlobal (h : g.payload.length ≤ maxPayload) (place : Nat) :
    Parses (readGlobal place) (writeGlobal g) g.erased := by
  have hflag : (if g.const then 1 else 0) < 256 ^ 1 := by cases g.const <;> decide
  have hsize : g.payload.length < 2 ^ 32 := Nat.lt_of_le_of_lt h (by decide)
  rw [writeGlobal_eq]
  refine (Parses.readNumber _ hflag).bind ((Parses.word _ hsize).bind ?_)
  rw [if_neg (Nat.not_lt.2 h)]
  have hpayload := (Parses.take (.truncatedGlobal place) g.payload).map
    (g := fun payload => ({ const := (if g.const then 1 else 0) ≠ 0, value := some payload } : Global))
  have herased : ({ const := (if g.const then 1 else 0) ≠ 0, value := some g.payload } : Global) = g.erased := by
    cases h : g.const <;> simp [Global.erased, h]
  rwa [herased] at hpayload

theorem refuses_readGlobal (h : maxPayload < g.payload.length) (hsize : g.payload.length < 2 ^ 32) (place : Nat) :
    Refuses (readGlobal place) (writeGlobal g) := by
  have hflag : (if g.const then 1 else 0) < 256 ^ 1 := by cases g.const <;> decide
  rw [writeGlobal_eq]
  refine (Parses.readNumber _ hflag).refuses ((Parses.word _ hsize).refuses ?_)
  rw [if_pos h]
  exact (Refuses.throw _).bind g.payload

theorem parses_readGlobals (h : ∀ g ∈ gs, g.payload.length ≤ maxPayload) (place : Nat) :
    Parses (readGlobals place gs.length) (gs.flatMap writeGlobal) (gs.map Global.erased) := by
  induction gs generalizing place with
  | nil => exact .pure []
  | cons g gs ih =>
    obtain ⟨hg, hgs⟩ := List.forall_mem_cons.1 h
    exact (parses_readGlobal hg place).bind (ih hgs (place + 1)).map

/-- A pool with a payload beyond the limit is refused at the first one. -/
theorem refuses_readGlobals (hsize : ∀ g ∈ gs, g.payload.length < 2 ^ 32)
    (h : ∃ g ∈ gs, maxPayload < g.payload.length) (place : Nat) :
    Refuses (readGlobals place gs.length) (gs.flatMap writeGlobal) := by
  induction gs generalizing place with
  | nil => simp at h
  | cons g gs ih =>
    obtain ⟨hg, hgs⟩ := List.forall_mem_cons.1 hsize
    rw [List.flatMap_cons]
    by_cases hlong : maxPayload < g.payload.length
    · exact (refuses_readGlobal hlong hg place).bind _
    · have hrest : ∃ g ∈ gs, maxPayload < g.payload.length := by simpa [hlong] using h
      refine (parses_readGlobal (Nat.not_lt.1 hlong) place).refuses ?_
      have := (ih hgs hrest (place + 1)).bind (f := fun gs => (pure (g.erased :: gs) : Reader (List Global))) []
      simpa using this

/-! ## The functions -/

theorem toInt_eq_bmod (x : Int64) : x.toInt = Int.bmod x.toUInt64.toNat (2 ^ 64) := BitVec.toInt_eq_toNat_bmod x.toBitVec

/-- Of an operand of four bytes its low half is enough. -/
theorem ofInt_bmod_operand {x : Int64} (h : -2 ^ 31 ≤ x.toInt ∧ x.toInt < 2 ^ 31) :
    Int64.ofInt (Int.bmod ((x.toUInt64.toNat % 256 ^ 4 : Nat) : Int) (2 ^ 32)) = x := by
  have hint := toInt_eq_bmod x
  have hlow : Int.bmod ((x.toUInt64.toNat % 256 ^ 4 : Nat) : Int) (2 ^ 32) = x.toInt := by
    rw [Int.bmod_def] at hint ⊢
    omega
  rw [hlow, Int64.ofInt_toInt]

theorem ofNat_toUInt64 (x : Int64) : Int64.ofNat x.toUInt64.toNat = x := by
  apply Int64.toBitVec_inj.1
  simp

theorem parses_readOperand (h : i.Regular) (function : Nat) :
    Parses (readOperand function i.op) (bigEndian i.op.operandWidth i.operand.toUInt64.toNat) i.operand := by
  have htake := (Parses.take (.truncatedFunction function) (bigEndian i.op.operandWidth i.operand.toUInt64.toNat)).map
    (g := fun b => if i.op.operandWidth = 4 then Int64.ofInt (Int.bmod (ofBigEndian b) (2 ^ 32)) else Int64.ofNat (ofBigEndian b))
  have hread : readOperand function i.op = (take (.truncatedFunction function) i.op.operandWidth >>= fun b => pure
      (if i.op.operandWidth = 4 then Int64.ofInt (Int.bmod (ofBigEndian b) (2 ^ 32)) else Int64.ofNat (ofBigEndian b))) := by
    simp [readOperand, readNumber]
  rw [length_bigEndian, ofBigEndian_bigEndian] at htake
  rw [hread]
  -- The widths are those of no operand, of a short one and of a whole slot.
  rcases Opcode.operandWidth_cases i.op with hwidth | hwidth | hwidth
  · have hzero := h.noOperand hwidth
    simpa [hwidth, hzero, Nat.mod_one] using htake
  · rw [hwidth, if_pos rfl, ofInt_bmod_operand (h.operand hwidth)] at htake
    rwa [hwidth]
  · have hlt : i.operand.toUInt64.toNat < 256 ^ 8 := i.operand.toUInt64.toNat_lt
    rw [hwidth, if_neg (by decide), Nat.mod_eq_of_lt hlt, ofNat_toUInt64] at htake
    rwa [hwidth]

theorem parses_readInstruction (hop : i.op.isEncodable) (h : i.Regular) (function place : Nat) :
    Parses (readInstruction function place) (writeInstruction i) i := by
  have hbyte := Parses.readNumber (.truncatedFunction function) (show i.op.toByte.toNat < 256 ^ 1 from i.op.toByte.toNat_lt)
  have hsingle : bigEndian 1 i.op.toByte.toNat = [i.op.toByte] := by
    have := i.op.toByte.toNat_lt
    simp [bigEndian, Nat.mod_eq_of_lt this]
  rw [hsingle] at hbyte
  have heq : ({ op := i.op, operand := i.operand } : Instruction) = i := by
    have hheader := h.header (by rintro hmarker; rw [hmarker] at hop; cases hop)
    rw [← hheader]
  refine hbyte.bind ?_
  simp only [UInt8.ofNat_toNat, Opcode.ofByte_toByte (Opcode.mem_all_of_isEncodable hop), if_pos hop]
  have hoperand := (parses_readOperand h function).map (g := fun operand => ({ op := i.op, operand } : Instruction))
  rwa [heq] at hoperand

theorem parses_readCode {function : Nat} {code : List Instruction} (h : ∀ i ∈ code, i.Regular)
    (hb : writeCode function place code = .ok b) :
    Parses (readCode function place code.length) b code := by
  induction code generalizing place b with
  | nil =>
    cases hb
    exact .pure []
  | cons i code ih =>
    obtain ⟨hi, hcode⟩ := List.forall_mem_cons.1 h
    rw [writeCode] at hb
    split at hb
    · rename_i hop
      obtain ⟨tail, htail, hb⟩ := bind_ok_iff.1 hb
      cases hb
      exact (parses_readInstruction hop hi function place).bind (ih hcode htail).map
    · cases hb

theorem parses_readFunction {f : Function} (h : f.Regular) {code : Bytes} (hcode : writeCode place 0 f.code.toList = .ok code) :
    Parses (readFunction place) (writeHeader f.header ++ word f.code.size ++ code) f := by
  have hnumber (n : UInt32) := Parses.word (.truncatedFunction place) n.toNat_lt
  have hbody := (parses_readCode (fun i hi => h.code i (by simpa using hi)) hcode).map
    (g := fun code => ({ header := ⟨.ofNat f.header.slot.toNat, .ofNat f.header.returns.toNat, .ofNat f.header.params.toNat,
      .ofNat f.header.locals.toNat⟩, code := code.toArray } : Function))
  rw [Array.length_toList] at hbody
  have heq : ({ header := ⟨.ofNat f.header.slot.toNat, .ofNat f.header.returns.toNat, .ofNat f.header.params.toNat,
      .ofNat f.header.locals.toNat⟩, code := f.code.toList.toArray } : Function) = f := by simp
  rw [heq] at hbody
  simp only [writeHeader, List.append_assoc]
  exact (hnumber _).bind ((hnumber _).bind ((hnumber _).bind ((hnumber _).bind ((Parses.word _ h.size).bind hbody))))

theorem parses_readFunctions {fs : List Function} (h : ∀ f ∈ fs, f.Regular) (hb : writeFunctions place fs = .ok b) :
    Parses (readFunctions place fs.length) b fs := by
  induction fs generalizing place b with
  | nil =>
    cases hb
    exact .pure []
  | cons f fs ih =>
    obtain ⟨hf, hfs⟩ := List.forall_mem_cons.1 h
    obtain ⟨code, hcode, hb⟩ := bind_ok_iff.1 hb
    obtain ⟨tail, htail, hb⟩ := bind_ok_iff.1 hb
    cases hb
    exact (parses_readFunction hf hcode).bind (ih hfs htail).map

/-! ## Programs -/

/-- The parts of a binary, each after the ones before it. -/
theorem write_ok_iff : write p = .ok b ↔ ∃ functions, writeFunctions 0 p.functions.toList = .ok functions ∧
    b = word magic ++ (word version ++ (word p.globals.size ++
      (p.globals.toList.flatMap writeGlobal ++ (word p.functions.size ++ functions)))) := by
  rw [write, bind_ok_iff]
  simp only [pure, Except.pure, Except.ok.injEq, List.append_assoc, eq_comm]

theorem parses_readProgram (h : p.Regular) (hpayloads : ∀ g ∈ p.globals, g.payload.length ≤ maxPayload) (hb : write p = .ok b) :
    Parses readProgram b p.erased := by
  obtain ⟨functions, hfunctions, rfl⟩ := write_ok_iff.1 hb
  have hlist : ∀ g ∈ p.globals.toList, g.payload.length ≤ maxPayload := by simpa using hpayloads
  have hpool := parses_readGlobals hlist 0
  have htable := parses_readFunctions (by simpa using h.function) hfunctions
  rw [Array.length_toList] at hpool htable
  have herased : ({ globals := (p.globals.toList.map Global.erased).toArray, functions := p.functions.toList.toArray } : Program) =
      p.erased := by
    rw [Program.erased, ← Array.toList_map, Array.toArray_toList, Array.toArray_toList]
  rw [← herased]
  exact (Parses.word _ (by decide)).bind ((Parses.word _ (by decide)).bind ((Parses.word _ h.globals).bind (hpool.bind
    ((Parses.word _ h.functions).bind htable.map))))

theorem refuses_readProgram (h : p.Regular) (hpayload : ∃ g ∈ p.globals, maxPayload < g.payload.length) (hb : write p = .ok b) :
    Refuses readProgram b := by
  obtain ⟨functions, -, rfl⟩ := write_ok_iff.1 hb
  have hsizes : ∀ g ∈ p.globals.toList, g.payload.length < 2 ^ 32 := by simpa using h.payloads
  have hpool := refuses_readGlobals hsizes (by simpa using hpayload) 0
  rw [Array.length_toList] at hpool
  exact (Parses.word _ (by decide)).refuses ((Parses.word _ (by decide)).refuses
    ((Parses.word _ h.globals).refuses (hpool.bind _)))

/-- A binary is read by reading the program at its front. -/
theorem read_eq (b : Bytes) : read b = (readProgram.run b).map Prod.fst := by
  rw [read]
  cases readProgram.run b <;> rfl

theorem read_of_write (h : p.Regular) (hpayloads : ∀ g ∈ p.globals, g.payload.length ≤ maxPayload) (hb : write p = .ok b) :
    read b = .ok p.erased := by
  have hparses := parses_readProgram h hpayloads hb []
  rw [List.append_nil] at hparses
  rw [read_eq, hparses]
  rfl

/-- A binary can be read just if every payload keeps to the limit, and gives the program back but for what no binary keeps. -/
theorem read_write_iff {p : Program} {b : Bytes} (h : p.Regular) (hb : write p = .ok b) :
    ((∃ q, read b = .ok q) ↔ ∀ g ∈ p.globals, g.payload.length ≤ 2 ^ 24) ∧ ∀ q, read b = .ok q → q = p.erased := by
  by_cases hpayloads : ∀ g ∈ p.globals, g.payload.length ≤ 2 ^ 24
  · have hread := read_of_write h hpayloads hb
    refine ⟨⟨fun _ => hpayloads, fun _ => ⟨_, hread⟩⟩, fun q hq => ?_⟩
    rw [hread] at hq
    exact (Except.ok.inj hq).symm
  · have hlong : ∃ g ∈ p.globals, maxPayload < g.payload.length := by simpa [maxPayload] using hpayloads
    obtain ⟨e, he⟩ := refuses_readProgram h hlong hb []
    have hread : read b = .error e := by
      rw [List.append_nil] at he
      rw [read_eq, he]
      rfl
    refine ⟨⟨fun ⟨q, hq⟩ => ?_, fun hall => absurd hall hpayloads⟩, fun q hq => ?_⟩
    · rw [hread] at hq
      cases hq
    · rw [hread] at hq
      cases hq

/-- A program with a slot without a value, a text, a whole slot as operand and a branch back. -/
def countdown : Program where
  globals := #[{ const := true, value := some (Bytes.ofString "_start") }, { name := Bytes.ofString "n" }]
  functions := #[{
    header := { slot := 0, returns := 1, params := 2, locals := 70000 }
    code := #[.withNat .globA 1, { op := .push, operand := -3000000000 }, { op := .store }, { op := .br, operand := -4 }] }]

theorem regular_countdown : countdown.Regular := by
  refine ⟨by decide, by decide, by decide, ?_⟩
  intro f hf
  obtain rfl := List.mem_singleton.1 (Array.mem_def.1 hf)
  refine ⟨by decide, ?_⟩
  intro i hi
  have hi := Array.mem_def.1 hi
  simp only [List.mem_cons, List.not_mem_nil, or_false] at hi
  rcases hi with rfl | rfl | rfl | rfl <;> exact ⟨by decide, by decide, by decide⟩

/-- The binary of `countdown` gives it back, the name gone and the slot filled with zeros. -/
theorem read_write_countdown : ∃ b, write countdown = .ok b ∧ read b = .ok countdown.erased ∧
    countdown.erased.globals[1]? = some { value := some [0, 0, 0, 0, 0, 0, 0, 0] } := by
  obtain ⟨b, hb⟩ : ∃ b, write countdown = .ok b := ⟨_, rfl⟩
  obtain ⟨hiff, hunique⟩ := read_write_iff regular_countdown hb
  obtain ⟨q, hq⟩ := hiff.2 (by decide)
  exact ⟨b, hb, by rw [hq, hunique q hq], by simp [Program.erased, countdown, Global.erased, Global.payload, slotSize]⟩

end Binary

end OnePass

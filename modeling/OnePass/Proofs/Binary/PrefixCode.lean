import OnePass.Proofs.Binary.RoundTrip

/-!
# Binaries are a prefix code

A reader takes its bytes one after another: what it makes of a byte string it makes of every longer one too, unless there were too
few bytes (`Streams`). So a part of a binary is never taken for another binary, nor for a faulty one: reading it fails for want of
bytes, and what stands behind a binary is of no account (`read_prefix_write`). That holds of every program that can be written,
also of one with operands of which a binary keeps only a part (`Program.kept`).
-/

namespace OnePass

/-! ## What a binary keeps -/

/-- The instruction as a binary keeps it: an operand of four bytes is cut to its low half, and one that is not written is lost. -/
def Instruction.kept (i : Instruction) : Instruction where
  op := i.op
  operand := if i.op.operandWidth = 0 then 0 else if i.op.operandWidth = 4 then i.operand.toInt32.toInt64 else i.operand

/-- The function as a binary keeps it. -/
def Function.kept (f : Function) : Function := { f with code := f.code.map Instruction.kept }

/-- The program as a binary keeps it, whatever its operands. -/
def Program.kept (p : Program) : Program := { p.erased with functions := p.functions.map Function.kept }

theorem Instruction.regular_kept (i : Instruction) : i.kept.Regular := by
  refine ⟨fun hwidth => ?_, fun hwidth => ?_, fun _ => rfl⟩
  · have hwidth : i.op.operandWidth = 4 := hwidth
    have hoperand : i.kept.operand = i.operand.toInt32.toInt64 := by simp [kept, hwidth]
    rw [hoperand, Int32.toInt_toInt64]
    exact ⟨i.operand.toInt32.le_toInt, i.operand.toInt32.toInt_lt⟩
  · exact if_pos hwidth

theorem Program.regular_kept {p : Program} (hglobals : p.globals.size < 2 ^ 32) (hfunctions : p.functions.size < 2 ^ 32)
    (hcode : ∀ f ∈ p.functions, f.code.size < 2 ^ 32) (hpayloads : ∀ g ∈ p.globals, g.payload.length ≤ Binary.maxPayload) :
      p.kept.Regular where
  globals := by simpa [kept, erased] using hglobals
  payloads := by
    intro _ hmem
    obtain ⟨g, hg, rfl⟩ := Array.mem_map.1 hmem
    exact Nat.lt_of_le_of_lt (hpayloads g hg) (by decide)
  functions := by simpa [kept] using hfunctions
  function := by
    intro _ hmem
    obtain ⟨f, hf, rfl⟩ := Array.mem_map.1 hmem
    refine ⟨by simpa [Function.kept] using hcode f hf, fun _ hi => ?_⟩
    obtain ⟨i, -, rfl⟩ := Array.mem_map.1 hi
    exact i.regular_kept

theorem Program.erased_kept (p : Program) : p.kept.erased = p.kept := by
  have hpayload : Global.erased ∘ Global.erased = Global.erased := rfl
  simp [kept, erased, hpayload]

/-- Of a number its last digits are written. -/
theorem bigEndian_mod (width n : Nat) : bigEndian width (n % 256 ^ width) = bigEndian width n := by
  induction width generalizing n with
  | zero => rfl
  | succ width ih =>
    have hlast : n % 256 ^ (width + 1) % 256 = n % 256 := by
      rw [Nat.pow_succ, Nat.mod_mul_left_mod]
    have hfront : n % 256 ^ (width + 1) / 256 = n / 256 % 256 ^ width := by
      rw [Nat.pow_succ', Nat.mod_mul_right_div_self]
    rw [bigEndian, bigEndian, hlast, hfront, ih]

namespace Binary

variable {α β : Type}
variable {r : Reader α} {f : α → Reader β} {b : Bytes}

/-- Cutting a number to its low half and giving it back its sign keeps that half. -/
theorem low_toInt32 (x : Int64) : x.toInt32.toInt64.toUInt64.toNat % 256 ^ 4 = x.toUInt64.toNat % 256 ^ 4 := by
  have hkept : x.toInt32.toInt64.toInt = x.toInt.bmod (2 ^ 32) := by rw [Int32.toInt_toInt64, Int64.toInt_toInt32]
  rw [toInt_eq_bmod, toInt_eq_bmod, Int.bmod_def, Int.bmod_def, Int.bmod_def] at hkept
  omega

theorem writeInstruction_kept (i : Instruction) : writeInstruction i.kept = writeInstruction i := by
  have hoperand : bigEndian i.op.operandWidth i.kept.operand.toUInt64.toNat =
    bigEndian i.op.operandWidth i.operand.toUInt64.toNat := by
    rcases Opcode.operandWidth_cases i.op with hwidth | hwidth | hwidth
    · rw [hwidth]
      rfl
    · have hkept : i.kept.operand = i.operand.toInt32.toInt64 := by simp [Instruction.kept, hwidth]
      rw [hwidth, hkept, ← bigEndian_mod, low_toInt32, bigEndian_mod]
    · have hkept : i.kept.operand = i.operand := by simp [Instruction.kept, hwidth]
      rw [hkept]
  exact congrArg (i.op.toByte :: ·) hoperand

theorem writeCode_kept (function place : Nat) (code : List Instruction) :
    writeCode function place (code.map Instruction.kept) = writeCode function place code := by
  induction code generalizing place with
  | nil => rfl
  | cons i code ih =>
    rw [List.map_cons, writeCode, writeCode, ih, writeInstruction_kept]
    rfl

theorem writeFunctions_kept (place : Nat) (fs : List Function) :
    writeFunctions place (fs.map Function.kept) = writeFunctions place fs := by
  induction fs generalizing place with
  | nil => rfl
  | cons f fs ih =>
    have hcode : writeCode place 0 f.kept.code.toList = writeCode place 0 f.code.toList := by
      rw [Function.kept, Array.toList_map, writeCode_kept]
    have hsize : f.kept.code.size = f.code.size := Array.size_map ..
    rw [List.map_cons, writeFunctions, writeFunctions, ih, hcode, hsize]
    rfl

/-- What a binary keeps is written as before. -/
theorem write_kept (p : Program) : write p.kept = write p := by
  have hpool : p.kept.globals.toList.flatMap writeGlobal = p.globals.toList.flatMap writeGlobal := by
    simp [Program.kept, Program.erased, List.flatMap_map]
    rfl
  have hfunctions : writeFunctions 0 p.kept.functions.toList = writeFunctions 0 p.functions.toList := by
    rw [Program.kept, Array.toList_map, writeFunctions_kept]
  have hglobals : p.kept.globals.size = p.globals.size := Array.size_map ..
  have hsize : p.kept.functions.size = p.functions.size := Array.size_map ..
  rw [write, write, hpool, hfunctions, hglobals, hsize]

/-! ## Readers take byte after byte -/

/-- The error says that there are too few bytes. -/
def ReadError.IsTruncation (e : ReadError) : Prop := e.reason? = some (Bytes.ofString "truncated binary")

theorem ReadError.isTruncation_header : truncatedHeader.IsTruncation := rfl

theorem ReadError.isTruncation_global (place : Nat) : (truncatedGlobal place).IsTruncation := rfl

theorem ReadError.isTruncation_count : truncatedCount.IsTruncation := rfl

theorem ReadError.isTruncation_function (place : Nat) : (truncatedFunction place).IsTruncation := rfl

/-- What the reader makes of a byte string it makes of every longer one too, unless it wants more bytes than there are. -/
structure Streams (r : Reader α) : Prop where
  ok {b rest : Bytes} {a : α} (h : r.run b = .ok (a, rest)) (more : Bytes) : r.run (b ++ more) = .ok (a, rest ++ more)
  error {b : Bytes} {e : ReadError} (h : r.run b = .error e) (more : Bytes) : e.IsTruncation ∨ r.run (b ++ more) = .error e

/-- One reader after another gives a value just if both do. -/
theorem run_bind_ok_iff {rest : Bytes} {c : β} :
    (r >>= f).run b = .ok (c, rest) ↔ ∃ a mid, r.run b = .ok (a, mid) ∧ (f a).run mid = .ok (c, rest) := by
  rw [StateT.run_bind, bind_ok_iff]
  simp

theorem run_take (short : ReadError) (n : Nat) (b : Bytes) :
    (take short n).run b = if n ≤ b.length then .ok (b.take n, b.drop n) else .error short := by
  have hlength : (b.take n).length = n ↔ n ≤ b.length := by
    rw [List.length_take]
    omega
  change StateT.run (if (b.take n).length = n then set (b.drop n) >>= fun _ => pure (b.take n) else throw short : Reader Bytes)
    b = _
  by_cases hn : n ≤ b.length
  · rw [if_pos (hlength.2 hn), if_pos hn]
    rfl
  · rw [if_neg (mt hlength.1 hn), if_neg hn]
    rfl

namespace Streams

variable {c : Prop} {short : ReadError}

theorem pure (a : α) : Streams (pure a : Reader α) where
  ok h more := by
    cases h
    rfl
  error h _ := by cases h

theorem throw (e : ReadError) : Streams (throw e : Reader α) where
  ok h _ := by cases h
  error h _ := by
    cases h
    exact .inr rfl

theorem bind (hr : Streams r) (hf : ∀ a, Streams (f a)) : Streams (r >>= f) where
  ok h more := by
    obtain ⟨a, mid, ha, hc⟩ := run_bind_ok_iff.1 h
    exact run_bind_ok_iff.2 ⟨a, mid ++ more, hr.ok ha more, (hf a).ok hc more⟩
  error {b e} h more := by
    rw [StateT.run_bind] at h ⊢
    cases hrun : r.run b with
    | error e' =>
      rw [hrun] at h
      cases h
      refine (hr.error hrun more).imp_right fun hmore => ?_
      rw [hmore]
      rfl
    | ok found =>
      obtain ⟨a, mid⟩ := found
      rw [hrun] at h
      refine ((hf a).error h more).imp_right fun hmore => ?_
      rw [hr.ok hrun more]
      exact hmore

theorem ite [Decidable c] {r' : Reader α} (hr : Streams r) (hr' : Streams r') : Streams (if c then r else r') := by
  split
  · exact hr
  · exact hr'

/-- A check before the rest of a reader. -/
theorem check [Decidable c] {e : ReadError} (hr : Streams r) :
    Streams (if c then (MonadExcept.throw e : Reader Unit) >>= fun _ => r else r) :=
  ite ((throw e).bind fun _ => hr) hr

theorem take (hshort : short.IsTruncation) (n : Nat) : Streams (take short n) where
  ok {b rest a} h more := by
    rw [run_take] at h ⊢
    split at h
    · rename_i hn
      cases h
      rw [if_pos (by rw [List.length_append]; omega), List.take_append_of_le_length hn, List.drop_append_of_le_length hn]
    · cases h
  error h _ := by
    rw [run_take] at h
    split at h
    · cases h
    · cases h
      exact .inl hshort

theorem readNumber (hshort : short.IsTruncation) (width : Nat) : Streams (readNumber short width) :=
  (take hshort width).bind fun _ => pure _

/-! ## The readers of a binary -/

open ReadError

theorem readGlobal (place : Nat) : Streams (readGlobal place) :=
  (readNumber (isTruncation_global place) 1).bind fun _ => (readNumber (isTruncation_global place) 4).bind fun size =>
    check ((take (isTruncation_global place) size).bind fun _ => pure _)

theorem readGlobals (place count : Nat) : Streams (readGlobals place count) := by
  induction count generalizing place with
  | zero => exact pure []
  | succ count ih => exact (readGlobal place).bind fun _ => (ih (place + 1)).bind fun _ => pure _

theorem readOperand (function : Nat) (op : Opcode) : Streams (readOperand function op) :=
  (readNumber (isTruncation_function function) op.operandWidth).bind fun _ => pure _

theorem readInstruction (function place : Nat) : Streams (readInstruction function place) :=
  (readNumber (isTruncation_function function) 1).bind fun _ => ite ((readOperand function _).bind fun _ => pure _) (throw _)

theorem readCode (function place count : Nat) : Streams (readCode function place count) := by
  induction count generalizing place with
  | zero => exact pure []
  | succ count ih => exact (readInstruction function place).bind fun _ => (ih (place + 1)).bind fun _ => pure _

theorem readFunction (place : Nat) : Streams (readFunction place) :=
  have hnumber := readNumber (isTruncation_function place) 4
  hnumber.bind fun _ => hnumber.bind fun _ => hnumber.bind fun _ => hnumber.bind fun _ => hnumber.bind fun count =>
    (readCode place 0 count).bind fun _ => pure _

theorem readFunctions (place count : Nat) : Streams (readFunctions place count) := by
  induction count generalizing place with
  | zero => exact pure []
  | succ count ih => exact (readFunction place).bind fun _ => (ih (place + 1)).bind fun _ => pure _

theorem readProgram : Streams readProgram :=
  have hnumber := readNumber isTruncation_header 4
  hnumber.bind fun _ => check (hnumber.bind fun _ => check (hnumber.bind fun size => (readGlobals 0 size).bind fun _ =>
    (readNumber isTruncation_count 4).bind fun size => (readFunctions 0 size).bind fun _ => pure _))

/-- Too few bytes of what the reader takes are too few. -/
theorem truncated (hr : Streams r) {front : Bytes} {a : α} (hb : Parses r b a) (hfront : front <+: b) (hne : front ≠ b) :
    ∃ e, r.run front = .error e ∧ e.IsTruncation := by
  obtain ⟨more, rfl⟩ := hfront
  have hwhole : r.run (front ++ more) = .ok (a, []) := by
    have := hb []
    rwa [List.append_nil] at this
  cases hrun : r.run front with
  | ok found =>
    obtain ⟨a', rest⟩ := found
    have hlong := hr.ok hrun more
    rw [hwhole] at hlong
    have hnil : rest ++ more = [] := (Prod.mk.inj (Except.ok.inj hlong)).2.symm
    rw [(List.append_eq_nil_iff.1 hnil).2, List.append_nil] at hne
    exact absurd rfl hne
  | error e =>
    rcases hr.error hrun more with htruncation | hlong
    · exact ⟨e, rfl, htruncation⟩
    · rw [hwhole] at hlong
      cases hlong

end Streams

/-! ## Prefixes of a binary -/

/-- A binary whose parts can be counted and whose payloads keep to the limit is read whatever follows it, and no part of it is:
reading a proper prefix fails for want of bytes. -/
theorem read_prefix_write {p : Program} {b : Bytes} (hb : write p = .ok b) (hglobals : p.globals.size < 2 ^ 32)
    (hfunctions : p.functions.size < 2 ^ 32) (hcode : ∀ f ∈ p.functions, f.code.size < 2 ^ 32)
    (hpayloads : ∀ g ∈ p.globals, g.payload.length ≤ 2 ^ 24) :
    (∀ front, front <+: b → front ≠ b → ∃ e, read front = .error e ∧ e.reason? = some (Bytes.ofString "truncated binary")) ∧
    read b = .ok p.kept ∧ ∀ more, read (b ++ more) = read b := by
  have hpayloads' : ∀ g ∈ p.kept.globals, g.payload.length ≤ maxPayload := by
    intro _ hmem
    obtain ⟨g, hg, rfl⟩ := Array.mem_map.1 hmem
    exact hpayloads g hg
  have hparses := parses_readProgram (p.regular_kept hglobals hfunctions hcode hpayloads) hpayloads' ((write_kept p).trans hb)
  rw [p.erased_kept] at hparses
  have hread (more : Bytes) : read (b ++ more) = .ok p.kept := by
    rw [read_eq, hparses]
    rfl
  have hwhole := hread []
  rw [List.append_nil] at hwhole
  refine ⟨fun front hfront hne => ?_, hwhole, fun more => (hread more).trans hwhole.symm⟩
  obtain ⟨e, he, htruncation⟩ := Streams.readProgram.truncated hparses hfront hne
  exact ⟨e, by rw [read_eq, he]; rfl, htruncation⟩

/-- A program with an empty payload, an operand of more than four bytes, and one where no operand belongs. -/
def cluttered : Program where
  globals := #[{ value := some [] }]
  functions := #[{ header := {}, code := #[{ op := .globA, operand := 0x7000000000 }, { op := .ret, operand := 5 }] }]

/-- The binary of `cluttered` is cut within its last operand, and followed by another byte. -/
theorem read_prefix_write_cluttered : ∃ b, write cluttered = .ok b ∧
    (∃ e, read (b.take 44) = .error e ∧ e.reason? = some (Bytes.ofString "truncated binary")) ∧
    read (b ++ [0xff]) = read b ∧ read b = .ok cluttered.kept ∧ cluttered.kept ≠ cluttered := by
  obtain ⟨b, hb⟩ : ∃ b, write cluttered = .ok b := ⟨_, rfl⟩
  have hlength : b.length = 47 := by
    cases hb
    rfl
  obtain ⟨hfronts, hread, hmore⟩ := read_prefix_write hb (by decide) (by decide) (by decide) (by decide)
  have hcut : b.take 44 ≠ b := by
    intro heq
    have := congrArg List.length heq
    rw [List.length_take, hlength] at this
    cases this
  exact ⟨b, hb, hfronts _ (List.take_prefix 44 b) hcut, hmore _, hread, by decide +kernel⟩

end Binary

end OnePass

import Mathlib.Data.List.Induction
import OnePass.Proofs.Binary.PrefixCode

/-!
# Binaries, read and written

Whatever byte string is read, what the reader took off its front is what the program is written as, but for the flags of globals:
any flag but zero is read as constant, and written as one (`write_of_read`). For each reader one lemma says which bytes it took.
-/

namespace OnePass

variable {n place : Nat} {gs : List Global} {pool : Bytes} {p : Program}

/-! ## Numbers -/

theorem ofBigEndian_lt (b : Bytes) : ofBigEndian b < 256 ^ b.length := by
  induction b using List.reverseRecOn with
  | nil => exact Nat.one_pos
  | append_singleton b d ih =>
    have hd := d.toNat_lt
    rw [ofBigEndian_append_singleton, List.length_append, List.length_singleton, Nat.pow_succ]
    omega

theorem bigEndian_ofBigEndian (b : Bytes) : bigEndian b.length (ofBigEndian b) = b := by
  induction b using List.reverseRecOn with
  | nil => rfl
  | append_singleton b d ih =>
    have hd := d.toNat_lt
    have hfront : (ofBigEndian b * 256 + d.toNat) / 256 = ofBigEndian b := by omega
    have hlast : (ofBigEndian b * 256 + d.toNat) % 256 = d.toNat := by omega
    rw [ofBigEndian_append_singleton, List.length_append, List.length_singleton, bigEndian, hfront, hlast, ih, UInt8.ofNat_toNat]

theorem bigEndian_one (h : n < 256 ^ 1) : bigEndian 1 n = [UInt8.ofNat n] := by
  rw [bigEndian, Nat.mod_eq_of_lt h]
  rfl

theorem Opcode.toByte_ofByte (byte : UInt8) : (ofByte byte).toByte = byte := by
  unfold ofByte
  cases hfound : all.find? (·.toByte = byte) with
  | none => rfl
  | some op => simpa using List.find?_some hfound

namespace Binary

variable {α : Type} {b rest : Bytes}
variable {count function : Nat} {short : ReadError}

theorem take_ok {front : Bytes} (h : (take short n).run b = .ok (front, rest)) : b = front ++ rest ∧ front.length = n := by
  rw [run_take] at h
  split at h
  · rename_i hn
    cases h
    exact ⟨(List.take_append_drop n b).symm, List.length_take_of_le hn⟩
  · cases h

theorem readNumber_ok {width : Nat} (h : (readNumber short width).run b = .ok (n, rest)) :
    b = bigEndian width n ++ rest ∧ n < 256 ^ width := by
  obtain ⟨front, mid, hfront, hn⟩ := run_bind_ok_iff.1 h
  cases hn
  obtain ⟨rfl, rfl⟩ := take_ok hfront
  exact ⟨by rw [bigEndian_ofBigEndian], ofBigEndian_lt front⟩

/-- A check that was passed. -/
theorem check_ok {c : Prop} [Decidable c] {e : ReadError} {r : Reader α} {a : α}
    (h : (if c then (throw e : Reader Unit) >>= fun _ => r else r).run b = .ok (a, rest)) : ¬ c ∧ r.run b = .ok (a, rest) := by
  split at h
  · cases h
  · exact ⟨‹_›, h⟩

/-! ## The functions -/

theorem bmod_bounds (n : Nat) : -2 ^ 31 ≤ Int.bmod n (2 ^ 32) ∧ Int.bmod n (2 ^ 32) < 2 ^ 31 := by
  rw [Int.bmod_def]
  omega

/-- Four bytes are read with their sign. -/
theorem toInt_ofInt_bmod (n : Nat) : (Int64.ofInt (Int.bmod n (2 ^ 32))).toInt = Int.bmod n (2 ^ 32) := by
  obtain ⟨hlow, hhigh⟩ := bmod_bounds n
  exact Int64.toInt_ofInt_of_le (by omega) (by omega)

/-- Four bytes, read with their sign, are the low half of what they are read as. -/
theorem low_ofInt_bmod (h : n < 256 ^ 4) : (Int64.ofInt (Int.bmod n (2 ^ 32))).toUInt64.toNat % 256 ^ 4 = n := by
  have hread := toInt_ofInt_bmod n
  rw [toInt_eq_bmod] at hread
  generalize (Int64.ofInt (Int.bmod n (2 ^ 32))).toUInt64.toNat = bits at hread ⊢
  rw [Int.bmod_def, Int.bmod_def] at hread
  omega

theorem toUInt64_ofNat (h : n < 256 ^ 8) : (Int64.ofNat n).toUInt64.toNat = n := by
  have hsize : n < 2 ^ 64 := h
  change (BitVec.ofNat 64 n).toNat = n
  rw [BitVec.toNat_ofNat, Nat.mod_eq_of_lt hsize]

theorem readOperand_ok {op : Opcode} {operand : Int64} (h : (readOperand function op).run b = .ok (operand, rest)) :
    b = bigEndian op.operandWidth operand.toUInt64.toNat ++ rest ∧ ({ op, operand } : Instruction).Regular := by
  obtain ⟨n, mid, hn, hoperand⟩ := run_bind_ok_iff.1 h
  cases hoperand
  obtain ⟨rfl, hlt⟩ := readNumber_ok hn
  rcases Opcode.operandWidth_cases op with hwidth | hwidth | hwidth
  · rw [hwidth] at hlt ⊢
    have hzero : n = 0 := Nat.lt_one_iff.1 hlt
    subst hzero
    exact ⟨rfl, fun hfour => absurd (hwidth.symm.trans hfour) (by decide), fun _ => rfl, fun _ => rfl⟩
  · rw [hwidth] at hlt ⊢
    rw [if_pos rfl]
    refine ⟨?_, fun _ => ?_, fun hnone => absurd (hwidth.symm.trans hnone) (by decide), fun _ => rfl⟩
    rotate_left
    · rw [toInt_ofInt_bmod]
      exact bmod_bounds n
    rw [← bigEndian_mod 4 (Int64.toUInt64 _).toNat, low_ofInt_bmod hlt]
  · rw [hwidth] at hlt ⊢
    rw [if_neg (by decide), toUInt64_ofNat hlt]
    exact ⟨rfl, fun hfour => absurd (hwidth.symm.trans hfour) (by decide), fun hnone =>
      absurd (hwidth.symm.trans hnone) (by decide), fun _ => rfl⟩

theorem readInstruction_ok {i : Instruction} (h : (readInstruction function place).run b = .ok (i, rest)) :
    b = writeInstruction i ++ rest ∧ i.op.isEncodable ∧ i.Regular := by
  obtain ⟨n, mid, hn, hinstruction⟩ := run_bind_ok_iff.1 h
  obtain ⟨rfl, hlt⟩ := readNumber_ok hn
  dsimp only at hinstruction
  split at hinstruction
  · rename_i hop
    obtain ⟨operand, mid, hoperand, hi⟩ := run_bind_ok_iff.1 hinstruction
    cases hi
    obtain ⟨rfl, hregular⟩ := readOperand_ok hoperand
    refine ⟨?_, hop, hregular⟩
    rw [writeInstruction, Opcode.toByte_ofByte, bigEndian_one hlt]
    rfl
  · cases hinstruction

theorem readCode_ok {code : List Instruction} (h : (readCode function place count).run b = .ok (code, rest)) :
    ∃ used, b = used ++ rest ∧ writeCode function place code = .ok used ∧ (∀ i ∈ code, i.Regular) ∧ code.length = count := by
  induction count generalizing place b code with
  | zero =>
    cases h
    exact ⟨[], rfl, rfl, List.forall_mem_nil _, rfl⟩
  | succ count ih =>
    obtain ⟨i, mid, hi, h⟩ := run_bind_ok_iff.1 h
    obtain ⟨tail, mid, htail, hcode⟩ := run_bind_ok_iff.1 h
    cases hcode
    obtain ⟨rfl, hop, hregular⟩ := readInstruction_ok hi
    obtain ⟨used, rfl, hwrite, hregulars, rfl⟩ := ih htail
    refine ⟨writeInstruction i ++ used, (List.append_assoc ..).symm, ?_, List.forall_mem_cons.2 ⟨hregular, hregulars⟩, rfl⟩
    rw [writeCode, if_pos hop, hwrite]
    rfl

theorem readFunction_ok {f : Function} (h : (readFunction place).run b = .ok (f, rest)) :
    ∃ code, b = writeHeader f.header ++ word f.code.size ++ code ++ rest ∧ writeCode place 0 f.code.toList =
      .ok code ∧ f.Regular := by
  obtain ⟨slot, mid, hslot, h⟩ := run_bind_ok_iff.1 h
  obtain ⟨returns, mid, hreturns, h⟩ := run_bind_ok_iff.1 h
  obtain ⟨params, mid, hparams, h⟩ := run_bind_ok_iff.1 h
  obtain ⟨locals, mid, hlocals, h⟩ := run_bind_ok_iff.1 h
  obtain ⟨count, mid, hcount, h⟩ := run_bind_ok_iff.1 h
  obtain ⟨code, mid, hcode, hf⟩ := run_bind_ok_iff.1 h
  cases hf
  obtain ⟨rfl, hslot'⟩ := readNumber_ok hslot
  obtain ⟨rfl, hreturns'⟩ := readNumber_ok hreturns
  obtain ⟨rfl, hparams'⟩ := readNumber_ok hparams
  obtain ⟨rfl, hlocals'⟩ := readNumber_ok hlocals
  obtain ⟨rfl, hcount'⟩ := readNumber_ok hcount
  obtain ⟨used, rfl, hwrite, hregulars, rfl⟩ := readCode_ok hcode
  have hnumber {n : Nat} (hn : n < 256 ^ 4) : (UInt32.ofNat n).toNat = n := UInt32.toNat_ofNat_of_lt hn
  refine ⟨used, ?_, hwrite, ⟨hcount', by simpa using hregulars⟩⟩
  simp only [writeHeader, word, hnumber hslot', hnumber hreturns', hnumber hparams', hnumber hlocals',
    List.size_toArray, List.append_assoc]

theorem readFunctions_ok {fs : List Function} (h : (readFunctions place count).run b = .ok (fs, rest)) :
    ∃ used, b = used ++ rest ∧ writeFunctions place fs = .ok used ∧ (∀ f ∈ fs, f.Regular) ∧ fs.length = count := by
  induction count generalizing place b fs with
  | zero =>
    cases h
    exact ⟨[], rfl, rfl, List.forall_mem_nil _, rfl⟩
  | succ count ih =>
    obtain ⟨f, mid, hf, h⟩ := run_bind_ok_iff.1 h
    obtain ⟨tail, mid, htail, hfs⟩ := run_bind_ok_iff.1 h
    cases hfs
    obtain ⟨code, rfl, hcode, hregular⟩ := readFunction_ok hf
    obtain ⟨used, rfl, hwrite, hregulars, rfl⟩ := ih htail
    refine ⟨writeHeader f.header ++ word f.code.size ++ code ++ used, (List.append_assoc ..).symm, ?_,
      List.forall_mem_cons.2 ⟨hregular, hregulars⟩, rfl⟩
    rw [writeFunctions, hcode, hwrite]
    rfl

/-! ## The pool -/

/-- The pool that these bytes are read as; a flag may be any byte. -/
inductive Pool : List Global → Bytes → Prop where
  | nil : Pool [] []
  | cons {gs : List Global} {pool : Bytes} (flag : UInt8) {payload : Bytes} (hpayload : payload.length ≤ maxPayload)
      (h : Pool gs pool) :
    Pool ({ const := flag ≠ 0, value := some payload } :: gs) (flag :: (word payload.length ++ (payload ++ pool)))

theorem readGlobal_ok {g : Global} (h : (readGlobal place).run b = .ok (g, rest)) :
    ∃ (flag : UInt8) (payload : Bytes), b = flag :: (word payload.length ++ (payload ++ rest)) ∧ payload.length ≤ maxPayload ∧
      g = { const := flag ≠ 0, value := some payload } := by
  obtain ⟨flag, mid, hflag, h⟩ := run_bind_ok_iff.1 h
  obtain ⟨size, mid, hsize, h⟩ := run_bind_ok_iff.1 h
  obtain ⟨hle, h⟩ := check_ok h
  obtain ⟨payload, mid, hpayload, hg⟩ := run_bind_ok_iff.1 h
  cases hg
  obtain ⟨rfl, hlt⟩ := readNumber_ok hflag
  obtain ⟨rfl, -⟩ := readNumber_ok hsize
  obtain ⟨rfl, rfl⟩ := take_ok hpayload
  have hzero : UInt8.ofNat flag = 0 ↔ flag = 0 := by
    rw [← UInt8.toNat_inj, UInt8.toNat_ofNat_of_lt' hlt]
    rfl
  refine ⟨UInt8.ofNat flag, payload, ?_, Nat.le_of_not_lt hle, ?_⟩
  · rw [bigEndian_one hlt]
    rfl
  · simp only [ne_eq, hzero]

theorem readGlobals_ok (h : (readGlobals place count).run b = .ok (gs, rest)) :
    ∃ pool, b = pool ++ rest ∧ Pool gs pool ∧ gs.length = count := by
  induction count generalizing place b gs with
  | zero =>
    cases h
    exact ⟨[], rfl, .nil, rfl⟩
  | succ count ih =>
    obtain ⟨g, mid, hg, h⟩ := run_bind_ok_iff.1 h
    obtain ⟨tail, mid, htail, hgs⟩ := run_bind_ok_iff.1 h
    cases hgs
    obtain ⟨flag, payload, rfl, hpayload, rfl⟩ := readGlobal_ok hg
    obtain ⟨pool, rfl, hpool, rfl⟩ := ih htail
    exact ⟨_, by simp only [List.cons_append, List.append_assoc], hpool.cons flag hpayload, rfl⟩

theorem Pool.payload_le (h : Pool gs pool) : ∀ g ∈ gs, g.payload.length ≤ maxPayload := by
  induction h with
  | nil => exact List.forall_mem_nil _
  | cons flag hpayload _ ih => exact List.forall_mem_cons.2 ⟨hpayload, ih⟩

theorem Pool.erased (h : Pool gs pool) : gs.map Global.erased = gs := by
  induction h with
  | nil => rfl
  | cons flag hpayload _ ih =>
    rw [List.map_cons, ih]
    rfl

theorem readProgram_ok (h : readProgram.run b = .ok (p, rest)) :
    ∃ pool functions,
      b = word magic ++ (word version ++ (word p.globals.size ++ (pool ++ (word p.functions.size ++ functions)))) ++ rest ∧
      Pool p.globals.toList pool ∧ writeFunctions 0 p.functions.toList = .ok functions ∧ p.Regular := by
  obtain ⟨found, mid, hmagic, h⟩ := run_bind_ok_iff.1 h
  obtain ⟨hfound, h⟩ := check_ok h
  obtain rfl := not_not.1 hfound
  obtain ⟨found, mid, hversion, h⟩ := run_bind_ok_iff.1 h
  obtain ⟨hfound, h⟩ := check_ok h
  obtain rfl := not_not.1 hfound
  obtain ⟨size, mid, hsize, h⟩ := run_bind_ok_iff.1 h
  obtain ⟨globals, mid, hglobals, h⟩ := run_bind_ok_iff.1 h
  obtain ⟨count, mid, hcount, h⟩ := run_bind_ok_iff.1 h
  obtain ⟨fs, mid, hfs, hp⟩ := run_bind_ok_iff.1 h
  cases hp
  obtain ⟨rfl, -⟩ := readNumber_ok hmagic
  obtain ⟨rfl, -⟩ := readNumber_ok hversion
  obtain ⟨rfl, hsize'⟩ := readNumber_ok hsize
  obtain ⟨pool, rfl, hpool, rfl⟩ := readGlobals_ok hglobals
  obtain ⟨rfl, hcount'⟩ := readNumber_ok hcount
  obtain ⟨functions, rfl, hfunctions, hregular, rfl⟩ := readFunctions_ok hfs
  refine ⟨pool, functions, ?_, hpool, hfunctions, hsize', fun g hg => ?_, hcount', by simpa using hregular⟩
  · simp only [word, List.size_toArray, List.append_assoc]
  · exact Nat.lt_of_le_of_lt (hpool.payload_le g (by simpa using hg)) (by decide)

/-! ## Flags -/

/-- Where the flags of these globals stand, the first of them at a place. -/
def flagPlaces : Nat → List Global → List Nat
  | _, [] => []
  | place, g :: gs => place :: flagPlaces (place + 5 + g.payload.length) gs

end Binary

/-- Where in its binary the flags of a program's globals stand. -/
def Program.flagPlaces (p : Program) : List Nat := Binary.flagPlaces 12 p.globals.toList

namespace Binary

variable {places : List Nat} {b : Bytes}

/-- The bytes from a place on, with every flag but zero at these places made one. -/
def plain (places : List Nat) (place : Nat) (b : Bytes) : Bytes :=
  b.mapIdx fun i byte => if place + i ∈ places ∧ byte ≠ 0 then 1 else byte

theorem getElem?_plain (places : List Nat) (place : Nat) (b : Bytes) (i : Nat) :
    (plain places place b)[i]? = if place + i ∈ places then b[i]?.map (fun flag => if flag = 0 then 0 else 1) else b[i]? := by
  rw [plain, List.getElem?_mapIdx]
  cases b[i]? with
  | none => simp
  | some byte =>
    by_cases hmem : place + i ∈ places
    · by_cases hzero : byte = 0 <;> simp [hmem, hzero]
    · simp [hmem]

theorem plain_append (places : List Nat) (place : Nat) (b b' : Bytes) :
    plain places place (b ++ b') = plain places place b ++ plain places (place + b.length) b' := by
  simp only [plain, List.mapIdx_append, Nat.add_assoc, Nat.add_comm b.length]

theorem plain_eq_self (h : ∀ i byte, b[i]? = some byte → place + i ∈ places → byte = 0 ∨ byte = 1) :
    plain places place b = b := by
  refine List.ext_getElem? fun i => ?_
  rw [plain, List.getElem?_mapIdx]
  cases hi : b[i]? with
  | none => rfl
  | some byte =>
    rw [Option.map_some]
    split
    · rename_i hflag
      rw [(h i byte hi hflag.1).resolve_left hflag.2]
    · rfl

theorem plain_of_notMem (h : ∀ i < b.length, place + i ∉ places) : plain places place b = b :=
  plain_eq_self fun i _ hi hmem => absurd hmem (h i (List.getElem?_eq_some_iff.1 hi).1)

theorem length_word (n : Nat) : (word n).length = 4 := length_bigEndian 4 n

theorem length_entry (flag : UInt8) (payload pool : Bytes) :
    (flag :: (word payload.length ++ (payload ++ pool))).length = 5 + payload.length + pool.length := by
  simp only [List.length_cons, List.length_append, length_word]
  omega

theorem Pool.mem_flagPlaces (h : Pool gs pool) {i : Nat} (hi : i ∈ flagPlaces place gs) :
    place ≤ i ∧ i < place + pool.length := by
  induction h generalizing place with
  | nil => cases hi
  | @cons gs pool flag payload _ _ ih =>
    rw [length_entry]
    rcases List.mem_cons.1 hi with rfl | hi
    · omega
    · have hbounds : place + 5 + payload.length ≤ i ∧ i < place + 5 + payload.length + pool.length := ih hi
      omega

/-- A pool is written as it was read, with plain flags. -/
theorem Pool.write_eq (h : Pool gs pool) (hplaces : ∀ i < pool.length, place + i ∈ places ↔ place + i ∈ flagPlaces place gs) :
    gs.flatMap writeGlobal = plain places place pool := by
  induction h generalizing place with
  | nil => rfl
  | @cons gs pool flag payload _ hrest ih =>
    rw [length_entry] at hplaces
    have hbehind {i : Nat} (hi : 0 < i) (hlt : i < 5 + payload.length + pool.length) :
        place + i ∈ places ↔ place + i ∈ flagPlaces (place + 5 + payload.length) gs := by
      rw [hplaces i hlt]
      exact List.mem_cons.trans (or_iff_right (by omega))
    have hflag : plain places place [flag] = [if decide (flag ≠ 0) then 1 else 0] := by
      have hmem : place ∈ places := (hplaces 0 (by omega)).2 List.mem_cons_self
      by_cases hzero : flag = 0
      · subst hzero
        simp [plain]
      · simp [plain, hmem, hzero]
    have hbody : plain places (place + 1) (word payload.length ++ payload) = word payload.length ++ payload := by
      refine plain_of_notMem fun i hi hmem => ?_
      rw [List.length_append, length_word] at hi
      rw [Nat.add_assoc, hbehind (by omega) (by omega)] at hmem
      have := (hrest.mem_flagPlaces hmem).1
      omega
    have hpool : gs.flatMap writeGlobal = plain places (place + 5 + payload.length) pool := by
      refine ih fun i hi => ?_
      have hplace : place + 5 + payload.length + i = place + (5 + payload.length + i) := by omega
      rw [hplace]
      exact hbehind (by omega) (by omega)
    have hsplit : flag :: (word payload.length ++ (payload ++ pool)) = [flag] ++ (word payload.length ++ payload ++ pool) := by
      rw [List.append_assoc]
      rfl
    have hplace : place + [flag].length + (word payload.length ++ payload).length = place + 5 + payload.length := by
      rw [List.length_append, length_word, List.length_singleton]
      omega
    rw [hsplit, plain_append, plain_append, hplace, hflag, List.length_singleton, hbody, ← hpool]
    rfl

/-! ## Whole binaries -/

/-- The parts of a binary without its flags are written as they were read. -/
theorem plain_binary {functions : Bytes} (hpool : Pool p.globals.toList pool) :
    plain p.flagPlaces 0 (word magic ++ (word version ++
      (word p.globals.size ++ (pool ++ (word p.functions.size ++ functions))))) =
      word magic ++ (word version ++ (word p.globals.size ++
        (p.globals.toList.flatMap writeGlobal ++ (word p.functions.size ++ functions)))) := by
  have hplain (part : Bytes) {place : Nat} (h : place + part.length ≤ 12 ∨ 12 + pool.length ≤ place) :
      plain p.flagPlaces place part = part := by
    refine plain_of_notMem fun i hi hmem => ?_
    have := hpool.mem_flagPlaces hmem
    omega
  have hwrite : p.globals.toList.flatMap writeGlobal = plain p.flagPlaces 12 pool := hpool.write_eq fun _ _ => Iff.rfl
  have hheader (n : Nat) {place : Nat} (h : place ≤ 8) : plain p.flagPlaces place (word n) = word n := by
    refine hplain _ (.inl ?_)
    rw [length_word]
    omega
  rw [hwrite, plain_append, plain_append, plain_append, plain_append, plain_append, length_word, length_word, length_word]
  rw [hheader magic (by omega), hheader version (by omega), hheader p.globals.size (by omega),
    hplain (word p.functions.size) (.inr (by omega)), hplain functions (.inr (by omega))]

/-- Whatever byte string is read, the program is written as the bytes it was read from, with every flag of a global but zero made
one, and is read from them again. So with plain flags the binary is the byte string's front. -/
theorem write_of_read {b : Bytes} {p : Program} (h : read b = .ok p) :
    ∃ used rest written, b = used ++ rest ∧ readProgram.run b = .ok (p, rest) ∧ write p = .ok written ∧ read written = .ok p ∧
      written.length = used.length ∧
      (∀ i, written[i]? = if i ∈ p.flagPlaces then used[i]?.map (fun flag => if flag = 0 then 0 else 1) else used[i]?) ∧
      ((∀ i ∈ p.flagPlaces, b[i]? = some 0 ∨ b[i]? = some 1) → written <+: b) := by
  obtain ⟨⟨q, rest⟩, hrun, hq⟩ := bind_ok_iff.1 h
  obtain rfl : p = q := (Except.ok.inj hq).symm
  obtain ⟨pool, functions, hb, hpool, hfunctions, hregular⟩ := readProgram_ok hrun
  have hwrite := write_ok_iff.2 ⟨functions, hfunctions, plain_binary hpool⟩
  generalize word magic ++ (word version ++ (word p.globals.size ++ (pool ++ (word p.functions.size ++ functions)))) =
    used at hb hwrite
  have herased : p.erased = p := by
    have hglobals : p.globals.map Global.erased = p.globals := Array.toList_inj.1 (by rw [Array.toList_map, hpool.erased])
    rw [Program.erased, hglobals]
  have hread := read_of_write hregular (by simpa using hpool.payload_le) hwrite
  rw [herased] at hread
  refine ⟨used, rest, plain p.flagPlaces 0 used, hb, hrun, hwrite, hread, List.length_mapIdx, fun i => ?_, fun hflags => ?_⟩
  · rw [getElem?_plain, Nat.zero_add]
  · have hplain : plain p.flagPlaces 0 used = used := by
      refine plain_eq_self fun i byte hi hmem => ?_
      rw [Nat.zero_add] at hmem
      have hflag := hflags i hmem
      rw [hb, List.getElem?_append_left (List.getElem?_eq_some_iff.1 hi).1, hi] at hflag
      simpa using hflag
    rw [hplain, hb]
    exact List.prefix_append used rest

/-- A constant and an empty text, and a branch back. -/
def flagged : Program where
  globals := #[{ const := true, value := some [0xff] }, { value := some [] }]
  functions := #[{ header := {}, code := #[{ op := .br, operand := -2 }] }]

/-- The binary of `flagged` with an odd flag, and a byte behind it. -/
def oddFlag : Bytes :=
  word magic ++ word version ++ word 2 ++ [7, 0, 0, 0, 1, 0xff] ++ [0, 0, 0, 0, 0] ++ word 1 ++
    (word 0 ++ word 0 ++ word 0 ++ word 0 ++ word 1 ++ [Opcode.br.toByte, 0xff, 0xff, 0xff, 0xfe]) ++ [0xaa]

/-- The odd flag alone is written in another way, and the last byte is left out. -/
theorem write_of_read_oddFlag : read oddFlag = .ok flagged ∧ flagged.flagPlaces = [12, 18] ∧
    ∃ written, write flagged = .ok written ∧
    read written = .ok flagged ∧ written.length = 52 ∧ written[12]? = some 1 ∧ written[18]? = some 0 ∧
      written[51]? = some 0xfe := by
  have hfront : readProgram.run oddFlag = .ok (flagged, [0xaa]) := by decide +kernel
  have hread : read oddFlag = .ok flagged := by
    rw [read_eq, hfront]
    rfl
  obtain ⟨used, rest, written, hb, hrun, hwrite, hagain, hlength, hbytes, -⟩ := write_of_read hread
  obtain rfl : [0xaa] = rest := by
    rw [hfront] at hrun
    exact (Prod.mk.inj (Except.ok.inj hrun)).2
  obtain rfl : oddFlag.dropLast = used := by
    rw [hb, List.dropLast_concat]
  exact ⟨hread, rfl, written, hwrite, hagain, hlength, hbytes 12, hbytes 18, hbytes 51⟩

end Binary

end OnePass

import OnePass.Proofs.Lexical.Pieces
import OnePass.Proofs.Sidecar.Items
import OnePass.Sidecar

/-!
# Sidecars, written and read

A sidecar can be read back just if its texts are UTF-8, and then it comes back as it was; in any case its bytes tell it from every
other sidecar (`read_write_ok_iff`). Each field is read back by itself, a record by its fields, a list by its elements.
-/

namespace OnePass.Sidecar

open Cbor (Item Readable)

/-- The texts of the sidecar are UTF-8. -/
structure IsUtf8 (s : Sidecar) : Prop where
  source : ∃ cs, s.source = Bytes.ofChars cs
  slots : ∀ e ∈ s.slots, ∃ cs, e.name = Bytes.ofChars cs
  functions : ∀ e ∈ s.functions, ∃ cs, e.name = Bytes.ofChars cs

/-! ## Fields -/

theorem readInt_unsigned {low high : Int} {n : UInt64} (h : low ≤ n.toNat ∧ (n.toNat : Int) ≤ high) :
    readInt low high (.unsigned n) = some (n.toNat : Int) := by
  simp [readInt, content, h]

@[simp] theorem readInt64_ofInt64 (n : Int64) : readInt64 (.ofInt64 n) = some n := by
  have hint := Binary.toInt_eq_bmod n
  have hlt := n.toUInt64.toNat_lt
  have hread : readInt (-2 ^ 63) (2 ^ 63 - 1) (.ofInt64 n) = some n.toInt := by
    have hlow := n.le_toInt
    have hhigh := n.toInt_lt
    rw [Int.bmod_def] at hint
    rw [Item.ofInt64]
    split
    · rename_i hneg
      have hneg : n.toInt < 0 := Int64.lt_iff_toInt_lt.1 hneg
      have hvalue : (-1 - ((~~~n.toUInt64).toNat : Int)) = n.toInt := by
        rw [UInt64.toNat_not, UInt64.size]
        omega
      simp only [readInt, content, Option.bind_eq_bind, Option.bind_some, hvalue]
      rw [if_pos ⟨hlow, by omega⟩]
    · rename_i hpos
      have hpos : ¬n.toInt < 0 := fun h => hpos (Int64.lt_iff_toInt_lt.2 h)
      have hvalue : (n.toUInt64.toNat : Int) = n.toInt := by omega
      rw [readInt_unsigned (by omega), hvalue]
  rw [readInt64, hread]
  exact congrArg some (Int64.ofInt_toInt n)

@[simp] theorem readUInt32_ofUInt32 (n : UInt32) : readUInt32 (.ofUInt32 n) = some n := by
  have hlt := n.toNat_lt
  rw [readUInt32, Item.ofUInt32, readInt_unsigned (by simp; omega)]
  simp

@[simp] theorem readUInt8_unsigned (n : UInt8) : readUInt8 (.unsigned n.toUInt64) = some n := by
  have hlt := n.toNat_lt
  rw [readUInt8, readInt_unsigned (by simp; omega)]
  simp

@[simp] theorem readText_text (b : Bytes) : readText (.text b) = if Utf8.isValid b then some b else none := rfl

@[simp] theorem isValid_nil : Utf8.isValid [] = true := rfl

@[simp] theorem readBytes_bytes (b : Bytes) : readBytes (.bytes b) = some b := rfl

/-! ## Lists and records -/

theorem mapM_map {α : Type} {write : α → Item} {read : Item → Option α} {p : α → Bool}
    (h : ∀ a, read (write a) = if p a then some a else none) (as : List α) :
    (as.map write).mapM read = if as.all p then some as else none := by
  induction as with
  | nil => rfl
  | cons a as ih =>
    rw [List.map_cons, List.mapM_cons, h, ih, List.all_cons]
    cases p a with
    | false => rfl
    | true => cases as.all p <;> rfl

/-- A list is read back if each of its elements is. -/
theorem readList_listItem {α : Type} {write : α → Item} {read : Item → Option α} {p : α → Bool}
    (h : ∀ a, read (write a) = if p a then some a else none) (as : List α) :
    readList read (listItem (as.map write)) = if as.all p then some as else none := by
  cases as with
  | nil => rfl
  | cons a as => exact mapM_map h (a :: as)

theorem readFields_record (fields : List (UInt64 × Item)) :
    readFields (fields.flatMap fun (key, value) => [.unsigned key, value]) =
      some (fields.map fun (key, value) => (some key, value)) := by
  induction fields with
  | nil => rfl
  | cons field fields ih =>
    simp only [List.flatMap_cons, List.cons_append, List.nil_append, readFields, readKey, ih]
    rfl

@[simp] theorem readRecord_record (fields : List (UInt64 × Item)) :
    readRecord (record fields) = some (fields.map fun (key, value) => (some key, value)) :=
  readFields_record fields

theorem readSlot_slotItem (e : SlotEntry) : readSlot (slotItem e) = if Utf8.isValid e.name then some e else none := by
  obtain ⟨slot, ⟨kind⟩, name, text⟩ := e
  cases name with
  | nil => cases text <;> simp [readSlot, slotItem, readField]
  | cons b name =>
    cases hvalid : Utf8.isValid (b :: name) with
    | false => simp [readSlot, slotItem, readField, hvalid]
    | true => cases text <;> simp [readSlot, slotItem, readField, hvalid]

theorem readFunction_functionItem (e : FunctionEntry) :
    readFunction (functionItem e) = if Utf8.isValid e.name then some e else none := by
  cases hvalid : Utf8.isValid e.name <;> simp [readFunction, functionItem, readField, hvalid]

/-- The texts of the sidecar are UTF-8, as can be checked. -/
def hasValidTexts (s : Sidecar) : Bool :=
  Utf8.isValid s.source && s.slots.all (Utf8.isValid ·.name) && s.functions.all (Utf8.isValid ·.name)

theorem hasValidTexts_iff {s : Sidecar} : s.hasValidTexts = true ↔ s.IsUtf8 := by
  simp only [hasValidTexts, Bool.and_eq_true, List.all_eq_true, Utf8.isValid_iff]
  exact ⟨fun ⟨⟨hsource, hslots⟩, hfunctions⟩ => ⟨hsource, hslots, hfunctions⟩, fun h => ⟨⟨h.source, h.slots⟩, h.functions⟩⟩

theorem ofItem_toItem (s : Sidecar) : ofItem s.toItem = if s.hasValidTexts then some s else none := by
  have hslots := readList_listItem readSlot_slotItem s.slots
  have hfunctions := readList_listItem readFunction_functionItem s.functions
  cases hsource : Utf8.isValid s.source <;> cases hs : s.slots.all (Utf8.isValid ·.name) <;>
    cases hf : s.functions.all (Utf8.isValid ·.name) <;>
    simp [ofItem, toItem, readField, hasValidTexts, hslots, hfunctions, hsource, hs, hf]

/-! ## Different sidecars have different items -/

theorem ofInt64_injective {m n : Int64} (h : Item.ofInt64 m = .ofInt64 n) : m = n := by
  have hread := congrArg readInt64 h
  rw [readInt64_ofInt64, readInt64_ofInt64] at hread
  exact Option.some.inj hread

theorem ofUInt32_injective {m n : UInt32} (h : Item.ofUInt32 m = .ofUInt32 n) : m = n := by
  have hread := congrArg readUInt32 h
  rw [readUInt32_ofUInt32, readUInt32_ofUInt32] at hread
  exact Option.some.inj hread

theorem record_injective {fields fields' : List (UInt64 × Item)} (h : record fields = record fields') : fields = fields' := by
  have hread := congrArg readRecord h
  rw [readRecord_record, readRecord_record] at hread
  refine (List.map_inj_right ?_).1 (Option.some.inj hread)
  rintro ⟨key, value⟩ ⟨key', value'⟩ hfield
  cases hfield
  rfl

theorem listItem_injective {α : Type} {write : α → Item} (hwrite : ∀ a b, write a = write b → a = b) {as bs : List α}
    (h : listItem (as.map write) = listItem (bs.map write)) : as = bs := by
  have hitems : as.map write = bs.map write := by
    cases as <;> cases bs <;> simp_all [listItem, Item.null]
  exact (List.map_inj_right hwrite).1 hitems

/-- The fields of a slot's entry. -/
def slotFields (e : SlotEntry) : List (UInt64 × Item) :=
  [(1, .ofInt64 e.slot), (2, .unsigned e.kind.number.toUInt64)] ++
    (if e.name.isEmpty then [] else [(3, .text e.name)]) ++ (if e.text.isEmpty then [] else [(4, .bytes e.text)])

/-- The bytes of a field that may have been left out. -/
def bytesOf : Option Item → Bytes
  | some (.text b) | some (.bytes b) => b
  | _ => []

theorem bytesOf_name (e : SlotEntry) : bytesOf ((slotFields e).lookup 3) = e.name := by
  obtain ⟨slot, kind, name, text⟩ := e
  cases name <;> cases text <;> rfl

theorem bytesOf_text (e : SlotEntry) : bytesOf ((slotFields e).lookup 4) = e.text := by
  obtain ⟨slot, kind, name, text⟩ := e
  cases name <;> cases text <;> rfl

theorem slotItem_injective (e e' : SlotEntry) (h : slotItem e = slotItem e') : e = e' := by
  have hfields : slotFields e = slotFields e' := record_injective h
  have hname : e.name = e'.name := by rw [← bytesOf_name, hfields, bytesOf_name]
  have htext : e.text = e'.text := by rw [← bytesOf_text, hfields, bytesOf_text]
  simp only [slotFields, List.cons_append, List.cons.injEq, Prod.mk.injEq, true_and] at hfields
  obtain ⟨hslot, hkind, -⟩ := hfields
  obtain ⟨slot, ⟨kind⟩, name, text⟩ := e
  obtain ⟨slot', ⟨kind'⟩, name', text'⟩ := e'
  cases ofInt64_injective hslot
  cases UInt8.toUInt64_inj.1 (Item.unsigned.inj hkind)
  cases hname
  cases htext
  rfl

theorem functionItem_injective (e e' : FunctionEntry) (h : functionItem e = functionItem e') : e = e' := by
  have hfields := record_injective h
  simp only [List.cons.injEq, Prod.mk.injEq, true_and, and_true, Item.text.injEq] at hfields
  obtain ⟨hname, hslot, hparams, hlocals, hreturns, hinstructions⟩ := hfields
  obtain ⟨name, slot, params, locals, returns, instructions⟩ := e
  obtain ⟨name', slot', params', locals', returns', instructions'⟩ := e'
  cases hname
  cases ofUInt32_injective hslot
  cases ofUInt32_injective hparams
  cases ofUInt32_injective hlocals
  cases ofUInt32_injective hreturns
  cases ofInt64_injective hinstructions
  rfl

theorem toItem_injective {s s' : Sidecar} (h : s.toItem = s'.toItem) : s = s' := by
  have hfields := record_injective h
  simp only [List.cons.injEq, Prod.mk.injEq, true_and, and_true, Item.text.injEq] at hfields
  obtain ⟨hversion, hsource, hslots, hfunctions⟩ := hfields
  obtain ⟨version, source, slots, functions⟩ := s
  obtain ⟨version', source', slots', functions'⟩ := s'
  cases ofInt64_injective hversion
  cases hsource
  cases listItem_injective slotItem_injective hslots
  cases listItem_injective functionItem_injective hfunctions
  rfl

/-! ## Sidecars -/

theorem readable_ofInt64 (room : Nat) (n : Int64) : Readable room (.ofInt64 n) := by
  unfold Item.ofInt64
  split
  · exact .negative
  · exact .unsigned

theorem length_record (fields : List (UInt64 × Item)) :
    (fields.flatMap fun (key, value) => [Item.unsigned key, value]).length = 2 * fields.length := by
  induction fields with
  | nil => rfl
  | cons field fields ih =>
    rw [List.flatMap_cons, List.length_append, ih]
    exact Nat.add_comm 2 (2 * fields.length)

theorem readable_record {room : Nat} {fields : List (UInt64 × Item)} (hcount : fields.length ≤ Cbor.maxCount)
    (h : ∀ field ∈ fields, Readable room field.2) : Readable (room + 1) (record fields) := by
  refine .map ?_ ?_ fun item hitem => ?_
  · rw [length_record]
    exact Nat.mul_mod_right ..
  · rwa [length_record, Nat.mul_div_cancel_left _ (by decide)]
  · obtain ⟨field, hfield, hitem⟩ := List.mem_flatMap.1 hitem
    simp only [List.mem_cons, List.not_mem_nil, or_false] at hitem
    rcases hitem with rfl | rfl
    · exact .unsigned
    · exact h field hfield

theorem readable_listItem {room : Nat} {items : List Item} (hcount : items.length ≤ Cbor.maxCount)
    (h : ∀ item ∈ items, Readable room item) :
    Readable (room + 1) (listItem items) := by
  unfold listItem
  split
  · exact .null
  · exact .array hcount h

/-- Of the fields of a slot's entry two may be left out. -/
theorem slotFields_sublist (e : SlotEntry) : (slotFields e).Sublist
    [(1, .ofInt64 e.slot), (2, .unsigned e.kind.number.toUInt64), (3, .text e.name), (4, .bytes e.text)] := by
  have hoptional (omitted : Bool) (field : UInt64 × Item) : (if omitted then [] else [field]).Sublist [field] := by
    cases omitted <;> simp
  exact ((List.Sublist.refl _).append (hoptional _ _)).append (hoptional _ _)

theorem readable_slotItem (room : Nat) (e : SlotEntry) : Readable (room + 1) (slotItem e) := by
  have hfields := slotFields_sublist e
  refine readable_record (Nat.le_trans hfields.length_le (by simp [Cbor.maxCount])) fun field hfield => ?_
  have hfield := hfields.subset hfield
  simp only [List.mem_cons, List.not_mem_nil, or_false] at hfield
  rcases hfield with rfl | rfl | rfl | rfl
  · exact readable_ofInt64 room e.slot
  · exact .unsigned
  · exact .text
  · exact .bytes

theorem readable_functionItem (room : Nat) (e : FunctionEntry) : Readable (room + 1) (functionItem e) := by
  refine readable_record (by simp [Cbor.maxCount]) fun field hfield => ?_
  simp only [List.mem_cons, List.not_mem_nil, or_false] at hfield
  rcases hfield with rfl | rfl | rfl | rfl | rfl | rfl
  case inl => exact .text
  case inr.inr.inr.inr.inr => exact readable_ofInt64 room e.instructions
  all_goals exact .unsigned

/-- The item of a sidecar has lists of records in a record. -/
theorem readable_toItem {s : Sidecar} (hslots : s.slots.length ≤ Cbor.maxCount)
    (hfunctions : s.functions.length ≤ Cbor.maxCount) :
    Readable 3 s.toItem := by
  refine readable_record (by simp [Cbor.maxCount]) fun field hfield => ?_
  simp only [List.mem_cons, List.not_mem_nil, or_false] at hfield
  rcases hfield with rfl | rfl | rfl | rfl
  · exact readable_ofInt64 2 s.version
  · exact .text
  · refine readable_listItem (by rwa [List.length_map]) fun item hitem => ?_
    obtain ⟨e, -, rfl⟩ := List.mem_map.1 hitem
    exact readable_slotItem 0 e
  · refine readable_listItem (by rwa [List.length_map]) fun item hitem => ?_
    obtain ⟨e, -, rfl⟩ := List.mem_map.1 hitem
    exact readable_functionItem 0 e

/-- The sidecar is of the current version and has no more entries than a reader takes. Its bytes can be counted in 63 bits, as
those of all that fits into a memory can. -/
structure Fits (s : Sidecar) : Prop where
  version : s.version = 1
  slots : s.slots.length ≤ 131072
  functions : s.functions.length ≤ 131072
  size : s.write.length < 2 ^ 63

theorem Fits.read_item {s : Sidecar} (h : s.Fits) : Cbor.read s.write = some s.toItem :=
  Cbor.read_write (readable_toItem h.slots h.functions) (by decide) h.size

/-- Reading gives a sidecar back just if its texts are UTF-8, and no other sidecar has its bytes. -/
theorem read_write_ok_iff {s : Sidecar} (h : s.Fits) :
    (∀ r, read s.write = .ok r ↔ s.IsUtf8 ∧ r = s) ∧ ∀ s' : Sidecar, s'.Fits → s'.write = s.write → s' = s := by
  constructor
  · intro r
    rw [read, h.read_item, ← hasValidTexts_iff]
    simp only [Option.bind_eq_bind, Option.bind_some, ofItem_toItem]
    cases s.hasValidTexts with
    | false => simp
    | true =>
      have hversion : s.version = currentVersion := h.version
      simp [hversion, eq_comm]
  · intro s' h' hbytes
    have hitem := h'.read_item
    rw [hbytes, h.read_item] at hitem
    exact toItem_injective (Option.some.inj hitem).symm

/-- Slots below zero and at the upper end, a name beyond ASCII, bytes that are no text, and an entry with everything left out. -/
def mixed : Sidecar where
  version := 1
  source := Bytes.ofString "dir/é.c0"
  slots := [{ slot := -70000, kind := ⟨200⟩, name := Bytes.ofString "ß", text := [0xff, 0x00] }, { slot := Int64.maxValue }, {}]
  functions := [{ name := Bytes.ofString "main", slot := 4294967295, params := 23, locals := 24, returns := 256, instructions := -1 }]

/-- The sidecar comes back; with a stray byte for its source it does not. -/
theorem read_write_ok_iff_mixed : mixed.Fits ∧ read mixed.write = .ok mixed ∧
    { mixed with source := [0xff] }.Fits ∧ ∀ r, read { mixed with source := [0xff] }.write ≠ .ok r := by
  have hmixed : mixed.Fits := ⟨rfl, by decide, by decide, by decide +kernel⟩
  have hstray : { mixed with source := [0xff] }.Fits := ⟨rfl, by decide, by decide, by decide +kernel⟩
  refine ⟨hmixed, ((read_write_ok_iff hmixed).1 mixed).2 ⟨hasValidTexts_iff.1 (by decide +kernel), rfl⟩, hstray, fun r hr => ?_⟩
  have hvalid := hasValidTexts_iff.2 (((read_write_ok_iff hstray).1 r).1 hr).1
  exact absurd hvalid (by decide +kernel)

end OnePass.Sidecar

import OnePass.Cbor.Reader
import OnePass.Proofs.Binary.RoundTrip

/-!
# Items, written and read

An item that nests no deeper and has no longer arrays and maps than a reader takes is read back from its canonical bytes
(`read_write`). What stands behind the bytes of an item is left over, so items are read one after another; the budget of a reader
is counted against the bytes, of which every item has one at least.
-/

namespace OnePass.Cbor

variable {item : Item} {depth major n room : Nat} {items : List Item}

/-! ## Heads -/

theorem take?_append (b rest : Bytes) : take? b.length (b ++ rest) = some (b, rest) := by
  simp [take?]

/-- A head whose number takes one, two, four or eight bytes. -/
theorem readHead_wide {k : Nat} (hmajor : major < 8) (hk : k < 4) (hn : n < 256 ^ 2 ^ k) (rest : Bytes) :
    readHead (UInt8.ofNat (major * 32 + (24 + k)) :: (bigEndian (2 ^ k) n ++ rest)) = some (⟨major, 24 + k, n⟩, rest) := by
  have hbyte : (UInt8.ofNat (major * 32 + (24 + k))).toNat = major * 32 + (24 + k) := UInt8.toNat_ofNat_of_lt'
    (by change _ < 256; omega)
  have hdiv : (major * 32 + (24 + k)) / 32 = major := by omega
  have hmod : (major * 32 + (24 + k)) % 32 = 24 + k := by omega
  have htake := take?_append (bigEndian (2 ^ k) n) rest
  rw [length_bigEndian] at htake
  simp only [readHead, hbyte, hdiv, hmod]
  rw [if_neg (by omega), if_pos (by omega), Nat.add_sub_cancel_left, htake]
  simp [ofBigEndian_bigEndian, Nat.mod_eq_of_lt hn]

/-- A head is read as it was written, and never as that of an indefinite length. -/
theorem readHead_head (hmajor : major < 8) (hn : n < 2 ^ 64) (rest : Bytes) :
    ∃ info, readHead (head major n ++ rest) = some (⟨major, info, n⟩, rest) ∧ info < 28 ∧ (n < 24 → info = n) := by
  unfold head
  split
  · rename_i hsmall
    have hbyte : (UInt8.ofNat (major * 32 + n)).toNat = major * 32 + n := UInt8.toNat_ofNat_of_lt' (by change _ < 256; omega)
    have hdiv : (major * 32 + n) / 32 = major := by omega
    have hmod : (major * 32 + n) % 32 = n := by omega
    refine ⟨n, ?_, by omega, fun _ => rfl⟩
    simp only [List.singleton_append, readHead, hbyte, hdiv, hmod]
    rw [if_pos hsmall]
  split
  · exact ⟨24, readHead_wide hmajor (by decide) (k := 0) (by omega) rest, by decide, fun h => by omega⟩
  split
  · exact ⟨25, readHead_wide hmajor (by decide) (k := 1) (by omega) rest, by decide, fun h => by omega⟩
  split
  · exact ⟨26, readHead_wide hmajor (by decide) (k := 2) (by omega) rest, by decide, fun h => by omega⟩
  · exact ⟨27, readHead_wide hmajor (by decide) (k := 3) (by omega) rest, by decide, fun h => by omega⟩

theorem head_ne_nil (major n : Nat) : head major n ≠ [] := by
  unfold head
  repeat' split
  all_goals exact List.cons_ne_nil _ _

/-! ## Items -/

theorem Item.write_ne_nil (item : Item) : item.write ≠ [] := by
  cases item <;> simp [Item.write, head_ne_nil]

theorem Item.length_write_pos (item : Item) : 0 < item.write.length := List.length_pos_iff.2 item.write_ne_nil

theorem Item.length_write_le (h : item ∈ items) : item.write.length ≤ (Item.writeAll items).length := by
  induction items with
  | nil => cases h
  | cons first items ih =>
    rw [Item.writeAll, List.length_append]
    rcases List.mem_cons.1 h with rfl | h
    · exact Nat.le_add_right ..
    · exact Nat.le_trans (ih h) (Nat.le_add_left ..)

/-- The items that canonical writing gives back, if they may nest so deep. -/
inductive Readable : Nat → Item → Prop where
  | unsigned {room : Nat} {n : UInt64} : Readable room (.unsigned n)
  | negative {room : Nat} {n : UInt64} : Readable room (.negative n)
  | bytes {room : Nat} {b : Bytes} : Readable room (.bytes b)
  | text {room : Nat} {b : Bytes} : Readable room (.text b)
  | null {room : Nat} : Readable room .null
  | array {room : Nat} {items : List Item} (hcount : items.length ≤ maxCount) (hitems : ∀ item ∈ items, Readable room item) :
    Readable (room + 1) (.array items)
  | map {room : Nat} {items : List Item} (heven : items.length % 2 = 0) (hcount : items.length / 2 ≤ maxCount)
    (hitems : ∀ item ∈ items, Readable room item) : Readable (room + 1) (.map items)

/-- The reader takes the item off the front of what starts with its bytes, if the budget is enough for these. -/
def ReadsBack (depth : Nat) (item : Item) : Prop :=
  ∀ budget rest, 2 * item.write.length ≤ budget + 1 → readItem budget depth (item.write ++ rest) = some (item, rest)

/-- Items that are read back one by one are read back together. -/
theorem readItems_writeAll (h : ∀ item ∈ items, ReadsBack depth item) {budget : Nat}
    (hbudget : 2 * (Item.writeAll items).length ≤ budget)
    (rest : Bytes) : readItems budget depth items.length (Item.writeAll items ++ rest) = some (items, rest) := by
  induction items generalizing budget with
  | nil => simp [readItems, Item.writeAll]
  | cons item items ih =>
    obtain ⟨hitem, hitems⟩ := List.forall_mem_cons.1 h
    have hpos := item.length_write_pos
    rw [Item.writeAll, List.length_append] at hbudget
    cases budget with
    | zero => omega
    | succ budget =>
      rw [Item.writeAll, List.append_assoc, List.length_cons, readItems, hitem budget _ (by omega)]
      simp [ih hitems (by omega : 2 * (Item.writeAll items).length ≤ budget)]

/-- An item is read back if it is once its head has been read, with a budget for what stands behind the head. -/
theorem readsBack_of_head {body : Bytes} (hmajor : major < 8) (hn : n < 2 ^ 64) (hwrite : item.write = head major n ++ body)
    (h : ∀ info budget b rest, info ≠ 31 → (n < 24 → info = n) → 2 * body.length ≤ budget →
      readHead b = some (⟨major, info, n⟩, body ++ rest) → readItem (budget + 1) depth b = some (item, rest)) :
        ReadsBack depth item := by
  intro budget rest hbudget
  obtain ⟨info, hhead, hinfo, hsmall⟩ := readHead_head hmajor hn (body ++ rest)
  have hpos : 0 < (head major n).length := List.length_pos_iff.2 (head_ne_nil major n)
  rw [hwrite, List.length_append] at hbudget
  cases budget with
  | zero => omega
  | succ budget =>
    rw [hwrite, List.append_assoc]
    exact h info budget _ rest (by omega) hsmall (by omega) hhead

theorem readString_append {b : Bytes} (h : b.length < 2 ^ 63) (rest : Bytes) :
    readString b.length (b ++ rest) = some (b, rest) := by
  rw [readString, if_neg (by omega), take?_append]

theorem readsBack_of_readable (h : Readable room item) (hdepth : depth + room ≤ maxNesting)
    (hlength : item.write.length < 2 ^ 63) :
    ReadsBack depth item := by
  induction h generalizing depth with
  | @unsigned room n =>
    refine readsBack_of_head (by decide) n.toNat_lt (List.append_nil _).symm fun info budget b rest hinfo _ _ hhead => ?_
    rw [readItem, hhead]
    simp [Head.isIndefinite, hinfo]
  | @negative room n =>
    refine readsBack_of_head (by decide) n.toNat_lt (List.append_nil _).symm fun info budget b rest hinfo _ _ hhead => ?_
    rw [readItem, hhead]
    simp [Head.isIndefinite, hinfo]
  | @bytes room content =>
    rw [Item.write, List.length_append] at hlength
    refine readsBack_of_head (by decide) (by omega) rfl fun info budget b rest hinfo _ _ hhead => ?_
    rw [readItem, hhead]
    simp [Head.isIndefinite, hinfo, readString_append (by omega : content.length < 2 ^ 63)]
  | @text room content =>
    rw [Item.write, List.length_append] at hlength
    refine readsBack_of_head (by decide) (by omega) rfl fun info budget b rest hinfo _ _ hhead => ?_
    rw [readItem, hhead]
    simp [Head.isIndefinite, hinfo, readString_append (by omega : content.length < 2 ^ 63)]
  | @null room =>
    refine readsBack_of_head (by decide) (by decide) (List.append_nil _).symm fun info budget b rest _ hsmall _ hhead => ?_
    rw [readItem, hhead, hsmall (by decide)]
    rfl
  | @array room items hcount hitems ih =>
    have hcount' : items.length < 2 ^ 64 := Nat.lt_of_le_of_lt hcount (by decide)
    have hnests : ¬maxNesting < depth + 1 := by omega
    rw [Item.write, List.length_append] at hlength
    have hback (item : Item) (hitem : item ∈ items) : ReadsBack (depth + 1) item := by
      have hle := Item.length_write_le hitem
      exact ih item hitem (by omega) (by omega)
    refine readsBack_of_head (by decide) hcount' rfl fun info budget b rest hinfo _ hbudget hhead => ?_
    rw [readItem, hhead]
    refine (if_neg hnests).trans ?_
    simp [Head.isIndefinite, hinfo, Nat.not_lt.2 hcount, readItems_writeAll hback hbudget]
  | @map room items heven hcount hitems ih =>
    have hcount' : items.length / 2 < 2 ^ 64 := Nat.lt_of_le_of_lt hcount (by decide)
    have hdouble : 2 * (items.length / 2) = items.length := by omega
    have hnests : ¬maxNesting < depth + 1 := by omega
    rw [Item.write, List.length_append] at hlength
    have hback (item : Item) (hitem : item ∈ items) : ReadsBack (depth + 1) item := by
      have hle := Item.length_write_le hitem
      exact ih item hitem (by omega) (by omega)
    refine readsBack_of_head (by decide) hcount' rfl fun info budget b rest hinfo _ hbudget hhead => ?_
    rw [readItem, hhead]
    refine (if_neg hnests).trans ?_
    simp [Head.isIndefinite, hinfo, Nat.not_lt.2 hcount, hdouble, readItems_writeAll hback hbudget]

/-- An item is what its canonical bytes are read as. -/
theorem read_write (h : Readable room item) (hroom : room ≤ maxNesting) (hlength : item.write.length < 2 ^ 63) :
    read item.write = some item := by
  have hback : ReadsBack 0 item := readsBack_of_readable h (by omega) hlength
  have hread := hback (budgetFor item.write.length) [] (by rw [budgetFor]; omega)
  rw [List.append_nil] at hread
  rw [read, hread]
  rfl

end OnePass.Cbor

import OnePass.Cbor.Item

/-!
# Reading CBOR

Reads the one data item that a byte string holds. A reader also accepts what the canonical writing avoids: heads that are longer
than need be, and indefinite lengths. How deep items nest and how many of them an array or a map has is bounded.
-/

namespace OnePass.Cbor

/-- How deep arrays, maps and tags may nest. -/
def maxNesting : Nat := 32

/-- How many elements an array may have, and how many pairs a map. -/
def maxCount : Nat := 131072

/-- The byte that ends an item of indefinite length. -/
def breakByte : UInt8 := 0xff

/-- The first `n` bytes and the rest, if there are as many. -/
def take? (n : Nat) (b : Bytes) : Option (Bytes × Bytes) :=
  let front := b.take n
  if front.length = n then some (front, b.drop n) else none

/-- The head of an item: its major type, the information beside it and the number that it gives. -/
structure Head where
  major : Nat
  info : Nat
  value : Nat

/-- The mark of an indefinite length. -/
def Head.isIndefinite (h : Head) : Bool := h.info == 31

/-- Reads a head. -/
def readHead : Bytes → Option (Head × Bytes)
  | [] => none
  | b :: rest =>
    let major := b.toNat / 32
    let info := b.toNat % 32
    if info < 24 then some (⟨major, info, info⟩, rest)
    else if info < 28 then do
      let (digits, rest) ← take? (2 ^ (info - 24)) rest
      return (⟨major, info, ofBigEndian digits⟩, rest)
    else if info = 31 then some (⟨major, info, 0⟩, rest)
    else none

/-- Reads the content of a string of a length. -/
def readString (length : Nat) (b : Bytes) : Option (Bytes × Bytes) := if 2 ^ 63 ≤ length then none else take? length b

/-- Reads the chunks of a string of indefinite length, each of the same major type and of definite length. -/
def readChunks (major : Nat) : Nat → Bytes → Option (List Bytes × Bytes)
  | 0, _ => none
  | budget + 1, b =>
    if b.head? = some breakByte then some ([], b.tail)
    else do
      let (h, rest) ← readHead b
      if h.major ≠ major ∨ h.isIndefinite then none
      else
        let (chunk, rest) ← readString h.value rest
        let (chunks, rest) ← readChunks major budget rest
        return (chunk :: chunks, rest)

/-- Reads an item of major type 7: a simple value or a floating-point number. -/
def simpleItem (h : Head) : Option Item :=
  if h.info < 24 then some (.simple (UInt8.ofNat h.value))
  else if h.info = 24 then if h.value < 32 then none else some (.simple (UInt8.ofNat h.value))
  else if h.info < 28 then some (.float (2 ^ (h.info - 24)) (UInt64.ofNat h.value))
  else none

mutual

/-- Reads an item at a depth. The budget is used up by one for every call. -/
def readItem : Nat → Nat → Bytes → Option (Item × Bytes)
  | 0, _, _ => none
  | budget + 1, depth, b => do
    let (h, rest) ← readHead b
    match h.major with
    | 0 => if h.isIndefinite then none else some (.unsigned (UInt64.ofNat h.value), rest)
    | 1 => if h.isIndefinite then none else some (.negative (UInt64.ofNat h.value), rest)
    | 2 =>
      if h.isIndefinite then do
        let (chunks, rest) ← readChunks 2 budget rest
        return (.bytes chunks.flatten, rest)
      else do
        let (content, rest) ← readString h.value rest
        return (.bytes content, rest)
    | 3 =>
      if h.isIndefinite then do
        let (chunks, rest) ← readChunks 3 budget rest
        return (.chunkedText chunks, rest)
      else do
        let (content, rest) ← readString h.value rest
        return (.text content, rest)
    | 4 =>
      if maxNesting < depth + 1 then none
      else if h.isIndefinite then do
        let (items, rest) ← readUntilBreak budget (depth + 1) rest
        if maxCount < items.length then none else return (.array items, rest)
      else if maxCount < h.value then none
      else do
        let (items, rest) ← readItems budget (depth + 1) h.value rest
        return (.array items, rest)
    | 5 =>
      if maxNesting < depth + 1 then none
      else if h.isIndefinite then do
        let (items, rest) ← readUntilBreak budget (depth + 1) rest
        if items.length % 2 = 1 ∨ maxCount < items.length / 2 then none else return (.map items, rest)
      else if maxCount < h.value then none
      else do
        let (items, rest) ← readItems budget (depth + 1) (2 * h.value) rest
        return (.map items, rest)
    | 6 => if h.isIndefinite then none else readTagged budget depth (UInt64.ofNat h.value) rest
    | _ => return (← simpleItem h, rest)

/-- Reads what a tag tags; a tag under a tag lies one deeper. -/
def readTagged : Nat → Nat → UInt64 → Bytes → Option (Item × Bytes)
  | 0, _, _, _ => none
  | budget + 1, depth, number, b => do
    let nested := b.head?.any (·.toNat / 32 == 6)
    if nested && maxNesting < depth + 1 then none
    else
      let (content, rest) ← readItem budget (if nested then depth + 1 else depth) b
      return (.tag number content, rest)

/-- Reads so many items at a depth. -/
def readItems : Nat → Nat → Nat → Bytes → Option (List Item × Bytes)
  | _, _, 0, b => some ([], b)
  | 0, _, _ + 1, _ => none
  | budget + 1, depth, count + 1, b => do
    let (item, rest) ← readItem budget depth b
    let (items, rest) ← readItems budget depth count rest
    return (item :: items, rest)

/-- Reads items at a depth up to a break. -/
def readUntilBreak : Nat → Nat → Bytes → Option (List Item × Bytes)
  | 0, _, _ => none
  | budget + 1, depth, b =>
    if b.head? = some breakByte then some ([], b.tail)
    else do
      let (item, rest) ← readItem budget depth b
      let (items, rest) ← readUntilBreak budget depth rest
      return (item :: items, rest)

end

/-- A budget that no item of so many bytes uses up: an item takes a byte at least, and no two calls in a row take none. -/
def budgetFor (length : Nat) : Nat := 2 * length + 2

/-- The item that a byte string is. -/
def read (b : Bytes) : Option Item := do
  let (item, rest) ← readItem (budgetFor b.length) 0 b
  if rest.isEmpty then some item else none

end OnePass.Cbor

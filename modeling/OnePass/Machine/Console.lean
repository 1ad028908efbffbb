import OnePass.Number.Scientific
import OnePass.Number.Shortest
import OnePass.Text.Blank
import OnePass.Text.Quoted

/-!
# The console

What a running program reads and writes. Numbers are read word by word: blanks are skipped, then everything is taken that can go
on with a numeral, and what was taken is read as one. Characters that cannot go on stay unread.
-/

namespace OnePass

/-- What a word is read as. -/
inductive NumeralForm where
  | integer
  | double
  /-- The binary exponent of a decimal. -/
  | exponent
  deriving DecidableEq, Repr

/-- The name that errors have for reading a form. -/
def NumeralForm.reader : NumeralForm → String
  | integer => "strconv.ParseInt"
  | double => "strconv.ParseFloat"
  | exponent => "strconv.Atoi"

/-- Why a number could not be read. -/
inductive InputError where
  | atEnd
  | expectedInteger
  /-- The word is no numeral of its form. -/
  | refused (form : NumeralForm) (word : List Char) (reason : Number.NumeralError)
  deriving DecidableEq, Repr

/-- The wording of the error. -/
def InputError.message : InputError → Bytes
  | atEnd => Bytes.ofString "EOF"
  | expectedInteger => Bytes.ofString "expected integer"
  | refused form word reason =>
    Bytes.ofString form.reader ++ Bytes.ofString ": parsing " ++ Text.quote (Bytes.ofChars word) ++ Bytes.ofString ": " ++
      Bytes.ofString reason.reason

namespace Input

/-- The input after its leading blanks, once `skip` more bytes of a blank have passed. -/
def skipBlanksAfter : Nat → Bytes → Bytes
  | _, [] => []
  | skip + 1, _ :: rest => skipBlanksAfter skip rest
  | 0, lead :: rest =>
    if Text.isBlankPiece (Utf8.first lead rest).1 then skipBlanksAfter (Utf8.first lead rest).2 rest else lead :: rest

/-- The input after its leading blanks. -/
def skipBlanks (input : Bytes) : Bytes := skipBlanksAfter 0 input

/-- The character of an ASCII byte; every other byte counts as none that a numeral has. -/
def ascii (b : UInt8) : Char := if b < 0x80 then Char.ofNat b.toNat else Utf8.replacement

/-- A word under construction: what has been taken, and the input that is left. -/
structure Scan where
  taken : List Char
  rest : Bytes

/-- Nothing is taken yet. -/
def Scan.start (input : Bytes) : Scan := ⟨[], input⟩

/-- The character ahead is one of these. -/
def Scan.sees (s : Scan) (ok : Char → Bool) : Bool := s.rest.head?.any fun b => ok (ascii b)

/-- Takes the character ahead if it is one of these. -/
def Scan.accept (s : Scan) (ok : Char → Bool) : Scan :=
  match s.rest with
  | b :: rest => if ok (ascii b) then ⟨s.taken ++ [ascii b], rest⟩ else s
  | [] => s

/-- Takes the characters ahead as long as they are among these. -/
def Scan.acceptAll (s : Scan) (ok : Char → Bool) : Scan :=
  ⟨s.taken ++ (s.rest.takeWhile fun b => ok (ascii b)).map ascii, s.rest.dropWhile fun b => ok (ascii b)⟩

/-- Takes the letters of a word in either case, as far as they go. Says whether all of it was there. -/
def Scan.acceptWord (s : Scan) : List Char → Bool × Scan
  | [] => (true, s)
  | c :: rest => if s.sees (·.toLower == c) then (s.accept (·.toLower == c)).acceptWord rest else (false, s)

/-- A sign. -/
def isSign (c : Char) : Bool := c == '+' || c == '-'

/-- The digits of a base below eleven, and underscores. -/
def isDigitOf (base : Nat) (c : Char) : Bool := c == '_' || (Number.digit? c).any (· < base)

/-- Takes the rest of an integer that starts with a zero: a base prefix and its digits, or octal digits. -/
def Scan.acceptPrefixed (s : Scan) : Scan :=
  let t := s.accept (· == '0')
  if t.sees (·.toLower == 'b') then (t.accept (·.toLower == 'b')).acceptAll (isDigitOf 2)
  else if t.sees (·.toLower == 'o') then (t.accept (·.toLower == 'o')).acceptAll (isDigitOf 8)
  else if t.sees (·.toLower == 'x') then (t.accept (·.toLower == 'x')).acceptAll (isDigitOf 16)
  else t.acceptAll (isDigitOf 8)

/-- The integer that a word is. -/
def integerOf (word : List Char) : Except InputError Int64 :=
  (Number.readLiteral word).mapError (.refused .integer word)

/-- Reads an integer. Gives it, or why there is none, and the input that is left. -/
def readInt (input : Bytes) : Except InputError Int64 × Bytes :=
  let s := Scan.start (skipBlanks input)
  if s.rest.isEmpty then (.error .atEnd, s.rest)
  else
    let s := s.accept isSign
    if s.sees (· == '0') then
      let s := s.acceptPrefixed
      (integerOf s.taken, s.rest)
    else if s.rest.isEmpty then (.error .atEnd, s.rest)
    else if s.sees (isDigitOf 10) then
      let s := s.acceptAll (isDigitOf 10)
      (integerOf s.taken, s.rest)
    else (.error .expectedInteger, s.rest)

/-- Takes what can go on with the digits of a double: a fraction and an exponent. -/
def Scan.acceptDigits (s : Scan) (hex : Bool) : Scan :=
  let base := if hex then 16 else 10
  let s := s.acceptAll (isDigitOf base)
  let s := if s.sees (· == '.') then (s.accept (· == '.')).acceptAll (isDigitOf base) else s
  let isMark (c : Char) : Bool := c.toLower == 'p' || (!hex && c.toLower == 'e')
  if s.sees isMark then ((s.accept isMark).accept isSign).acceptAll (isDigitOf 10) else s

/-- Takes the word that a double is written as. -/
def Scan.acceptDouble (s : Scan) : Scan :=
  let (complete, s) := s.acceptWord ['n', 'a', 'n']
  if complete then s
  else
    let (complete, s) := (s.accept isSign).acceptWord ['i', 'n', 'f']
    if complete then s
    else if s.sees (· == '0') then
      let s := s.accept (· == '0')
      if s.sees (·.toLower == 'x') then (s.accept (·.toLower == 'x')).acceptDigits true else s.acceptDigits false
    else s.acceptDigits false

/-- The double that a word is. A decimal with a binary exponent after a `p` is the decimal times a power of two; every refusal
names the whole word. -/
def doubleOf (word : List Char) : Except InputError UInt64 :=
  if word.contains 'p' && !word.any (·.toLower == 'x') then do
    let decimal := word.takeWhile (· != 'p')
    let power := (word.dropWhile (· != 'p')).drop 1
    let x ← (Double.parse decimal).mapError (.refused .double word)
    let n ← (Number.readDecimal power).mapError (.refused .exponent word)
    return Double.scaleBy x n
  else (Double.parse word).mapError (.refused .double word)

/-- Reads a double. Gives it, or why there is none, and the input that is left. -/
def readDouble (input : Bytes) : Except InputError UInt64 × Bytes :=
  let s := Scan.start (skipBlanks input)
  if s.rest.isEmpty then (.error .atEnd, s.rest)
  else
    let s := s.acceptDouble
    (doubleOf s.taken, s.rest)

end Input

/-- The console of a running program. -/
structure Console where
  input : Bytes := []
  output : Array UInt8 := #[]
  deriving DecidableEq, Repr, Inhabited

/-- Writes to the console. -/
def Console.write (c : Console) (b : Bytes) : Console := { c with output := b.foldl Array.push c.output }

end OnePass

import OnePass.Number.Scientific

/-!
# TOML values

What a TOML text says, statement by statement, and which words are its integers, real numbers and moments of time. Of real numbers
and moments only their form is kept, since no setting takes one.
-/

namespace OnePass.Toml

/-- A key: its parts from the outermost table inwards. -/
abbrev Key := List Bytes

/-- A value as it is written. -/
inductive Value where
  | text (b : Bytes)
  | integer (n : Int64)
  | boolean (b : Bool)
  | real
  | moment
  | array (items : List Value)
  | inline (pairs : List (Key × Value))
  deriving Inhabited

/-- A statement of a text. -/
inductive Statement where
  /-- The head of a table. -/
  | table (key : Key)
  /-- The head of the next table of an array of tables. -/
  | tables (key : Key)
  | pair (key : Key) (value : Value)
  deriving Inhabited

/-! ## Numbers -/

/-- Every underscore, and the end, comes after a digit. -/
def underscoresFollowDigits (after : Bool) : List Char → Bool
  | [] => after
  | c :: rest => (c != '_' || after) && underscoresFollowDigits (Number.isHexDigit c) rest

/-- A zero leads further digits, apart from the zero of a base prefix. -/
def hasLeadingZero : List Char → Bool
  | '0' :: c :: _ => !(c == 'b' || c == 'o' || c == 'x')
  | sign :: '0' :: _ :: _ => sign == '+' || sign == '-'
  | _ => false

/-- The integer that a word is. -/
def readInteger (word : List Char) : Option Int64 :=
  if underscoresFollowDigits false word && !hasLeadingZero word then (Number.readLiteral word).toOption else none

/-- The pieces of a word between the characters that divide it. -/
def cut (divides : Char → Bool) : List Char → List (List Char)
  | [] => [[]]
  | c :: rest =>
    match cut divides rest with
    | [] => [[c]]
    | piece :: pieces => if divides c then [] :: piece :: pieces else (c :: piece) :: pieces

/-- The spellings of the numbers that are not finite. -/
def isNonFinite (word : List Char) : Bool :=
  let unsigned := (Number.splitSign word).2
  unsigned == ['i', 'n', 'f'] || unsigned == ['n', 'a', 'n']

/-- Every point has a digit after it. -/
def pointsPrecedeDigits (pending : Bool) : List Char → Bool
  | [] => !pending
  | c :: rest => (!pending || Number.isDigit c) && pointsPrecedeDigits (c == '.') rest

/-- The word is a real number. -/
def isReal (word : List Char) : Bool :=
  let pieces := (cut (fun c => c == '.' || c == 'e' || c == 'E') word).filter fun piece => !piece.isEmpty
  isNonFinite word ||
    (pieces.all (underscoresFollowDigits false) && !(pieces.head?.any hasLeadingZero) && pointsPrecedeDigits false word &&
      (Double.parse (word.filter (· != '_'))).toOption.isSome)

/-! ## Moments -/

/-- A number of so many digits at the front, and the rest. -/
def digits? (count : Nat) (cs : List Char) : Option (Nat × List Char) :=
  let front := cs.take count
  if front.length = count ∧ front.all Number.isDigit then some (Number.ofDigits front, cs.drop count) else none

/-- The rest after a character that has to be there. -/
def after? (c : Char) : List Char → Option (List Char)
  | [] => none
  | d :: rest => if d = c then some rest else none

/-- The length of a month. -/
def daysIn (year month : Nat) : Nat :=
  if month = 2 then if year % 4 = 0 ∧ (year % 100 ≠ 0 ∨ year % 400 = 0) then 29 else 28
  else if month = 4 ∨ month = 6 ∨ month = 9 ∨ month = 11 then 30
  else 31

/-- The rest after a date of the calendar. -/
def date? (cs : List Char) : Option (List Char) := do
  let (year, cs) ← digits? 4 cs
  let (month, cs) ← digits? 2 (← after? '-' cs)
  let (day, cs) ← digits? 2 (← after? '-' cs)
  if 1 ≤ month ∧ month ≤ 12 ∧ 1 ≤ day ∧ day ≤ daysIn year month then some cs else none

/-- The rest after a fraction of a second, which may be absent. -/
def skipFraction : List Char → List Char
  | '.' :: c :: rest => if Number.isDigit c then rest.dropWhile Number.isDigit else '.' :: c :: rest
  | cs => cs

/-- The rest after a time of day, whose seconds may be left out. -/
def time? (cs : List Char) : Option (List Char) := do
  let (hour, cs) ← digits? 2 cs
  let (minute, cs) ← digits? 2 (← after? ':' cs)
  if 24 ≤ hour ∨ 60 ≤ minute then none
  else match cs with
    | ':' :: cs => do
      let (second, cs) ← digits? 2 cs
      if second < 60 then some (skipFraction cs) else none
    | cs => some cs

/-- The rest after an offset from universal time. -/
def zone? : List Char → Option (List Char)
  | 'Z' :: cs => some cs
  | sign :: cs => do
    let (hours, cs) ← digits? 2 cs
    let (minutes, cs) ← digits? 2 (← after? ':' cs)
    if (sign = '+' ∨ sign = '-') ∧ hours ≤ 24 ∧ minutes ≤ 60 then some cs else none
  | [] => none

/-- The word ends here, perhaps after an offset. -/
def endsWithZone (cs : List Char) : Bool := cs.isEmpty || zone? cs == some []

/-- The word is a date, a time of day or both; a blank and small letters may stand for the marks. -/
def isMoment (word : List Char) : Bool :=
  let word := word.map fun c => if c == 't' || c == ' ' then 'T' else if c == 'z' then 'Z' else c
  match date? word with
  | some [] => true
  | some ('T' :: rest) => (time? rest).any endsWithZone
  | some _ => false
  | none => time? word == some []

end OnePass.Toml

import OnePass.Text.Utf8
import OnePass.Toml.Value

/-!
# Reading TOML

Reads a TOML text into its statements. A text is refused as a whole: where it goes wrong is not kept. The text has to be UTF-8
without control characters other than tabs and line ends.
-/

namespace OnePass.Toml

/-! ## Gaps -/

/-- A blank within a line. -/
def isGap (c : Char) : Bool := c == ' ' || c == '\t'

/-- Part of a line end. -/
def isLineEnd (c : Char) : Bool := c == '\n' || c == '\r'

/-- The text after blanks within the line. -/
def skipGap (cs : List Char) : List Char := cs.dropWhile isGap

/-- The text after blanks, line ends and comments; the flag tells that a comment is open. -/
def skipLines : Bool → List Char → List Char
  | _, [] => []
  | true, c :: rest => if c == '\n' then skipLines false rest else skipLines true rest
  | false, c :: rest =>
    if isGap c || isLineEnd c then skipLines false rest else if c == '#' then skipLines true rest else c :: rest

/-- A statement ends here: nothing but a comment follows in its line. -/
def endsLine (cs : List Char) : Bool :=
  match skipGap cs with
  | [] => true
  | c :: _ => isLineEnd c || c == '#'

/-! ## Strings -/

/-- The character with a number in hexadecimal digits, as many as given. -/
def coded? (count : Nat) (cs : List Char) : Option (Char × List Char) := do
  let digits := cs.take count
  let values ← digits.mapM fun c => (Number.digit? c).filter (· < 16)
  let n := values.foldl (fun n d => n * 16 + d) 0
  if digits.length = count ∧ n.isValidChar then some (Char.ofNat n, cs.drop count) else none

/-- The character of an escape, after its backslash. -/
def escaped? : List Char → Option (Char × List Char)
  | 'b' :: cs => some ('\x08', cs)
  | 't' :: cs => some ('\t', cs)
  | 'n' :: cs => some ('\n', cs)
  | 'f' :: cs => some ('\x0c', cs)
  | 'r' :: cs => some ('\r', cs)
  | 'e' :: cs => some ('\x1b', cs)
  | '\x22' :: cs => some ('\x22', cs)
  | '\x5c' :: cs => some ('\x5c', cs)
  | 'x' :: cs => coded? 2 cs
  | 'u' :: cs => coded? 4 cs
  | 'U' :: cs => coded? 8 cs
  | _ => none

/-- The content of a string up to its closing quote, and the text after it. -/
def readBasic : Nat → List Char → Option (List Char × List Char)
  | 0, _ => none
  | _ + 1, [] => none
  | budget + 1, c :: cs =>
    if c == '\x22' then some ([], cs)
    else if isLineEnd c then none
    else do
      let (d, cs) ← if c == '\x5c' then escaped? cs else some (c, cs)
      let (content, cs) ← readBasic budget cs
      return (d :: content, cs)

/-- The content of a string without escapes up to its closing quote, and the text after it. -/
def readRaw (cs : List Char) : Option (List Char × List Char) :=
  let content := cs.takeWhile fun c => !(c == '\x27' || isLineEnd c)
  match cs.drop content.length with
  | '\x27' :: rest => some (content, rest)
  | _ => none

/-- The text after a line end at its front, if there is one. -/
def skipFirstLineEnd : List Char → List Char
  | '\n' :: cs => cs
  | '\r' :: '\n' :: cs => cs
  | cs => cs

/-- How a run of quotes goes on with a string of several lines that three quotes close. -/
inductive QuoteRun where
  | content
  /-- The last three quotes of the run close the string. -/
  | close
  | tooLong

/-- What a run of quotes is: up to two quotes belong to the string also in front of the closing ones, and three after a
backslash. -/
def quoteRun (length : Nat) (afterBackslash : Bool) : QuoteRun :=
  if length < 3 then .content else if length ≤ (if afterBackslash then 6 else 5) then .close else .tooLong

/-- The content of a string of several lines. A backslash at the end of a line takes all blanks and line ends after it away. The
flag tells that an escaped backslash comes just before. -/
def readMultiline : Nat → Bool → List Char → Option (List Char × List Char)
  | 0, _, _ => none
  | _ + 1, _, [] => none
  | budget + 1, afterBackslash, c :: cs =>
    if c == '\x22' then
      let run := (c :: cs).takeWhile (· == '\x22')
      let rest := (c :: cs).drop run.length
      match quoteRun run.length afterBackslash with
      | .content => do
        let (content, rest) ← readMultiline budget false rest
        return (run ++ content, rest)
      | .close => some (run.drop 3, rest)
      | .tooLong => none
    else if c == '\x5c' then
      let blanks := cs.takeWhile fun d => isGap d || isLineEnd d
      if blanks.contains '\n' then readMultiline budget false (cs.drop blanks.length)
      else do
        let (d, cs) ← escaped? cs
        let (content, cs) ← readMultiline budget (d == '\x5c') cs
        return (d :: content, cs)
    else do
      let (content, cs) ← readMultiline budget false cs
      return (c :: content, cs)

/-- The content of a string of several lines without escapes. -/
def readRawMultiline : Nat → List Char → Option (List Char × List Char)
  | 0, _ => none
  | _ + 1, [] => none
  | budget + 1, c :: cs =>
    if c == '\x27' then
      let run := (c :: cs).takeWhile (· == '\x27')
      let rest := (c :: cs).drop run.length
      match quoteRun run.length false with
      | .content => do
        let (content, rest) ← readRawMultiline budget rest
        return (run ++ content, rest)
      | .close => some (run.drop 3, rest)
      | .tooLong => none
    else do
      let (content, cs) ← readRawMultiline budget cs
      return (c :: content, cs)

/-- A string value. -/
def readString (cs : List Char) : Option (List Char × List Char) :=
  match cs with
  | '\x22' :: '\x22' :: '\x22' :: rest => readMultiline (rest.length + 1) false (skipFirstLineEnd rest)
  | '\x22' :: rest => readBasic (rest.length + 1) rest
  | '\x27' :: '\x27' :: '\x27' :: rest => readRawMultiline (rest.length + 1) (skipFirstLineEnd rest)
  | '\x27' :: rest => readRaw rest
  | _ => none

/-! ## Keys -/

/-- A character that a key may hold without quotes. -/
def isBare (c : Char) : Bool := c.isAlphanum || c == '_' || c == '-'

/-- A part of a key. -/
def readPart (cs : List Char) : Option (Bytes × List Char) :=
  match cs with
  | '\x22' :: rest => (readBasic (rest.length + 1) rest).map fun (name, rest) => (Bytes.ofChars name, rest)
  | '\x27' :: rest => (readRaw rest).map fun (name, rest) => (Bytes.ofChars name, rest)
  | _ =>
    let name := cs.takeWhile isBare
    if name.isEmpty then none else some (Bytes.ofChars name, cs.drop name.length)

/-- A key with its parts between points; blanks around them do not count. -/
def readKey : Nat → List Char → Option (Key × List Char)
  | 0, _ => none
  | budget + 1, cs => do
    let (part, cs) ← readPart (skipGap cs)
    match skipGap cs with
    | '.' :: cs =>
      let (key, cs) ← readKey budget cs
      return (part :: key, cs)
    | cs => return ([part], cs)

/-! ## Values -/

/-- The longest word of such characters, and the text after it. -/
def word (ok : Char → Bool) (cs : List Char) : List Char × List Char := (cs.takeWhile ok, cs.dropWhile ok)

/-- A character that opens the fraction or the exponent of a real number. -/
def opensFraction (c : Char) : Bool := c == '.' || c == 'e' || c == 'E'

/-- A number in decimal digits, after what was taken before. -/
def readDecimal (taken : List Char) (cs : List Char) : Option (Value × List Char) :=
  let (digits, rest) := word (fun c => Number.isDigit c || c == '_') cs
  if rest.head?.any opensFraction then
    let (fraction, rest) := word (fun c => Number.isDigit c || opensFraction c || c == '_' || c == '-' || c == '+') rest
    if isReal (taken ++ digits ++ fraction) then some (.real, rest) else none
  else (readInteger (taken ++ digits)).map fun n => (.integer n, rest)

/-- A moment of time; blanks behind it do not belong to it. -/
def readMoment (cs : List Char) : Option (Value × List Char) :=
  let (text, rest) := word (fun c => Number.isDigit c || "-:Tt .Zz+".toList.contains c) cs
  if isMoment ((text.reverse.dropWhile (· == ' ')).reverse) then some (.moment, rest) else none

/-- A number in the base of its prefix, or in decimal digits, or a moment of time. -/
def readDigits (cs : List Char) : Option (Value × List Char) :=
  let based (base : Nat) (mark : Char) (rest : List Char) : Option (Value × List Char) :=
    let (digits, rest) := word (fun c => c == '_' || (Number.digit? c).any (· < base)) rest
    if digits.head? == some '_' then none else (readInteger ('0' :: mark :: digits)).map fun n => (.integer n, rest)
  match cs with
  | '0' :: 'b' :: rest => based 2 'b' rest
  | '0' :: 'o' :: rest => based 8 'o' rest
  | '0' :: 'x' :: rest => based 16 'x' rest
  | _ =>
    if ((cs.dropWhile Number.isDigit).head?).any fun c => c == '-' || c == ':' then readMoment cs else readDecimal [] cs

/-- The rest of the text after a name at its front. -/
def afterWord? (name : List Char) (cs : List Char) : Option (List Char) :=
  if name.isPrefixOf cs then some (cs.drop name.length) else none

/-- A value that is a single word. -/
def readWord (cs : List Char) : Option (Value × List Char) :=
  let named (name : String) (value : Value) := (afterWord? name.toList cs).map fun rest => (value, rest)
  named "true" (.boolean true) <|> named "false" (.boolean false) <|> named "inf" .real <|> named "nan" .real

/-- A value that starts with a sign. -/
def readSigned (sign : Char) (cs : List Char) : Option (Value × List Char) :=
  match cs with
  | 'i' :: 'n' :: 'f' :: rest => some (.real, rest)
  | 'n' :: 'a' :: 'n' :: rest => some (.real, rest)
  | c :: _ => if Number.isDigit c then readDecimal [sign] cs else none
  | [] => none

mutual

/-- A value. -/
def readValue : Nat → List Char → Option (Value × List Char)
  | 0, _ => none
  | budget + 1, cs =>
    match skipGap cs with
    | '[' :: cs => do
      let (items, cs) ← readItems budget cs
      return (.array items, cs)
    | '\x7b' :: cs => do
      let (pairs, cs) ← readPairs budget cs
      return (.inline pairs, cs)
    | '+' :: cs => readSigned '+' cs
    | '-' :: cs => readSigned '-' cs
    | c :: cs =>
      if c == '\x22' || c == '\x27' then (readString (c :: cs)).map fun (b, cs) => (.text (Bytes.ofChars b), cs)
      else if Number.isDigit c then readDigits (c :: cs)
      else readWord (c :: cs)
    | [] => none

/-- The items of an array up to its end; a comma may follow the last. -/
def readItems : Nat → List Char → Option (List Value × List Char)
  | 0, _ => none
  | budget + 1, cs =>
    match skipLines false cs with
    | ']' :: cs => some ([], cs)
    | cs => do
      let (item, cs) ← readValue budget cs
      match skipLines false cs with
      | ',' :: cs =>
        let (items, cs) ← readItems budget cs
        return (item :: items, cs)
      | ']' :: cs => return ([item], cs)
      | _ => none

/-- The pairs of a table within a line up to its end; a comma may follow the last. -/
def readPairs : Nat → List Char → Option (List (Key × Value) × List Char)
  | 0, _ => none
  | budget + 1, cs =>
    match skipLines false cs with
    | '\x7d' :: cs => some ([], cs)
    | cs => do
      let (key, cs) ← readKey budget cs
      let (value, cs) ← readValue budget (← after? '=' cs)
      match skipLines false cs with
      | ',' :: cs =>
        let (pairs, cs) ← readPairs budget cs
        return ((key, value) :: pairs, cs)
      | '\x7d' :: cs => return ([(key, value)], cs)
      | _ => none

end

/-! ## Statements -/

/-- A budget that no value of a text of so many characters uses up. -/
def budgetFor (length : Nat) : Nat := 2 * length + 2

/-- A statement. -/
def readStatement (cs : List Char) : Option (Statement × List Char) :=
  let budget := budgetFor cs.length
  match cs with
  | '[' :: '[' :: cs => do
    let (key, cs) ← readKey budget cs
    let cs ← after? ']' cs
    return (.tables key, ← after? ']' cs)
  | '[' :: cs => do
    let (key, cs) ← readKey budget cs
    return (.table key, ← after? ']' cs)
  | cs => do
    let (key, cs) ← readKey budget cs
    let (value, cs) ← readValue budget (← after? '=' cs)
    return (.pair key value, cs)

/-- The statements of a text, each in lines of its own. -/
def readStatements : Nat → List Char → Option (List Statement)
  | 0, _ => none
  | budget + 1, cs =>
    match skipLines false cs with
    | [] => some []
    | cs => do
      let (statement, cs) ← readStatement cs
      if endsLine cs then return statement :: (← readStatements budget cs) else none

/-- The text without a byte order mark. -/
def skipByteOrderMark : Bytes → Bytes
  | 0xff :: 0xfe :: b => b
  | 0xfe :: 0xff :: b => b
  | 0xef :: 0xbb :: 0xbf :: b => b
  | b => b

/-- Control characters are tabs and line ends only, and a carriage return belongs to a line feed. -/
def isClean : List Char → Bool
  | [] => true
  | '\r' :: '\n' :: cs => isClean cs
  | c :: cs => (c == '\t' || c == '\n' || !(c.toNat < 0x20 || c.toNat == 0x7f)) && isClean cs

/-- The statements of a text. -/
def read (text : Bytes) : Option (List Statement) :=
  let text := skipByteOrderMark text
  let cs := Utf8.chars text
  if Utf8.isValid text && isClean cs then readStatements (cs.length + 1) cs else none

end OnePass.Toml

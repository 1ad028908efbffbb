import OnePass.Diagnostic
import OnePass.Number.Scientific
import OnePass.Text.Blank

/-!
# Scanning tokens

A scanner splits the characters ahead of it into the span of one token and the rest; between tokens stand gaps of blanks and line
comments. `scanToken` reads one token from a place in a text.
-/

namespace OnePass

open Number (isDigit)

namespace Lexer

/-- A letter or underscore: it starts an identifier. -/
def isLetter (c : Char) : Bool := c == '_' || ('a' ≤ c && c ≤ 'z') || ('A' ≤ c && c ≤ 'Z')

/-- A character that goes on with an identifier. -/
def isWordChar (c : Char) : Bool := isLetter c || isDigit c

/-- The words that are no identifiers. -/
def keywords : List (List Char × TokenKind) :=
  [("fn".toList, .fn), ("let".toList, .let), ("const".toList, .const), ("as".toList, .as), ("while".toList, .while),
    ("if".toList, .if), ("else".toList, .else), ("return".toList, .return), ("break".toList, .break),
    ("continue".toList, .continue), ("int".toList, .int), ("double".toList, .double), ("void".toList, .void)]

/-- The kind of a word: a keyword, or else an identifier. -/
def wordKind (word : List Char) : TokenKind := (keywords.lookup word).getD .identifier

/-- What a scanner found: a token, the span it was read from, and the characters after it. -/
structure Match where
  kind : TokenKind
  /-- The text the token stands for. -/
  lexeme : List Char
  span : List Char
  rest : List Char
  int : Int64 := 0
  bits : UInt64 := 0

/-- Skips blanks and line comments. Inside a comment everything up to the end of the line is skipped, the line's end being a
blank of its own. Gives the position and the characters after the gap. -/
def skipGap : Bool → Pos → List Char → Pos × List Char
  | _, pos, [] => (pos, [])
  | true, pos, c :: rest => skipGap (c != '\n') (pos.step c) rest
  | false, pos, c :: rest =>
    if Text.isBlank c then skipGap false (pos.step c) rest
    else if c = '/' ∧ rest.head? = some '/' then skipGap true (pos.step c) rest
    else (pos, c :: rest)

/-- An identifier or a keyword. -/
def scanWord (cs : List Char) : Match :=
  let word := cs.takeWhile isWordChar
  { kind := wordKind word, lexeme := word, span := word, rest := cs.dropWhile isWordChar }

/-- Splits off the sign of an exponent. -/
def splitSign : List Char → List Char × List Char
  | '+' :: rest => (['+'], rest)
  | '-' :: rest => (['-'], rest)
  | cs => ([], cs)

/-- The exponent of a double literal: its mark, sign and digits, or what of it stands there when it has no digits. -/
def splitExponent : List Char → Except (List Char) (List Char × List Char)
  | [] => .ok ([], [])
  | mark :: rest =>
    if mark = 'e' ∨ mark = 'E' then
      if ((splitSign rest).2.takeWhile isDigit).isEmpty then .error (mark :: (splitSign rest).1)
      else .ok (mark :: (splitSign rest).1 ++ (splitSign rest).2.takeWhile isDigit, (splitSign rest).2.dropWhile isDigit)
    else .ok ([], mark :: rest)

/-- An integer literal of these digits. -/
def scanInteger (digits rest : List Char) : Except Fault Match :=
  match Number.readDecimal digits with
  | .error _ => .error (.integerOutOfRange (Bytes.ofChars digits))
  | .ok int => .ok { kind := .uintLit, lexeme := digits, span := digits, rest, int }

/-- A double literal of these digits before its point, at whose fraction `cs` starts. -/
def scanFraction (whole cs : List Char) : Except Fault Match :=
  let mantissa := whole ++ '.' :: cs.takeWhile isDigit
  match splitExponent (cs.dropWhile isDigit) with
  | .error marks => .error (.malformedExponent (Bytes.ofChars (mantissa ++ marks)))
  | .ok (power, rest) =>
    match Double.parse (mantissa ++ power) with
    | .error _ => .error (.invalidDouble (Bytes.ofChars (mantissa ++ power)))
    | .ok bits => .ok { kind := .doubleLit, lexeme := mantissa ++ power, span := mantissa ++ power, rest, bits }

/-- An integer literal, or a double literal if a point and a digit follow the first digits. -/
def scanNumber (cs : List Char) : Except Fault Match :=
  match cs.dropWhile isDigit with
  | '.' :: d :: tail =>
    if isDigit d then scanFraction (cs.takeWhile isDigit) (d :: tail)
    else scanInteger (cs.takeWhile isDigit) ('.' :: d :: tail)
  | rest => scanInteger (cs.takeWhile isDigit) rest

/-- The character an escape letter stands for. -/
def unescape? (c : Char) : Option Char :=
  match c.toNat with
  | 0x6e => some '\n'
  | 0x72 => some '\r'
  | 0x74 => some '\t'
  | 0x5c => some '\x5c'
  | 0x27 => some '\x27'
  | 0x22 => some '\x22'
  | _ => none

/-- The contents of a string literal after its opening quote: the text, the span up to the closing quote, and the rest. -/
def scanText : List Char → Except Fault (List Char × List Char × List Char)
  | [] => .error .unterminatedString
  | '\x22' :: rest => .ok ([], ['\x22'], rest)
  | '\n' :: _ => .error .unterminatedString
  | ['\x5c'] => .error (.unknownEscape '\x00')
  | '\x5c' :: c :: rest =>
    match unescape? c with
    | none => .error (.unknownEscape c)
    | some v => do
      let (text, span, rest) ← scanText rest
      return (v :: text, '\x5c' :: c :: span, rest)
  | c :: rest => do
    let (text, span, rest) ← scanText rest
    return (c :: text, c :: span, rest)

/-- A string literal, its opening quote taken off. -/
def scanString (cs : List Char) : Except Fault Match := do
  let (text, span, rest) ← scanText cs
  return { kind := .stringLit, lexeme := text, span := '\x22' :: span, rest }

/-- The closing quote of a character literal. -/
def scanClosing (c : Char) (span : List Char) : List Char → Except Fault Match
  | '\x27' :: rest => .ok { kind := .charLit, lexeme := [c], span := span ++ ['\x27'], rest }
  | _ => .error .unterminatedCharacter

/-- A character literal, its opening quote taken off. A NUL ends it, as the end of the text does. -/
def scanCharacter : List Char → Except Fault Match
  | [] => .error .unterminatedCharacter
  | '\x27' :: _ => .error .emptyCharacter
  | '\x00' :: _ => .error .unterminatedCharacter
  | '\n' :: _ => .error .unterminatedCharacter
  | ['\x5c'] => .error (.unknownEscape '\x00')
  | '\x5c' :: c :: rest =>
    match unescape? c with
    | none => .error (.unknownEscape c)
    | some v => scanClosing v ['\x27', '\x5c', c] rest
  | c :: rest => scanClosing c ['\x27', c] rest

/-- The kind of a sign of one character. -/
def signKind? (c : Char) : Option TokenKind :=
  match c.toNat with
  | 0x7b => some .lbrace
  | 0x7d => some .rbrace
  | 0x28 => some .lparen
  | 0x29 => some .rparen
  | 0x3b => some .semicolon
  | 0x2c => some .comma
  | 0x3a => some .colon
  | 0x2b => some .plus
  | 0x2d => some .minus
  | 0x2a => some .star
  | 0x2f => some .slash
  | 0x3c => some .less
  | 0x3e => some .greater
  | 0x3d => some .assign
  | _ => none

/-- The kind of a sign of two characters. -/
def pairKind? (c d : Char) : Option TokenKind :=
  match c, d with
  | '-', '>' => some .arrow
  | '!', '=' => some .notEq
  | '<', '=' => some .lessEq
  | '>', '=' => some .greaterEq
  | '=', '=' => some .equals
  | _, _ => none

/-- An operator or a punctuation mark of one character. -/
def scanSingle (c : Char) (rest : List Char) : Except Fault Match :=
  match signKind? c with
  | some kind => .ok { kind, lexeme := [c], span := [c], rest }
  | none => .error (.unexpectedCharacter c)

/-- An operator or a punctuation mark, the longest that stands there. -/
def scanSign (c : Char) : List Char → Except Fault Match
  | [] => scanSingle c []
  | d :: rest =>
    match pairKind? c d with
    | some kind => .ok { kind, lexeme := [c, d], span := [c, d], rest }
    | none => scanSingle c (d :: rest)

/-- The token that starts with a character that is no blank. -/
def scan (c : Char) (rest : List Char) : Except Fault Match :=
  if isLetter c then .ok (scanWord (c :: rest))
  else if isDigit c then scanNumber (c :: rest)
  else if c = '\x22' then scanString rest
  else if c = '\x27' then scanCharacter rest
  else scanSign c rest

/-- The end of a text, as a token. -/
def endToken (pos : Pos) : Token := { kind := .eof, lexeme := [], pos }

/-- The token that a match at a position is. -/
def Match.token (m : Match) (pos : Pos) : Token :=
  { kind := m.kind, lexeme := Bytes.ofChars m.lexeme, pos, int := m.int, bits := m.bits }

/-- A place in a source text: its position, and the characters from there on. -/
structure Cursor where
  pos : Pos
  rest : List Char

/-- The cursor at the start of a source text. -/
def Cursor.ofSource (source : Bytes) : Cursor := ⟨.start, Utf8.chars source⟩

/-- The next token and the place after it; at the end of the text the end token, over and over. -/
def scanToken (cursor : Cursor) : Except Diagnostic (Token × Cursor) :=
  match skipGap false cursor.pos cursor.rest with
  | (pos, []) => .ok (endToken pos, ⟨pos, []⟩)
  | (pos, c :: rest) =>
    match scan c rest with
    | .error fault => .error ⟨pos, fault⟩
    | .ok m => .ok (m.token pos, ⟨pos.after m.span, m.rest⟩)

end Lexer

end OnePass

import OnePass.Text.Quoted

/-!
# Tokens

A token is one lexical unit of a source text: its kind, the text it stands for, where it starts, and the value of a numeral.
-/

namespace OnePass

/-- A position in a source text: line and column, both counted from 1 in characters. -/
structure Pos where
  line : Int
  col : Int
  deriving DecidableEq, Repr, Inhabited

namespace Pos

/-- The position of the first character of a text. -/
def start : Pos := ⟨1, 1⟩

/-- The position after a character. -/
def step (p : Pos) (c : Char) : Pos := if c = '\n' then ⟨p.line + 1, 1⟩ else ⟨p.line, p.col + 1⟩

/-- The position after a run of characters. -/
def after (p : Pos) (cs : List Char) : Pos := cs.foldl step p

/-- The position as `line:col`. -/
def text (p : Pos) : Bytes := Bytes.ofInt p.line ++ 0x3a :: Bytes.ofInt p.col

end Pos

/-- The kinds of tokens. A token list from outside may also hold kinds that no source text produces. -/
inductive TokenKind where
  | eof
  | identifier
  | uintLit
  | doubleLit
  | stringLit
  | charLit
  | fn
  | let
  | const
  | as
  | while
  | if
  | else
  | return
  | break
  | continue
  | int
  | double
  | void
  | lbrace
  | rbrace
  | lparen
  | rparen
  | arrow
  | comma
  | colon
  | semicolon
  | plus
  | minus
  | star
  | slash
  | assign
  | equals
  | notEq
  | less
  | greater
  | lessEq
  | greaterEq
  | foreign (number : Int)
  deriving DecidableEq, Repr, Inhabited

namespace TokenKind

/-- The kinds that source texts produce, in the order of their numbers. -/
def all : List TokenKind :=
  [eof, identifier, uintLit, doubleLit, stringLit, charLit, fn, .let, const, as, .while, .if, .else, .return, .break,
    .continue, int, double, void, lbrace, rbrace, lparen, rparen, arrow, comma, colon, semicolon, plus, minus, star, slash,
    assign, equals, notEq, less, greater, lessEq, greaterEq]

/-- The kind with a number. -/
def ofNumber (n : Int) : TokenKind := if n < 0 then foreign n else (all[n.toNat]?).getD (foreign n)

/-- The name of a kind. -/
def name : TokenKind → Bytes
  | eof => Bytes.ofString "EOF"
  | identifier => Bytes.ofString "IDENTIFIER"
  | uintLit => Bytes.ofString "UINT_LIT"
  | doubleLit => Bytes.ofString "DOUBLE_LIT"
  | stringLit => Bytes.ofString "STRING_LIT"
  | charLit => Bytes.ofString "CHAR_LIT"
  | fn => Bytes.ofString "FN"
  | .let => Bytes.ofString "LET"
  | const => Bytes.ofString "CONST"
  | as => Bytes.ofString "AS"
  | .while => Bytes.ofString "WHILE"
  | .if => Bytes.ofString "IF"
  | .else => Bytes.ofString "ELSE"
  | .return => Bytes.ofString "RETURN"
  | .break => Bytes.ofString "BREAK"
  | .continue => Bytes.ofString "CONTINUE"
  | int => Bytes.ofString "INT"
  | double => Bytes.ofString "DOUBLE"
  | void => Bytes.ofString "VOID"
  | lbrace => Bytes.ofString "LBRACE"
  | rbrace => Bytes.ofString "RBRACE"
  | lparen => Bytes.ofString "LPAREN"
  | rparen => Bytes.ofString "RPAREN"
  | arrow => Bytes.ofString "ARROW"
  | comma => Bytes.ofString "COMMA"
  | colon => Bytes.ofString "COLON"
  | semicolon => Bytes.ofString "SEMICOLON"
  | plus => Bytes.ofString "PLUS"
  | minus => Bytes.ofString "MINUS"
  | star => Bytes.ofString "STAR"
  | slash => Bytes.ofString "SLASH"
  | assign => Bytes.ofString "ASSIGN"
  | equals => Bytes.ofString "EQUALS"
  | notEq => Bytes.ofString "NOT_EQ"
  | less => Bytes.ofString "LESS"
  | greater => Bytes.ofString "GREATER"
  | lessEq => Bytes.ofString "LESS_EQ"
  | greaterEq => Bytes.ofString "GREATER_EQ"
  | foreign n => Bytes.ofString "TokenType(" ++ Bytes.ofInt n ++ Bytes.ofString ")"

/-- The kind with a name. -/
def ofName? (name : Bytes) : Option TokenKind := all.find? (·.name = name)

end TokenKind

/-- A token. The lexeme is the source text, or the decoded contents of a string or character literal. -/
structure Token where
  kind : TokenKind
  lexeme : Bytes
  pos : Pos
  /-- The value of an integer literal. -/
  int : Int64 := 0
  /-- The bits of a double literal's value. -/
  bits : UInt64 := 0
  deriving DecidableEq, Repr, Inhabited

/-- The token as a line of a token listing. -/
def Token.text (t : Token) : Bytes :=
  Utf8.padRight 10 t.kind.name ++ 0x20 :: Utf8.padRight 14 (Text.quote t.lexeme) ++ 0x20 :: 0x20 :: t.pos.text

end OnePass

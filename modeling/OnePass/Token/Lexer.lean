import OnePass.Token.Progress

/-!
# Lexing

Tokens of a source text: `Lexer` hands them out on demand with one token of lookahead, and `lex` reads a whole text.
-/

namespace OnePass

/-- A lexer at work: its place in the text and, once it has been looked at, the token there. -/
structure Lexer where
  cursor : Lexer.Cursor
  ahead : Option (Except Diagnostic Token) := none

namespace Lexer

/-- A lexer at the start of a source text. -/
def ofSource (source : Bytes) : Lexer := { cursor := .ofSource source }

/-- The next token, which stays the next one. -/
def peek (l : Lexer) : Except Diagnostic Token × Lexer :=
  match l.ahead with
  | some seen => (seen, l)
  | none =>
    match scanToken l.cursor with
    | .ok (token, cursor) => (.ok token, ⟨cursor, some (.ok token)⟩)
    | .error d => (.error d, { l with ahead := some (.error d) })

/-- Takes the next token. The end token and a lexical fault are never used up. -/
def next (l : Lexer) : Except Diagnostic Token × Lexer :=
  match l.peek with
  | (.ok token, l) => (.ok token, if token.kind = .eof then l else { l with ahead := none })
  | (.error d, l) => (.error d, l)

end Lexer

namespace Lexer

/-- The tokens from a place on, up to the end token or the first lexical fault. -/
def lexFrom (cursor : Cursor) : List Token × Option Diagnostic :=
  match h : scanToken cursor with
  | .error d => ([], some d)
  | .ok (token, after) =>
    if hk : token.kind = .eof then ([token], none)
    else
      have := scanToken_shorter h hk
      let (tokens, fault) := lexFrom after
      (token :: tokens, fault)
termination_by cursor.rest.length

end Lexer

/-- All tokens of a source text, the end token included; on a lexical fault the tokens before it, and the fault. -/
def lex (source : Bytes) : List Token × Option Diagnostic := Lexer.lexFrom (.ofSource source)

end OnePass

import OnePass.Token.Lexer

/-!
# Token sources

An analysis takes its tokens from a source, one at a time: a lexer at work on a text, or a list of tokens that is replayed. Past
the end both give end tokens for ever.
-/

namespace OnePass

/-- A source of tokens. -/
class TokenSource (σ : Type) where
  /-- The next token, which stays the next one. -/
  peek : σ → Except Diagnostic Token × σ
  /-- Takes the next token. -/
  next : σ → Except Diagnostic Token × σ
  /-- A bound on the number of tokens still to be taken. -/
  remaining : σ → Nat

namespace Lexer

/-- A token that has been looked at and not taken. -/
def held (l : Lexer) : Nat :=
  match l.ahead with
  | some (.ok token) => if token.kind = .eof then 0 else 1
  | _ => 0

instance : TokenSource Lexer where
  peek := Lexer.peek
  next := Lexer.next
  remaining l := l.cursor.rest.length + l.held

end Lexer

/-- A list of tokens that is replayed; past its end stands an end token at the place of the last one. -/
structure Replay where
  rest : List Token
  last : Pos

namespace Replay

/-- Replays a list of tokens from its start. -/
def ofTokens (tokens : List Token) : Replay := ⟨tokens, (tokens.getLast?.map Token.pos).getD ⟨0, 0⟩⟩

/-- The next token, which stays the next one. -/
def peek (r : Replay) : Except Diagnostic Token × Replay := (.ok (r.rest.headD (Lexer.endToken r.last)), r)

/-- Takes the next token. -/
def next (r : Replay) : Except Diagnostic Token × Replay := (r.peek.1, { r with rest := r.rest.tail })

instance : TokenSource Replay where
  peek := Replay.peek
  next := Replay.next
  remaining r := r.rest.length

end Replay

end OnePass

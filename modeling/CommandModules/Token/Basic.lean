/-
  Command modules — tokens and what can go wrong in reading them.

  A token has a kind, the text it was read from and the place of that text.
-/
import CommandModules.Text.Position
import CommandModules.Token.Kind

namespace CommandModules

/-- A token of a source text. -/
structure Token where
  kind : TokenKind
  lexeme : String
  span : Span
deriving DecidableEq, Repr

namespace Token

/-- Is the token the contextual word `word`?  A word escaped by `@` never is. -/
def isContextual (t : Token) (word : String) : Bool :=
  t.kind == .identifier && t.lexeme == word

/-- Do two tokens agree in all but their places? -/
def agrees (t u : Token) : Bool :=
  t.kind == u.kind && t.lexeme == u.lexeme

end Token

/-- Why a stretch of text is no token. -/
inductive LexCause where
  | unexpectedChar (c : Char)
  /-- a string or character literal is not closed -/
  | unterminatedString
  /-- a raw string is not closed -/
  | unterminatedRawString
  /-- a block comment is not closed -/
  | unterminatedComment
deriving DecidableEq, Repr

/-- A stretch of text that is no token. -/
structure LexError where
  cause : LexCause
  span : Span
deriving DecidableEq, Repr

/-- The error as it is shown. -/
def LexError.message (e : LexError) : String :=
  match e.cause with
  | .unexpectedChar c => s!"unexpected character '{c}' at {e.span.text}"
  | .unterminatedString => s!"unterminated string at {e.span.text}"
  | .unterminatedRawString => s!"unterminated raw string at {e.span.text}"
  | .unterminatedComment => s!"unterminated comment at {e.span.text}"

end CommandModules

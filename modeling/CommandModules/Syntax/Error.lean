/-
  Command modules — syntax errors.

  A syntax error has a kind, a place and a message.  Reading goes on after an
  error, so a text may have several.

  * The functions below the type build the errors that a parser reports;
  * `ParseError.shown` draws an error under the line of the source it is about;
  * `ParseError.diagnostic` reports it to the user of the host.
-/
import CommandModules.Diagnostic
import CommandModules.Token.Basic

namespace CommandModules

/-- What is wrong with a text. -/
inductive ParseErrorKind where
  | lexical
  | expectedToken
  | unexpectedToken
  | unexpectedEof
  | expectedExpression
  | expectedType
  | expectedDeclaration
  | expectedMember
  | expectedParameters
  | expectedIdentifier
  | mismatchedDelimiter
  | invalidModifier
deriving DecidableEq, Repr, Inhabited

namespace ParseErrorKind

/-- All kinds. -/
def all : List ParseErrorKind :=
  [lexical, expectedToken, unexpectedToken, unexpectedEof, expectedExpression, expectedType,
    expectedDeclaration, expectedMember, expectedParameters, expectedIdentifier,
    mismatchedDelimiter, invalidModifier]

/-- The kind as it is shown. -/
def text : ParseErrorKind → String
  | lexical => "lexical error"
  | expectedToken => "expected token"
  | unexpectedToken => "unexpected token"
  | unexpectedEof => "unexpected end of file"
  | expectedExpression => "expected expression"
  | expectedType => "expected type"
  | expectedDeclaration => "expected declaration"
  | expectedMember => "expected member"
  | expectedParameters => "expected parameters"
  | expectedIdentifier => "expected identifier"
  | mismatchedDelimiter => "mismatched delimiter"
  | invalidModifier => "invalid modifier"

/-- The stable id of diagnostics of this kind. -/
def diagnosticId : ParseErrorKind → String
  | lexical => "MG1000"
  | expectedToken => "MG1001"
  | unexpectedToken => "MG1002"
  | unexpectedEof => "MG1003"
  | expectedExpression => "MG1004"
  | expectedType => "MG1005"
  | expectedDeclaration => "MG1006"
  | expectedMember => "MG1007"
  | expectedParameters => "MG1008"
  | expectedIdentifier => "MG1009"
  | mismatchedDelimiter => "MG1010"
  | invalidModifier => "MG1011"

end ParseErrorKind

/-- A syntax error. -/
structure ParseError where
  kind : ParseErrorKind
  span : Span
  message : String
deriving DecidableEq, Repr, Inhabited

namespace ParseError

/-! ## The errors of a parser -/

/-- The error for text that is no token. -/
def ofLexError (e : LexError) : ParseError :=
  ⟨.lexical, e.span, e.message⟩

/-- An error of the given kind: something else stands where `what` should. -/
def expected (kind : ParseErrorKind) (span : Span) (what found : String) : ParseError :=
  ⟨kind, span, s!"expected {what}, found {found}"⟩

/-- One token was expected and another one found. -/
def expectedToken (span : Span) (what found : String) : ParseError :=
  expected .expectedToken span what found

/-- An identifier was expected. -/
def expectedIdentifier (span : Span) (found : String) : ParseError :=
  expected .expectedIdentifier span "identifier" found

/-- A type was expected. -/
def expectedType (span : Span) (found : String) : ParseError :=
  expected .expectedType span "type" found

/-- A token stands where it cannot. -/
def unexpectedToken (span : Span) (token : String) : ParseError :=
  ⟨.unexpectedToken, span, s!"unexpected token: {token}"⟩

/-- The text ends too early. -/
def unexpectedEof (span : Span) : ParseError :=
  ⟨.unexpectedEof, span, "unexpected end of file"⟩

/-! ## Showing errors -/

/-- The error on one line. -/
def text (e : ParseError) : String :=
  s!"{e.kind.text} at {e.span.text}: {e.message}"

/-- `count` copies of a character. -/
def copies (c : Char) (count : Nat) : String :=
  String.ofList (List.replicate count c)

/-- A number, right-aligned in three columns. -/
def lineNumber (n : Nat) : String :=
  copies ' ' (3 - (toString n).length) ++ toString n

/-- The marks under the stretch of a line that an error is about. -/
def underline (span : Span) : String :=
  copies ' ' (span.column.toNat - 1) ++ "^" ++ copies '~' (span.length - 1)

/-- The error with the line of the source it is about, if there is one. -/
def shown (e : ParseError) (source : String) : String :=
  let head := s!"Error at {e.span.line}:{e.span.column}: {e.kind.text}\n"
  let message := if e.message.isEmpty then "" else s!"  {e.message}\n"
  let excerpt := match (Text.lines source)[e.span.line.toNat - 1]? with
    | some line =>
      s!"  |\n{lineNumber e.span.line} | {line}\n  | {underline e.span}\n"
    | none => ""
  head ++ message ++ excerpt

/-- The error as a diagnostic about the file at `path`. -/
def diagnostic (e : ParseError) (path : String) : Diagnostic :=
  ⟨e.kind.diagnosticId, .error, e.text, some ⟨path, e.span⟩⟩

/-- Several errors, one on a line. -/
def textOfList (es : List ParseError) : String :=
  "\n".intercalate (es.map text)

end ParseError

end CommandModules

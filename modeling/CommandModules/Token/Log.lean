/-
  Command modules — reading with one log of errors.

  A reader can keep a single log of errors, as it goes: a literal that fails records its error,
  wherever it stands.  One that stands in a hole has recorded it then before the string around
  it fails too; this string takes the error back from the log and records it as its own.

  * `Attempt` and `Noted` say how the body of a literal and how a token end, with the log;
  * `Logged.hole` and `Logged.interpolatedBody` read on with the reader of nested literals,
    `Logged.literal` is the reader of every literal;
  * `Logged.tokenize` reads a whole text.
-/
import CommandModules.Token.Lexer

namespace CommandModules

/-- What is recorded of a literal that fails: why, the text from its head on, and the text that
    is left. -/
structure Failure where
  cause : LexCause
  start : List Char
  rest : List Char
deriving DecidableEq, Repr

/-- How the reading of a body ends: why it fails, if it does, the text behind it, and the log. -/
structure Attempt where
  failure? : Option Failure
  rest : List Char
  log : List Failure
deriving DecidableEq, Repr

/-- How the reading of a token ends: whether it is one, the text behind it, and the log. -/
structure Noted where
  failed : Bool
  rest : List Char
  log : List Failure
deriving DecidableEq, Repr

/-- The failure that a reading comes to, if it does. -/
def Reading.failure? : Reading → Option Failure
  | .closed _ => none
  | .broken cause start rest => some ⟨cause, start, rest⟩

/-- A reading that leaves the log alone. -/
def Reading.attempt (r : Reading) (log : List Failure) : Attempt :=
  ⟨r.failure?, r.rest, log⟩

/-- Record the failure of a body. -/
def Attempt.note (a : Attempt) : Noted :=
  ⟨a.failure?.isSome, a.rest, a.log ++ a.failure?.toList⟩

/-- Take the last error back from the log, and fail with it. -/
def Noted.reraise (whole : List Char) (t : Noted) : Attempt :=
  match t.log.getLast? with
  | some failure => ⟨some failure, t.rest, t.log.dropLast⟩
  | none => ⟨some ⟨.unterminatedString, whole, t.rest⟩, t.rest, t.log⟩

namespace Logged

section
variable (nested : List Failure → List Char → Noted) (whole : List Char)

/-- Read an interpolation hole up to its closing brace. -/
def hole : Nat → Nat → List Failure → List Char → Attempt
  | 0, _, log, cs => (Reading.broken .unterminatedString whole cs).attempt log
  | _ + 1, _, log, [] => (Reading.broken .unterminatedString whole []).attempt log
  | fuel + 1, depth, log, c :: cs =>
    if c = '\x7b' then hole fuel (depth + 1) log cs
    else if c = '\x7d' then
      match depth with
      | 0 => (Reading.closed cs).attempt log
      | depth + 1 => hole fuel depth log cs
    else if opensLiteral c then
      let token := nested log (c :: cs)
      if token.failed then token.reraise whole else hole fuel depth token.log token.rest
    else hole fuel depth log cs

/-- Read an interpolated string up to its closing quote. -/
def interpolatedBody (verbatim : Bool) : Nat → List Failure → List Char → Attempt
  | 0, log, cs => (Reading.broken .unterminatedString whole cs).attempt log
  | _ + 1, log, [] => (Reading.broken .unterminatedString whole []).attempt log
  | fuel + 1, log, c :: cs =>
    if !verbatim && (c == '\n' || c == '\r') then
      (Reading.broken .unterminatedString whole (c :: cs)).attempt log
    else if !verbatim && c == '\\' then interpolatedBody verbatim fuel log (afterEscape cs)
    else if c = '"' then
      match verbatim, cs with
      | true, '"' :: rest => interpolatedBody verbatim fuel log rest
      | _, _ => (Reading.closed cs).attempt log
    else if c = '\x7b' then
      match cs with
      | '\x7b' :: rest => interpolatedBody verbatim fuel log rest
      | _ =>
        let inner := hole nested whole (cs.length + 1) 0 log cs
        match inner.failure? with
        | none => interpolatedBody verbatim fuel inner.log inner.rest
        | some _ => inner
    else interpolatedBody verbatim fuel log cs

end

/-- Read what begins with `@`. -/
def atLiteral (nested : List Failure → List Char → Noted) (log : List Failure)
    (whole : List Char) : Attempt :=
  match whole.drop 1 with
  | '"' :: cs => (verbatimBody whole cs).attempt log
  | '$' :: '"' :: cs => interpolatedBody nested whole true (cs.length + 1) log cs
  | c :: cs =>
    if isIdentStart c then (Reading.closed ((c :: cs).dropWhile isIdentContinue)).attempt log
    else (Reading.broken (.unexpectedChar '@') whole (c :: cs)).attempt log
  | [] => (Reading.broken (.unexpectedChar '@') whole []).attempt log

/-- Read what begins with `$`. -/
def dollarLiteral (nested : List Failure → List Char → Noted) (log : List Failure)
    (whole : List Char) : Attempt :=
  match whole.dropWhile (· == '$') with
  | '"' :: '"' :: '"' :: cs =>
    let quotes := 3 + (cs.takeWhile (· == '"')).length
    (rawBody whole quotes 0 (cs.dropWhile (· == '"'))).attempt log
  | '"' :: cs => interpolatedBody nested whole false (cs.length + 1) log cs
  | '@' :: '"' :: cs => interpolatedBody nested whole true (cs.length + 1) log cs
  | cs => (Reading.broken (.unexpectedChar '$') whole cs).attempt log

/-- Read the literal that the text begins with, and record its error if it fails. -/
def literal : Nat → List Failure → List Char → Noted
  | 0, log, whole => ((Reading.broken .unterminatedString whole whole).attempt log).note
  | depth + 1, log, whole =>
    match whole with
    | '\'' :: cs => ((regularBody whole '\'' cs).attempt log).note
    | '@' :: _ => (atLiteral (literal depth) log whole).note
    | '$' :: _ => (dollarLiteral (literal depth) log whole).note
    | _ => ((quotedString whole).attempt log).note

/-- The kind of the token that the text `c :: cs` begins with if it is one, and how its reading
    ends. -/
def scan (log : List Failure) (c : Char) (cs : List Char) : TokenKind × Noted :=
  if opensLiteral c then (literalKind (c :: cs), literal (cs.length + 1) log (c :: cs))
  else
    let (kind, reading) := CommandModules.scan c cs
    (kind, (reading.attempt log).note)

/-- A token, the place behind it, and the log. -/
structure Step where
  token : Token
  cursor : Cursor
  log : List Failure

/-- The next token. -/
def next (c : Cursor) (log : List Failure) : Step :=
  let gap := skipGap c.rest
  let start := c.skipTo gap.rest
  match gap.rest with
  | [] =>
    let open? : Option Failure := gap.openComment?.map fun comment =>
      ⟨.unterminatedComment, comment, []⟩
    ⟨start.tokenTo .eof [], start, log ++ open?.toList⟩
  | ch :: cs =>
    let (kind, end_) := scan log ch cs
    ⟨start.tokenTo (if end_.failed then .error else kind) end_.rest, start.skipTo end_.rest,
      end_.log⟩

/-- The next `fuel` tokens, or all up to the end of the text, and the `eof`, with the log. -/
def tokens : Nat → Cursor → List Failure → List Token × Token × List Failure
  | 0, c, log => ([], c.tokenTo .eof c.rest, log)
  | fuel + 1, c, log =>
    let step := next c log
    if step.token.kind = .eof then ([], step.token, step.log)
    else
      let (body, eof, log) := tokens fuel step.cursor step.log
      (step.token :: body, eof, log)

/-- The tokens of a text, and the errors that the log holds in the end. -/
def tokenize (source : String) : Lexed :=
  let start := Cursor.ofText source
  let (body, eof, log) := tokens (start.rest.length + 1) start []
  ⟨body, eof, log.map fun f => start.errorAt f.cause f.start f.rest⟩

end Logged

end CommandModules

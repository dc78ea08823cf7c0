/-
  Command modules — reading string and character literals.

  A literal is read from the text that begins with it.  There are regular,
  verbatim and raw strings, character literals, and interpolated strings whose
  holes hold any text, nested literals included.

  * `Reading` says how a literal ends: closed, with the text behind it, or
    broken, with the cause, the text from the failing literal on (the literal
    itself or one nested in it) and the text that is left;
  * `regularBody`, `verbatimBody`, `rawBody`, `interpolatedBody` and `hole` read
    on from behind the opening quote; only the last two can meet a nested
    literal, and they take its reader as an argument;
  * `literal` is the reader of every form, with a bound on the nesting depth.
    Each nested literal is shorter than the one around it, so the length of the
    text is bound enough.

  Positions play no part here: what is read depends on the text alone.
-/
import CommandModules.Text.Letter
import CommandModules.Token.Basic

namespace CommandModules

/-- Can an identifier begin with the character? -/
def isIdentStart (c : Char) : Bool :=
  c == '_' || Text.isLetter c

/-- Can an identifier go on with the character? -/
def isIdentContinue (c : Char) : Bool :=
  c == '_' || Text.isWordChar c

/-- How the reading of a literal ends. -/
inductive Reading where
  /-- the literal is complete and `rest` follows it -/
  | closed (rest : List Char)
  /-- the literal that begins at `start` fails, and `rest` is left -/
  | broken (cause : LexCause) (start rest : List Char)
deriving DecidableEq, Repr

/-- The text behind what was read. -/
def Reading.rest : Reading → List Char
  | .closed rest | .broken _ _ rest => rest

/-- The text behind a backslash and the character it escapes.  A line feed is
    not escaped, nor is the end of the text. -/
def afterEscape : List Char → List Char
  | [] => []
  | c :: cs => if c = '\n' then c :: cs else cs

/-- Read a regular string or a character literal up to its closing `quote`;
    `whole` is the text from its opening quote on. -/
def regularBody (whole : List Char) (quote : Char) : List Char → Reading
  | [] => .broken .unterminatedString whole []
  | '\n' :: cs => .broken .unterminatedString whole ('\n' :: cs)
  | '\r' :: cs => .broken .unterminatedString whole ('\r' :: cs)
  | ['\\'] => .broken .unterminatedString whole []
  | '\\' :: c :: cs =>
    if c = '\n' then .broken .unterminatedString whole (c :: cs) else regularBody whole quote cs
  | c :: cs => if c = quote then .closed cs else regularBody whole quote cs

/-- Read a verbatim string, in which a doubled quote stands for a quote. -/
def verbatimBody (whole : List Char) : List Char → Reading
  | [] => .broken .unterminatedString whole []
  | '"' :: '"' :: cs => verbatimBody whole cs
  | '"' :: cs => .closed cs
  | _ :: cs => verbatimBody whole cs

/-- Read a raw string, which ends with the first run of at least `quotes`
    quotes; `run` counts the quotes that were just read. -/
def rawBody (whole : List Char) (quotes : Nat) (run : Nat) : List Char → Reading
  | [] => if quotes ≤ run then .closed [] else .broken .unterminatedRawString whole []
  | c :: cs =>
    if c = '"' then rawBody whole quotes (run + 1) cs
    else if quotes ≤ run then .closed (c :: cs)
    else rawBody whole quotes 0 cs

/-- Can a nested literal or an escaped identifier begin with the character? -/
def opensLiteral (c : Char) : Bool :=
  c == '"' || c == '\'' || c == '@' || c == '$'

section
variable (nested : List Char → Reading) (whole : List Char)

/-- Read an interpolation hole with `depth` inner braces open up to its closing
    brace.  Nested literals are skipped whole; one that fails makes the string
    around it fail in the same way. -/
def hole : Nat → Nat → List Char → Reading
  | 0, _, cs => .broken .unterminatedString whole cs
  | _ + 1, _, [] => .broken .unterminatedString whole []
  | fuel + 1, depth, c :: cs =>
    if c = '\x7b' then hole fuel (depth + 1) cs
    else if c = '\x7d' then
      match depth with
      | 0 => .closed cs
      | depth + 1 => hole fuel depth cs
    else if opensLiteral c then
      match nested (c :: cs) with
      | .closed rest => hole fuel depth rest
      | broken => broken
    else hole fuel depth cs

/-- Read an interpolated string up to its closing quote.  In a `verbatim` one
    quotes are doubled and lines may end; in the other, characters are escaped
    by a backslash. -/
def interpolatedBody (verbatim : Bool) : Nat → List Char → Reading
  | 0, cs => .broken .unterminatedString whole cs
  | _ + 1, [] => .broken .unterminatedString whole []
  | fuel + 1, c :: cs =>
    if !verbatim && (c == '\n' || c == '\r') then .broken .unterminatedString whole (c :: cs)
    else if !verbatim && c == '\\' then interpolatedBody verbatim fuel (afterEscape cs)
    else if c = '"' then
      match verbatim, cs with
      | true, '"' :: rest => interpolatedBody verbatim fuel rest
      | _, _ => .closed cs
    else if c = '\x7b' then
      match cs with
      | '\x7b' :: rest => interpolatedBody verbatim fuel rest
      | _ =>
        match hole nested whole (cs.length + 1) 0 cs with
        | .closed rest => interpolatedBody verbatim fuel rest
        | broken => broken
    else interpolatedBody verbatim fuel cs

end

/-- Read a string that begins with a quote: raw if it begins with three or
    more, else regular. -/
def quotedString (whole : List Char) : Reading :=
  let quotes := (whole.takeWhile (· == '"')).length
  if 3 ≤ quotes then rawBody whole quotes 0 (whole.drop quotes)
  else regularBody whole '"' (whole.drop 1)

/-- Read what begins with `@`: a verbatim string, interpolated or not, or an
    escaped identifier. -/
def atLiteral (nested : List Char → Reading) (whole : List Char) : Reading :=
  match whole.drop 1 with
  | '"' :: cs => verbatimBody whole cs
  | '$' :: '"' :: cs => interpolatedBody nested whole true (cs.length + 1) cs
  | c :: cs =>
    if isIdentStart c then .closed ((c :: cs).dropWhile isIdentContinue)
    else .broken (.unexpectedChar '@') whole (c :: cs)
  | [] => .broken (.unexpectedChar '@') whole []

/-- Read what begins with `$`: an interpolated string, or a raw one with any
    number of `$` before it. -/
def dollarLiteral (nested : List Char → Reading) (whole : List Char) : Reading :=
  match whole.dropWhile (· == '$') with
  | '"' :: '"' :: '"' :: cs =>
    let quotes := 3 + (cs.takeWhile (· == '"')).length
    rawBody whole quotes 0 (cs.dropWhile (· == '"'))
  | '"' :: cs => interpolatedBody nested whole false (cs.length + 1) cs
  | '@' :: '"' :: cs => interpolatedBody nested whole true (cs.length + 1) cs
  | cs => .broken (.unexpectedChar '$') whole cs

/-- Read the literal, or the identifier escaped by `@`, that the text begins
    with.  Literals are nested less than `depth` levels deep. -/
def literal : Nat → List Char → Reading
  | 0, whole => .broken .unterminatedString whole whole
  | depth + 1, whole =>
    match whole with
    | '\'' :: cs => regularBody whole '\'' cs
    | '@' :: _ => atLiteral (literal depth) whole
    | '$' :: _ => dollarLiteral (literal depth) whole
    | _ => quotedString whole

/-- The kind of a complete literal, which shows in its first two characters. -/
def literalKind : List Char → TokenKind
  | '\'' :: _ => .charLiteral
  | '@' :: c :: _ => if isIdentStart c then .identifier else .stringLiteral
  | _ => .stringLiteral

end CommandModules

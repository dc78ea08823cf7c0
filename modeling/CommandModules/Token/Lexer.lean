/-
  Command modules — reading a text into tokens.

  Blank characters, comments, lines that begin with `#` and a byte order mark
  at the head of a gap separate tokens and are none.

  * `gapEnd` skips what lies between two tokens, `scan` reads the token that a
    text begins with; both see the text only;
  * `Cursor` adds the place in the text, `Cursor.next` is the next token;
  * `tokenize` reads a whole text.  Its tokens end with one `eof`, and its errors
    stand in the order in which they were met.
-/
import CommandModules.Text.Blank
import CommandModules.Token.Literal

namespace CommandModules

/-! ## Between tokens -/

/-- What the text between two tokens is part of. -/
inductive GapMode where
  | between
  /-- a line comment, or a line that begins with `#` -/
  | line
  /-- the block comment that begins at `start` -/
  | block (start : List Char)

/-- What follows a gap, and the block comment left open in it, if any. -/
structure GapEnd where
  rest : List Char
  openComment? : Option (List Char)

/-- Skip to the next token. -/
def gapEnd : GapMode → List Char → GapEnd
  | .between, [] => ⟨[], none⟩
  | .between, '#' :: cs => gapEnd .line cs
  | .between, '/' :: '/' :: cs => gapEnd .line cs
  | .between, '/' :: '*' :: cs => gapEnd (.block ('/' :: '*' :: cs)) cs
  | .between, c :: cs => if Text.isBlank c then gapEnd .between cs else ⟨c :: cs, none⟩
  | .line, [] => ⟨[], none⟩
  | .line, c :: cs => if c = '\n' then gapEnd .between cs else gapEnd .line cs
  | .block start, [] => ⟨[], some start⟩
  | .block _, '*' :: '/' :: cs => gapEnd .between cs
  | .block start, _ :: cs => gapEnd (.block start) cs

/-- Skip to the next token; a byte order mark may come first. -/
def skipGap : List Char → GapEnd
  | '\uFEFF' :: cs => gapEnd .between cs
  | cs => gapEnd .between cs

/-! ## Numbers -/

/-- May the character stand among decimal digits? -/
def isDigitOrBar (c : Char) : Bool :=
  c.isDigit || c == '_'

/-- May the character stand among hexadecimal digits? -/
def isHexDigitOrBar (c : Char) : Bool :=
  c.isDigit || ('a' ≤ c && c ≤ 'f') || ('A' ≤ c && c ≤ 'F') || c == '_'

/-- Is the character part of an integer suffix? -/
def isIntegerSuffix (c : Char) : Bool :=
  c == 'u' || c == 'U' || c == 'l' || c == 'L'

/-- Skip an integer suffix, of at most two letters. -/
def afterIntegerSuffix : List Char → List Char
  | c :: d :: cs =>
    if isIntegerSuffix c then if isIntegerSuffix d then cs else d :: cs else c :: d :: cs
  | [c] => if isIntegerSuffix c then [] else [c]
  | [] => []

/-- What follows a decimal point and its digits, if the text begins so. -/
def afterFraction? : List Char → Option (List Char)
  | '.' :: d :: cs => if d.isDigit then some ((d :: cs).dropWhile isDigitOrBar) else none
  | _ => none

/-- The text without a sign at its head. -/
def afterSign : List Char → List Char
  | c :: cs => if c == '+' || c == '-' then cs else c :: cs
  | [] => []

/-- What follows an exponent, if the text begins with one. -/
def afterExponent? : List Char → Option (List Char)
  | c :: cs =>
    if c == 'e' || c == 'E' then
      match afterSign cs with
      | d :: ds => if d.isDigit then some (ds.dropWhile isDigitOrBar) else none
      | [] => none
    else none
  | [] => none

/-- Is the character the suffix of a real literal? -/
def isRealSuffix (c : Char) : Bool :=
  c == 'f' || c == 'F' || c == 'd' || c == 'D' || c == 'm' || c == 'M'

/-- Does the text begin with `0x` or `0b`, in either case? -/
def hasRadix : List Char → Bool
  | '0' :: c :: _ => c == 'x' || c == 'X' || c == 'b' || c == 'B'
  | _ => false

/-- Read the suffix of a number behind its digits; a number with a fraction or
    an exponent is real without one. -/
def numberSuffix (isReal : Bool) : List Char → TokenKind × List Char
  | [] => (if isReal then .realLiteral else .integerLiteral, [])
  | c :: cs =>
    if isRealSuffix c then (.realLiteral, cs)
    else if isReal then (.realLiteral, c :: cs)
    else (.integerLiteral, afterIntegerSuffix (c :: cs))

/-- Read the number the text begins with. -/
def number (cs : List Char) : TokenKind × List Char :=
  if hasRadix cs then
    (.integerLiteral, afterIntegerSuffix ((cs.drop 2).dropWhile isHexDigitOrBar))
  else
    let whole := cs.dropWhile isDigitOrBar
    let fraction? := afterFraction? whole
    let mantissa := fraction?.getD whole
    let exponent? := afterExponent? mantissa
    numberSuffix (fraction?.isSome || exponent?.isSome) (exponent?.getD mantissa)

/-! ## Tokens -/

/-- The punctuation mark the text begins with, and what follows it. -/
def punctuation? : List Char → Option (Punct × List Char)
  | '(' :: cs => some (.leftParen, cs)
  | ')' :: cs => some (.rightParen, cs)
  | '[' :: cs => some (.leftBracket, cs)
  | ']' :: cs => some (.rightBracket, cs)
  | '\x7b' :: cs => some (.leftBrace, cs)
  | '\x7d' :: cs => some (.rightBrace, cs)
  | ';' :: cs => some (.semicolon, cs)
  | ',' :: cs => some (.comma, cs)
  | '.' :: cs => some (.dot, cs)
  | ':' :: ':' :: cs => some (.colonColon, cs)
  | ':' :: cs => some (.colon, cs)
  | '?' :: cs => some (.question, cs)
  | '=' :: '>' :: cs => some (.arrow, cs)
  | '=' :: cs => some (.equal, cs)
  | '<' :: cs => some (.less, cs)
  | '>' :: cs => some (.greater, cs)
  | '+' :: cs => some (.plus, cs)
  | '-' :: cs => some (.minus, cs)
  | '*' :: cs => some (.star, cs)
  | '/' :: cs => some (.slash, cs)
  | '%' :: cs => some (.percent, cs)
  | '&' :: cs => some (.amp, cs)
  | '|' :: cs => some (.pipe, cs)
  | '^' :: cs => some (.caret, cs)
  | '!' :: cs => some (.bang, cs)
  | '~' :: cs => some (.tilde, cs)
  | _ => none

/-- The kind of an identifier or reserved word with this text. -/
def wordKind (word : String) : TokenKind :=
  match Keyword.ofText? word with
  | some k => .keyword k
  | none => .identifier

/-- Does a number begin here? -/
def startsNumber : List Char → Bool
  | '.' :: d :: _ => d.isDigit
  | c :: _ => c.isDigit
  | [] => false

/-- The kind of the token that the text `c :: cs` begins with, and how its
    reading ends. -/
def scan (c : Char) (cs : List Char) : TokenKind × Reading :=
  if opensLiteral c then
    (literalKind (c :: cs), literal (cs.length + 1) (c :: cs))
  else if startsNumber (c :: cs) then
    let (kind, rest) := number (c :: cs)
    (kind, .closed rest)
  else if isIdentStart c then
    (wordKind (String.ofList ((c :: cs).takeWhile isIdentContinue)),
      .closed ((c :: cs).dropWhile isIdentContinue))
  else match punctuation? (c :: cs) with
    | some (mark, rest) => (.punct mark, .closed rest)
    | none => (.error, .broken (.unexpectedChar c) (c :: cs) cs)

/-! ## Places -/

/-- A place in a text: what is left of it from there, and where that is. -/
structure Cursor where
  rest : List Char
  position : Position
deriving DecidableEq, Repr

namespace Cursor

/-- The head of a text. -/
def ofText (source : String) : Cursor :=
  ⟨source.toList, .start⟩

/-- The characters up to the later place where `rest` is left. -/
def upTo (c : Cursor) (rest : List Char) : List Char :=
  c.rest.take (c.rest.length - rest.length)

/-- The later place where `rest` is left. -/
def skipTo (c : Cursor) (rest : List Char) : Cursor :=
  ⟨rest, c.position.after (c.upTo rest)⟩

/-- The stretch up to the later place where `rest` is left. -/
def spanTo (c : Cursor) (rest : List Char) : Span :=
  .between c.position (c.skipTo rest).position

/-- The token that reaches up to `rest`. -/
def tokenTo (c : Cursor) (kind : TokenKind) (rest : List Char) : Token :=
  ⟨kind, String.ofList (c.upTo rest), c.spanTo rest⟩

/-- The error of the literal that begins at `start` and fails at `rest`. -/
def errorAt (c : Cursor) (cause : LexCause) (start rest : List Char) : LexError :=
  ⟨cause, (c.skipTo start).spanTo rest⟩

/-- A token, the errors met on the way through it, and the place behind it. -/
structure Step where
  token : Token
  errors : List LexError
  cursor : Cursor

/-- The next token.  At the end of the text it is `eof`, as often as one asks. -/
def next (c : Cursor) : Step :=
  let gap := skipGap c.rest
  let start := c.skipTo gap.rest
  match gap.rest with
  | [] =>
    let open? := gap.openComment?.map fun comment => c.errorAt .unterminatedComment comment []
    ⟨start.tokenTo .eof [], open?.toList, start⟩
  | ch :: cs =>
    match scan ch cs with
    | (kind, .closed rest) => ⟨start.tokenTo kind rest, [], start.skipTo rest⟩
    | (_, .broken cause from_ rest) =>
      ⟨start.tokenTo .error rest, [start.errorAt cause from_ rest], start.skipTo rest⟩

/-- The steps of asking for the next token `n` times. -/
def pull : Nat → Cursor → List Step
  | 0, _ => []
  | n + 1, c => c.next :: pull n c.next.cursor

end Cursor

/-! ## Whole texts -/

/-- The tokens of a text up to the `eof` that ends them, and the errors. -/
structure Lexed where
  body : List Token
  eof : Token
  errors : List LexError

/-- All tokens, the `eof` included. -/
def Lexed.tokens (l : Lexed) : List Token :=
  l.body ++ [l.eof]

/-- The next `fuel` tokens, or all up to the end of the text. -/
def Cursor.tokens : Nat → Cursor → Lexed
  | 0, c => ⟨[], c.tokenTo .eof c.rest, []⟩
  | fuel + 1, c =>
    let step := c.next
    if step.token.kind = .eof then ⟨[], step.token, step.errors⟩
    else
      let later := tokens fuel step.cursor
      ⟨step.token :: later.body, later.eof, step.errors ++ later.errors⟩

/-- The tokens of a text.  Each takes at least one character, so the length of
    the text bounds their number. -/
def tokenize (source : String) : Lexed :=
  let start := Cursor.ofText source
  start.tokens (start.rest.length + 1)

end CommandModules

/-
  Command modules — moving through the tokens of a text.

  A parser walks through a list of tokens that ends in an `eof` it never passes.
  It fails with an error, or hands back a value; either way it leaves the state
  it has reached, in which the errors recorded on the way stand.  A `Reader` is a
  parser that cannot fail.

  * `ParserState` keeps the tokens on both sides of the current place, so that
    going on moves one token over and going back is putting an old place back;
  * an operation that is not defined everywhere leaves a `Fault` in the state
    where it is not: cutting a text out, going several tokens ahead, a round of a
    loop that consumes nothing;
  * `expect`, `eat` and their like consume single tokens;
  * `ParserState.skipGroup` consumes a token, or a whole group if the token opens
    one; `synchronize` uses it to find the end of a declaration;
  * `loop` is the loop of which all others are made.  Its rounds are bounded by
    the tokens that are left, for each of them consumes one.
-/
import CommandModules.Syntax.Group
import CommandModules.Syntax.Type
import CommandModules.Token.Lexer

namespace CommandModules

/-! ## The state of a parser -/

/-- An operation that was used where it is not defined. -/
inductive Fault where
  /-- a loop or a recursion went on without consuming a token -/
  | stalled
  /-- a text was to be cut out that does not lie between two characters of the
      source -/
  | outOfText (start stop : Nat)
  /-- the parser was to go on behind the last token -/
  | outOfTokens
deriving DecidableEq, Repr

/-- A place among the tokens of a text, the errors recorded so far, and the
    operations that were not defined. -/
structure ParserState where
  source : List Char
  /-- the consumed tokens, latest first -/
  before : List Token
  /-- the tokens to come, up to the `eof` -/
  after : List Token
  eof : Token
  errors : List ParseError
  faults : List Fault

namespace ParserState

/-- The head of a text.  Text that is no token is left out. -/
def ofText (source : String) : ParserState :=
  let lexed := tokenize source
  { source := source.toList
    before := []
    after := lexed.body.filter fun t => t.kind != .error
    eof := lexed.eof
    errors := []
    faults := [] }

/-- The current token; behind the others it is the `eof`. -/
def peek (s : ParserState) : Token :=
  s.after.head?.getD s.eof

/-- The token `n` places ahead, or the `eof`. -/
def peekAt (s : ParserState) (n : Nat) : Token :=
  s.after[n]?.getD s.eof

/-- Is the current token of this kind? -/
def isAt (s : ParserState) (kind : TokenKind) : Bool :=
  s.peek.kind == kind

/-- Is the current token this mark? -/
def isAtMark (s : ParserState) (mark : Punct) : Bool :=
  s.isAt (.punct mark)

/-- Are all tokens consumed? -/
def isAtEof (s : ParserState) : Bool :=
  s.isAt .eof

/-- The state behind the current token. -/
def advance (s : ParserState) : ParserState :=
  match s.after with
  | [] => s
  | t :: ts => { s with before := t :: s.before, after := ts }

/-- The state `n` tokens ahead, at most behind the last one. -/
def advanceBy : Nat → ParserState → ParserState
  | 0, s => s
  | n + 1, s => advanceBy n s.advance

/-- The number of tokens consumed. -/
def place (s : ParserState) : Nat :=
  s.before.length

/-- The state with another place, among the same tokens. -/
def returnTo (s old : ParserState) : ParserState :=
  { s with before := old.before, after := old.after }

/-- The state with one more error. -/
def report (s : ParserState) (e : ParseError) : ParserState :=
  { s with errors := s.errors ++ [e] }

/-- The state with one more fault. -/
def fault (s : ParserState) (f : Fault) : ParserState :=
  { s with faults := s.faults ++ [f] }

/-- The stretch of the token consumed last. -/
def previousSpan (s : ParserState) : Span :=
  match s.before with
  | t :: _ => t.span
  | [] => s.peek.span

/-- The stretch from `start` through the token consumed last. -/
def spanFrom (s : ParserState) (start : Span) : Span :=
  match s.before with
  | t :: _ => start.merge t.span
  | [] => start

/-- The tokens consumed since there were `place` of them, in order. -/
def takenSince (s : ParserState) (place : Nat) : List Token :=
  (s.before.take (s.place - place)).reverse

/-- The state behind the current token, or behind the group that it opens. -/
def skipGroup (s : ParserState) : ParserState :=
  let group := Group.take s.eof [] s.after
  { s with
    before := group.taken.reverse ++ s.before
    after := group.rest
    errors := s.errors ++ group.errors }

end ParserState

/-! ## Parsers -/

/-- A reader that cannot fail. -/
abbrev Reader (α : Type) := StateM ParserState α

/-- A parser: it fails with an error or hands back a value, and leaves a state
    in both cases. -/
abbrev Parser (α : Type) := ExceptT ParseError (StateM ParserState) α

namespace Parser

variable {α : Type}

/-! ## Faults -/

/-- Note a fault and go on. -/
def fault (f : Fault) : Reader Unit :=
  modify fun s => s.fault f

/-- What is left of a loop or a recursion that does not come to an end. -/
def stall [Inhabited α] : Reader α := do
  fault .stalled
  return default

/-- The source text between two offsets. -/
def textBetween (start stop : Nat) : Reader String := do
  match Text.between? start stop (← get).source with
  | some cs => return String.ofList cs
  | none =>
    fault (.outOfText start stop)
    return ""

/-- The source text from `start` through the token consumed last. -/
def textFrom (start : Span) : Reader String := do
  textBetween start.offset (max (← get).previousSpan.stop start.offset)

/-- Consume `n` tokens. -/
def advanceBy (n : Nat) : Reader Unit := do
  if n ≤ (← get).after.length then modify (ParserState.advanceBy n) else fault .outOfTokens

/-! ## Single tokens -/

/-- Consume the current token. -/
def advance : Reader Token := do
  let s ← get
  set s.advance
  return s.peek

/-- Record an error and go on. -/
def report (e : ParseError) : Reader Unit :=
  modify fun s => s.report e

/-- Consume the current token if it is of this kind. -/
def eat (kind : TokenKind) : Reader Bool := do
  if (← get).isAt kind then
    discard advance
    return true
  else return false

/-- Consume the current token if it is this mark. -/
def eatMark (mark : Punct) : Reader Bool :=
  eat (.punct mark)

/-- Consume the current token if it is this reserved word. -/
def eatWord (word : Keyword) : Reader Bool :=
  eat (.keyword word)

/-- The error for a token that cannot stand where `what` is expected. -/
def unexpected (kind : ParseErrorKind) (what : String) (found : Token) : ParseError :=
  if found.kind = .eof then .unexpectedEof found.span
  else .expected kind found.span what found.kind.description

/-- Fail at the current token, where `what` is expected. -/
def failAt (kind : ParseErrorKind) (what : String) : Parser α := do
  throw (unexpected kind what (← get).peek)

/-- Consume a token of this kind or fail. -/
def expect (kind : TokenKind) : Parser Token := do
  if (← get).isAt kind then advance else failAt .expectedToken kind.description

/-- Consume this mark or fail. -/
def expectMark (mark : Punct) : Parser Token :=
  expect (.punct mark)

/-- What `p` reads; if it fails, its error is recorded. -/
def orReport (p : Parser α) : Reader (Option α) := do
  match ← p.run with
  | .ok a => return some a
  | .error e =>
    report e
    return none

/-- Consume this closing mark, or record that it is missing. -/
def expectClosing (mark : Punct) : Reader Unit :=
  discard (orReport (expectMark mark))

/-- An identifier. -/
def ident : Parser Ident := do
  if (← get).isAt .identifier then
    let t ← advance
    return ⟨t.lexeme, t.span⟩
  else failAt .expectedIdentifier "identifier"

/-- The current token as a word, reserved or not. -/
def word : Reader Ident := do
  let t ← advance
  return ⟨t.lexeme, t.span⟩

/-- Consume the current token, or the group that it opens. -/
def skipGroup : Reader Unit :=
  modify ParserState.skipGroup

/-! ## Loops -/

/-- A bound on the rounds of a loop that consumes a token in each. -/
def rounds : Reader Nat :=
  return (← get).after.length + 1

end Parser

/-- How a round of a loop ends. -/
inductive Round (σ α : Type) where
  /-- the loop goes on from `x` -/
  | next (x : σ)
  | done (a : α)

namespace Parser

variable {σ α : Type}

/-- At most `fuel` rounds of a loop.  A round that another one follows has to
    consume a token. -/
def loopWithin [Inhabited α] (round : σ → Reader (Round σ α)) : Nat → σ → Reader α
  | 0, _ => stall
  | fuel + 1, x => do
    let s ← get
    match ← round x with
    | .done a => return a
    | .next y =>
      if (← get).after.length < s.after.length then loopWithin round fuel y else stall

/-- A loop that begins with `x`. -/
def loop [Inhabited α] (round : σ → Reader (Round σ α)) (x : σ) : Reader α := do
  loopWithin round (← rounds) x

/-- A round of a loop that ends when it fails. -/
def tryRound (round : σ → Parser (Round σ α)) (x : σ) :
    Reader (Round σ (Except ParseError α)) := do
  match ← (round x).run with
  | .ok (.next y) => return .next y
  | .ok (.done a) => return .done (.ok a)
  | .error e => return .done (.error e)

/-- A loop whose rounds can fail. -/
def loopOrFail (round : σ → Parser (Round σ α)) (x : σ) : Parser α :=
  ExceptT.mk (loop (tryRound round) x)

/-- One more item of a list with commas. -/
def itemAndComma (item : Parser α) (as : List α) : Parser (Round (List α) (List α)) := do
  let a ← item
  if ← eatMark .comma then return .next (as ++ [a]) else return .done (as ++ [a])

/-- One or more items with commas between them. -/
def commaSeparated (item : Parser α) : Parser (List α) :=
  loopOrFail (itemAndComma item) []

/-- One more item if the condition holds. -/
def itemAt (condition : ParserState → Bool) (item : Parser α) (as : List α) :
    Parser (Round (List α) (List α)) := do
  if condition (← get) then return .next (as ++ [← item]) else return .done as

/-- Items as long as the condition holds before each. -/
def whileAt (condition : ParserState → Bool) (item : Parser α) : Parser (List α) :=
  loopOrFail (itemAt condition item) []

/-- Consume a token if none was consumed since there were `place` of them, unless
    a closing brace stands here. -/
def moveOn (place : Nat) : Reader Unit := do
  let s ← get
  if s.place = place && !s.isAtMark .rightBrace then discard advance

/-! ## Recovery -/

/-- One step to the end of a declaration. -/
def synchronizeStep : Reader (Round Unit Unit) := do
  let s ← get
  if s.isAtEof || s.isAtMark .rightBrace then return .done ()
  else if s.isAtMark .semicolon then
    discard advance
    return .done ()
  else if s.isAtMark .leftBrace then
    skipGroup
    discard (eatMark .semicolon)
    return .done ()
  else
    skipGroup
    return .next ()

/-- The end of the declaration: behind a semicolon or a block in braces, or
    before a closing brace that ends the body around it. -/
def synchronize : Reader Unit :=
  loop (fun _ => synchronizeStep) ()

/-- What `p` reads; if it fails, its error is recorded and the rest of the
    declaration skipped. -/
def orRecover (p : Parser α) : Reader (Option α) := do
  match ← p.run with
  | .ok a => return some a
  | .error e =>
    report e
    synchronize
    return none

end Parser

end CommandModules

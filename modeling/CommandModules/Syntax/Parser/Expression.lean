/-
  Command modules — reading expressions.

  Expressions are not taken apart.  An expression is the longest run of tokens
  and groups before a terminator, kept as its text.

  * `expressionStep` goes through the run; generic argument lists are passed over
    whole, so that their commas do not end the expression;
  * `malformed?` finds a token that no expression can have where it stands: a
    leading or trailing operator, or the second of two operands side by side.
-/
import CommandModules.Syntax.Parser.Type

namespace CommandModules.Parser

/-! ## Finding the end -/

/-- Does a token of this kind end every expression? -/
def endsExpression : TokenKind → Bool
  | .eof => true
  | .punct p => p == .semicolon || p.isCloser
  | _ => false

/-- Can a token of this kind follow a generic argument list in an expression?
    `a < b, c > d` is two comparisons. -/
def followsTypeArguments : TokenKind → Bool
  | .eof => true
  | .punct p =>
    match p with
    | .leftParen | .rightParen | .rightBracket | .rightBrace | .colon | .semicolon | .comma
    | .dot | .question => true
    | _ => false
  | _ => false

/-- Was the token before this place an identifier of the expression that begins
    at `start`? -/
def followsName (s : ParserState) (start : Nat) : Bool :=
  start < s.place && (s.before.head?.map Token.kind == some .identifier)

/-- The number of tokens in the generic argument list at this place, if the
    expression that begins at `start` has one here. -/
def genericArguments? (s : ParserState) (start : Nat) : Option Nat :=
  if followsName s start then
    (typeArgumentsLength? s.after).filter fun n => followsTypeArguments (s.peekAt n).kind
  else none

/-- One step through the expression that begins at `start`, unless it ends
    here. -/
def expressionStep (terminators : List TokenKind) (start : Nat) : Reader (Round Unit Unit) := do
  let s ← get
  if terminators.contains s.peek.kind || endsExpression s.peek.kind then return .done ()
  else
    match genericArguments? s start with
    | some n => advanceBy n
    | none => skipGroup
    return .next ()

/-- The tokens of the expression that begins at `start`. -/
def expressionTokens (terminators : List TokenKind) (start : Nat) : Reader Unit :=
  loop (fun _ => expressionStep terminators start) ()

/-! ## Malformed expressions -/

/-- Contextual words that may stand between two operands. -/
def operandJoiners : List String :=
  ["and", "or", "not", "with", "when", "await", "select", "where", "orderby", "group", "by", "let",
    "on", "equals", "into", "ascending", "descending"]

/-- Can no expression begin with a token of this kind? -/
def cannotStart : TokenKind → Bool
  | .punct p =>
    match p with
    | .equal | .slash | .percent | .pipe | .less | .greater | .question | .colon | .colonColon
    | .dot | .arrow => true
    | _ => false
  | _ => false

/-- Can no expression end with a token of this kind? -/
def cannotEnd : TokenKind → Bool
  | .punct p =>
    match p with
    | .equal | .slash | .percent | .pipe | .caret | .amp | .less | .colon | .colonColon | .dot
    | .arrow => true
    | _ => false
  | _ => false

/-- Is the token an identifier that does not join operands? -/
def isOperandName (t : Token) : Bool :=
  t.kind == .identifier && !operandJoiners.contains t.lexeme

/-- Are the tokens two operands with nothing that joins them? -/
def areSideBySide (t u : Token) : Bool :=
  (t.kind.isLiteral && u.kind.isLiteral) || (t.kind.isLiteral && isOperandName u) ||
    (u.kind.isLiteral && isOperandName t)

/-- The number of open groups behind a token. -/
def depthBehind (depth : Nat) : TokenKind → Nat
  | .punct p => if p.isOpener then depth + 1 else if p.isCloser then depth - 1 else depth
  | _ => depth

/-- The first token outside groups that is an operand right behind another one;
    `t` comes before the others, with `depth` groups open behind it. -/
def secondOperand? (t : Token) (depth : Nat) : List Token → Option Token
  | [] => none
  | u :: us =>
    if depth = 0 && areSideBySide t u then some u
    else secondOperand? u (depthBehind depth u.kind) us

/-- The first token of the run that no expression can have there. -/
def malformed? : List Token → Option Token
  | [] => none
  | first :: others =>
    let last := others.getLast?.getD first
    if cannotStart first.kind then some first
    else if cannotEnd last.kind then some last
    else secondOperand? first (depthBehind 0 first.kind) others

/-! ## Reading -/

/-- An expression, which ends before a terminator, a semicolon or a closing
    mark outside its groups. -/
def expression (terminators : List TokenKind) : Parser ExprSyntax := do
  let s ← get
  expressionTokens terminators s.place
  let later ← get
  if later.place = s.place then failAt .expectedExpression "expression"
  else
    match malformed? (later.takenSince s.place) with
    | some t => throw (.expected .expectedExpression t.span "expression" t.kind.description)
    | none =>
      let text ← textFrom s.peek.span
      return ⟨text, later.spanFrom s.peek.span⟩

end CommandModules.Parser

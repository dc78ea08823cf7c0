/-
  Command modules — reading names and types.

  Names and types contain each other, through type arguments.  The readers of
  their parts take the reader of types as an argument; `typeWithin` ties the
  knot, with a bound on the depth of types inside types, for which the tokens
  that are left are enough.

  None of these readers records an error: a type can be tried and given up.

  * `type` and `name` read a type and a name;
  * `typeArgumentsLength?` looks ahead over a list of type arguments without
    reading it.
-/
import CommandModules.Syntax.Parser.Basic

namespace CommandModules.Parser

section
variable (type : Parser TypeSyntax)

/-- `'<' (TYPE (',' TYPE)*)? '>'` -/
def typeArgumentsWith : Parser (List TypeSyntax) := do
  discard (expectMark .less)
  let args ← if (← get).isAtMark .greater then pure [] else commaSeparated type
  discard (expectMark .greater)
  return args

/-- `IDENT TYPEARGS?` -/
def nameSegmentWith : Parser NameSegment := do
  let ident ← ident
  let args ← if (← get).isAtMark .less then typeArgumentsWith type else pure []
  return ⟨ident, args⟩

/-- One more segment of a name.  A dot behind it belongs to the name only if an
    identifier follows. -/
def segmentAndDot (segments : List NameSegment) :
    Parser (Round (List NameSegment) (List NameSegment)) := do
  let segment ← nameSegmentWith type
  let s ← get
  if s.isAtMark .dot && (s.peekAt 1).kind == .identifier then
    discard advance
    return .next (segments ++ [segment])
  else return .done (segments ++ [segment])

/-- `(IDENT '::')?` -/
def nameAlias : Parser (Option Ident) := do
  let s ← get
  if s.isAt .identifier && (s.peekAt 1).kind == .punct .colonColon then
    let qualifier ← ident
    discard advance
    return some qualifier
  else return none

/-- `(IDENT '::')? IDENT TYPEARGS? ('.' IDENT TYPEARGS?)*` -/
def nameWith : Parser Name := do
  let start := (← get).peek.span
  let alias? ← nameAlias
  let segments ← loopOrFail (segmentAndDot type) []
  let text ← textFrom start
  return ⟨alias?, segments, text, (← get).spanFrom start⟩

/-- `TYPE IDENT?` -/
def tupleElementWith : Parser TupleElement := do
  let type ← type
  let name? ← if (← get).isAt .identifier then some <$> ident else pure none
  return ⟨type, name?⟩

/-- `'(' TYPE IDENT? (',' TYPE IDENT?)+ ')'` -/
def tupleWith : Parser (List TupleElement) := do
  discard (expectMark .leftParen)
  let elements ← commaSeparated (tupleElementWith type)
  discard (expectMark .rightParen)
  if elements.length < 2 then
    throw (.expectedToken (← get).previousSpan "',' between tuple elements" "')'")
  return elements

/-- A type without suffixes. -/
def typeBaseWith : Parser TypeShape := do
  let t := (← get).peek
  if t.kind.isPredefinedType then
    discard advance
    return .predefined t.lexeme
  else if t.kind = .punct .leftParen then return .tuple (← tupleWith type)
  else if t.kind = .identifier then return .named (← nameWith type)
  else failAt .expectedType "type"

end

/-- Does the current token begin the suffix of an array type? -/
def isAtRank (s : ParserState) : Bool :=
  s.isAtMark .leftBracket &&
    ((s.peekAt 1).kind == .punct .rightBracket || (s.peekAt 1).kind == .punct .comma)

/-- `'[' ','* ']'` -/
def rank : Parser Nat := do
  discard advance
  let commas := ((← get).after.takeWhile fun t => t.kind == .punct .comma).length
  advanceBy commas
  discard (expectMark .rightBracket)
  return commas + 1

/-- The suffix at the current token applied to `t`, if there is one. -/
def typeSuffix? (t : TypeSyntax) : Parser (Option TypeShape) := do
  let s ← get
  if s.isAtMark .question then
    discard advance
    return some (.nullable t)
  else if s.isAtMark .star then
    discard advance
    return some (.pointer t)
  else if isAtRank s then return some (.array t (← rank))
  else return none

/-- The type of this shape that begins at `start` and ends here. -/
def typeFrom (start : Span) (shape : TypeShape) : Reader TypeSyntax := do
  let text ← textFrom start
  return ⟨shape, text, (← get).spanFrom start⟩

/-- One more suffix of the type `t` that begins at `start`. -/
def suffixAt (start : Span) (t : TypeSyntax) : Parser (Round TypeSyntax TypeSyntax) := do
  match ← typeSuffix? t with
  | some shape => return .next (← typeFrom start shape)
  | none => return .done t

/-- `(PREDEFINED | NAME | TUPLE) ('?' | '*' | '[' ','* ']')*` -/
def typeWith (type : Parser TypeSyntax) : Parser TypeSyntax := do
  let start := (← get).peek.span
  let shape ← typeBaseWith type
  loopOrFail (suffixAt start) (← typeFrom start shape)

/-- A type with less than `depth` levels of types inside it. -/
def typeWithin : Nat → Parser TypeSyntax
  | 0 => ExceptT.mk stall
  | depth + 1 => typeWith (typeWithin depth)

/-- A type. -/
def type : Parser TypeSyntax := do
  typeWithin (← rounds)

/-- A name. -/
def name : Parser Name := do
  nameWith (typeWithin (← rounds))

/-- A list of type arguments. -/
def typeArguments : Parser (List TypeSyntax) := do
  typeArgumentsWith (typeWithin (← rounds))

/-- Read a type, or read nothing if there is none. -/
def type? : Reader (Option TypeSyntax) := do
  let s ← get
  match ← type.run with
  | .ok t => return some t
  | .error _ =>
    modify fun later => later.returnTo s
    return none

/-! ## Looking ahead -/

/-- Can a token of this kind stand between the angle brackets of type
    arguments? -/
def isTypeArgumentPart : TokenKind → Bool
  | .identifier => true
  | .keyword k => k.isPredefinedType
  | .punct p =>
    match p with
    | .comma | .dot | .colonColon | .question | .star | .leftBracket | .rightBracket
    | .leftParen | .rightParen => true
    | _ => false
  | _ => false

/-- The number of tokens up to the bracket that closes the innermost of
    `depth + 1` open ones and all around it. -/
def closingAngle? : Nat → List Token → Option Nat
  | _, [] => none
  | depth, t :: ts =>
    if t.kind = .punct .less then (closingAngle? (depth + 1) ts).map (· + 1)
    else if t.kind = .punct .greater then
      match depth with
      | 0 => some 1
      | depth + 1 => (closingAngle? depth ts).map (· + 1)
    else if isTypeArgumentPart t.kind then (closingAngle? depth ts).map (· + 1)
    else none

/-- The number of tokens in the list of type arguments at the head, if there is
    one.  Only tokens that can stand in type arguments are passed over, so a
    comparison is never taken for a list. -/
def typeArgumentsLength? : List Token → Option Nat
  | [] => none
  | t :: ts => if t.kind = .punct .less then (closingAngle? 0 ts).map (· + 1) else none

end CommandModules.Parser

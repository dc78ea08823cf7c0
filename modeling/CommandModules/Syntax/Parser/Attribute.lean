/-
  Command modules — reading attributes.

  * `attributeSections` reads the attributes before a declaration;
  * `attributeArgument` never fails: an argument without an expression is kept,
    and the error recorded.
-/
import CommandModules.Syntax.Declaration
import CommandModules.Syntax.Parser.Expression

namespace CommandModules.Parser

/-- Does `IDENT separator` begin an argument here?  With `==` it is a
    comparison. -/
def isAtArgumentName (s : ParserState) (separator : Punct) : Bool :=
  s.isAt .identifier && (s.peekAt 1).kind == .punct separator &&
    (s.peekAt 2).kind != .punct .equal

/-- `(IDENT separator)?` -/
def argumentName? (separator : Punct) : Reader (Option Ident) := do
  if isAtArgumentName (← get) separator then
    let name ← word
    discard advance
    return some name
  else return none

/-- `(IDENT ('=' | ':'))? EXPR` -/
def attributeArgument : Reader AttributeArgument := do
  let s ← get
  let nameEquals? ← argumentName? .equal
  let nameColon? ← if nameEquals?.isSome then pure none else argumentName? .colon
  let expression? ← orReport (expression [.punct .comma])
  let later ← get
  let start := s.peek.span
  let span := if later.place = s.place then start.point else later.spanFrom start
  return ⟨nameEquals?, nameColon?, expression?, span⟩

/-- `'(' (ARGUMENT (',' ARGUMENT)*)? ')'` -/
def attributeArguments : Parser AttributeArguments := do
  let start := (← get).peek.span
  discard (expectMark .leftParen)
  let items ←
    if (← get).isAtMark .rightParen then pure [] else commaSeparated attributeArgument
  discard (expectMark .rightParen)
  return ⟨items, (← get).spanFrom start⟩

/-- `NAME ARGUMENTS?` -/
def attribute_ : Parser Attribute := do
  let start := (← get).peek.span
  let name ← name
  let arguments? ←
    if (← get).isAtMark .leftParen then some <$> attributeArguments else pure none
  return ⟨name, arguments?, (← get).spanFrom start⟩

/-- One more attribute up to a bracket; a comma may follow the last one. -/
def attributeAndComma (as : List Attribute) : Parser (Round (List Attribute) (List Attribute)) := do
  if (← get).isAtMark .rightBracket then return .done as else itemAndComma attribute_ as

/-- `(TARGET ':')?`, where the target may be a reserved word. -/
def attributeTarget? : Parser (Option Ident) := do
  let s ← get
  if (s.peek.kind.isIdentifier || s.peek.kind.isKeyword) &&
      (s.peekAt 1).kind == .punct .colon then
    let target ← word
    discard advance
    return some target
  else return none

/-- `'[' (TARGET ':')? ATTRIBUTE (',' ATTRIBUTE)* ','? ']'` -/
def attributeSection : Parser AttributeSection := do
  let start := (← get).peek.span
  discard (expectMark .leftBracket)
  let target? ← attributeTarget?
  let attributes ← loopOrFail attributeAndComma []
  discard (expectMark .rightBracket)
  return ⟨target?, attributes, (← get).spanFrom start⟩

/-- Zero or more attribute sections. -/
def attributeSections : Parser (List AttributeSection) :=
  whileAt (fun s => s.isAtMark .leftBracket) attributeSection

end CommandModules.Parser

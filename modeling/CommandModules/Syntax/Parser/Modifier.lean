/-
  Command modules — reading modifiers and parameters.

  Some modifiers are contextual words, which may also be names: `partial class`
  and `async Task Run()` use the word as a modifier, `partial Build()` and
  `async = 1` do not.

  * `isContextualModifier` tells the two uses apart, by trying to read a type
    behind the word; it stays where it is;
  * `modifiers` reads the modifiers of a declaration and reports repeated ones;
  * `parameters` reads a list of parameters between two marks.
-/
import CommandModules.Syntax.Parser.Attribute

namespace CommandModules.Parser

/-! ## Modifiers of declarations -/

/-- Contextual words that can be modifiers of a declaration. -/
def contextualModifiers : List String :=
  ["partial", "async", "required", "file"]

/-- Does a type and then the name of a member begin behind the current token?
    The place is not left. -/
def declaresMember : Reader Bool := do
  let s ← get
  discard advance
  let type? ← type?
  let later ← get
  modify fun now => now.returnTo s
  return type?.isSome &&
    (later.isAt .identifier || later.isAt (.keyword .this) || later.isAt (.keyword .operator))

/-- Is a contextual modifier before a token of this kind always a modifier? -/
def takesModifiers : TokenKind → Bool
  | .keyword k =>
    k.isModifier ||
      match k with
      | .class_ | .struct | .interface | .enum | .delegate | .event | .void | .ref | .implicit
      | .explicit => true
      | _ => false
  | _ => false

/-- Is the token the contextual word `record` or one that can be a modifier? -/
def continuesModifiers (t : Token) : Bool :=
  t.kind.isIdentifier && (t.lexeme == "record" || contextualModifiers.contains t.lexeme)

/-- Is the current token a contextual word used as a modifier? -/
def isContextualModifier : Reader Bool := do
  let s ← get
  if s.isAt .identifier && contextualModifiers.contains s.peek.lexeme then
    let next := s.peekAt 1
    if takesModifiers next.kind || continuesModifiers next then return true else declaresMember
  else return false

/-- Is the current token the `ref` of `ref struct`? -/
def isAtRefModifier (s : ParserState) : Bool :=
  let next := s.peekAt 1
  s.isAt (.keyword .ref) &&
    (next.kind == .keyword .struct || next.kind == .keyword .readonly ||
      next.isContextual "partial")

/-- Is the current token a modifier of a declaration? -/
def isAtModifier : Reader Bool := do
  let s ← get
  if s.peek.kind.isModifier || isAtRefModifier s then return true else isContextualModifier

/-- The error for a modifier that was there before. -/
def repeated (w : Ident) : ParseError :=
  ⟨.invalidModifier, w.span, s!"duplicate modifier '{w.name}'"⟩

/-- Add a word to modifiers; a word without a flag is kept as a word. -/
def addModifier (m : WrittenModifiers) (w : Ident) : WrittenModifiers :=
  match Modifier.ofKeyword? w.name with
  | some flag => ⟨m.flags.union (.singleton flag), m.words ++ [w]⟩
  | none => ⟨m.flags, m.words ++ [w]⟩

/-- Is the flag of the word among the modifiers? -/
def isRepeated (m : WrittenModifiers) (w : Ident) : Bool :=
  match Modifier.ofKeyword? w.name with
  | some flag => m.flags.contains flag
  | none => false

/-- One more modifier of a declaration, after those in `m`. -/
def modifierAfter (m : WrittenModifiers) : Reader (Round WrittenModifiers WrittenModifiers) := do
  if ← isAtModifier then
    let w ← word
    if isRepeated m w then report (repeated w)
    return .next (addModifier m w)
  else return .done m

/-- The modifiers of a declaration. -/
def modifiers : Reader WrittenModifiers :=
  loop modifierAfter ⟨.none, []⟩

/-! ## Parameters -/

/-- Is the current token a modifier of a parameter?  The contextual word
    `scoped` is one if a type and a name can follow it. -/
def isAtParameterModifier (s : ParserState) : Bool :=
  match s.peek.kind with
  | .keyword .ref | .keyword .out | .keyword .in_ | .keyword .params | .keyword .this
  | .keyword .readonly => true
  | .identifier =>
    let next := (s.peekAt 1).kind
    s.peek.lexeme == "scoped" &&
      (next == .keyword .ref || next == .keyword .in_ || next == .keyword .out ||
        ((next.isIdentifier || next.isPredefinedType) && (s.peekAt 2).kind.isIdentifier))
  | _ => false

/-- The modifiers of a parameter. -/
def parameterModifiers : Parser WrittenModifiers := do
  return (← whileAt isAtParameterModifier word).foldl addModifier ⟨.none, []⟩

/-- `('=' EXPR)?`, where the expression ends before a comma. -/
def initializer? : Parser (Option ExprSyntax) := do
  if ← eatMark .equal then some <$> expression [.punct .comma] else return none

/-- `ATTRS? MODIFIERS? TYPE IDENT ('=' EXPR)?` -/
def parameter : Parser Parameter := do
  let start := (← get).peek.span
  let attributes ← attributeSections
  let modifiers ← parameterModifiers
  let type ← type
  let name ← ident
  let default? ← initializer?
  return ⟨attributes, modifiers, type, name, default?, (← get).spanFrom start⟩

/-- `opener (PARAM (',' PARAM)*)? closer` -/
def parametersBetween (opener closer : Punct) : Parser (List Parameter) := do
  if (← get).isAtMark opener then
    discard advance
    let items ← if (← get).isAtMark closer then pure [] else commaSeparated parameter
    discard (expectMark closer)
    return items
  else failAt .expectedParameters (TokenKind.punct opener).description

/-- A list of parameters in parentheses. -/
def parameters : Parser (List Parameter) :=
  parametersBetween .leftParen .rightParen

end CommandModules.Parser

/-
  Command modules — reading the members of a type.

  Members other than nested types are read here; `Syntax.Parser.Declaration`
  reads types, and with them the lists of members.

  A member is read by a function of its `Head`, which is what precedes it:
  the place where it begins, its attributes and its modifiers.
-/
import CommandModules.Syntax.Parser.Modifier

namespace CommandModules.Parser

/-- What precedes a declaration. -/
structure Head where
  start : Span
  attributes : List AttributeSection
  modifiers : WrittenModifiers

/-- `ATTRS? MODIFIERS?` -/
def head : Parser Head := do
  let start := (← get).peek.span
  let attributes ← attributeSections
  let modifiers ← modifiers
  return ⟨start, attributes, modifiers⟩

/-! ## Parts of members -/

/-- `EXPR ';'` -/
def expressionThenSemicolon : Parser ExprSyntax := do
  let e ← expression []
  discard (expectMark .semicolon)
  return e

/-- `BLOCK | '=>' EXPR ';' | ';'` -/
def body : Parser Body := do
  let s ← get
  if s.isAtMark .leftBrace then
    skipGroup
    return .block ((← get).spanFrom s.peek.span)
  else if ← eatMark .arrow then return .expression (← expressionThenSemicolon)
  else if ← eatMark .semicolon then return .none
  else failAt .expectedToken "'\x7b', '=>' or ';'"

/-- `ATTRS? ('in' | 'out')? IDENT` -/
def typeParameter : Parser TypeParameter := do
  let s ← get
  let attributes ← attributeSections
  let t := (← get).peek
  let variance? ←
    if t.kind = .keyword .in_ ∨ t.kind = .keyword .out then some <$> word else pure none
  let name ← ident
  return ⟨attributes, variance?, name, (← get).spanFrom s.peek.span⟩

/-- `('<' TYPEPARAM (',' TYPEPARAM)* '>')?` -/
def typeParameters : Parser (List TypeParameter) := do
  if ← eatMark .less then
    let items ← commaSeparated typeParameter
    discard (expectMark .greater)
    return items
  else return []

/-- Does the text of a constraint clause end here? -/
def isAtConstraintEnd (s : ParserState) : Bool :=
  s.isAtMark .leftBrace || s.isAtMark .semicolon || s.isAtMark .arrow || s.isAtEof ||
    s.peek.isContextual "where"

/-- One step to the end of a constraint clause. -/
def constraintStep : Reader (Round Unit Unit) := do
  if isAtConstraintEnd (← get) then return .done ()
  else
    skipGroup
    return .next ()

/-- The tokens of a constraint clause behind its colon. -/
def constraintTokens : Reader Unit :=
  loop (fun _ => constraintStep) ()

/-- `'where' IDENT ':' CONSTRAINTS` -/
def constraintClause : Parser ConstraintClause := do
  let start := (← get).peek.span
  discard advance
  let parameter ← ident
  discard (expectMark .colon)
  let s ← get
  constraintTokens
  let later ← get
  if later.place = s.place then failAt .expectedType "constraint"
  else
    let text ← textFrom s.peek.span
    return ⟨parameter, text, later.spanFrom start⟩

/-- Zero or more constraint clauses. -/
def constraintClauses : Parser (List ConstraintClause) :=
  whileAt (fun s => s.peek.isContextual "where") constraintClause

/-- `ATTRS? MODIFIERS? IDENT BODY` -/
def accessor : Parser Accessor := do
  let head ← head
  let keyword ← ident
  let body ← body
  return ⟨head.attributes, head.modifiers, keyword, body, (← get).spanFrom head.start⟩

/-- `ACCESSORS | '=>' EXPR ';'` -/
def accessorsOrExpression : Parser (List Accessor × Option ExprSyntax) := do
  if ← eatMark .arrow then return ([], some (← expressionThenSemicolon))
  discard (expectMark .leftBrace)
  let accessors ← whileAt (fun s => !s.isAtMark .rightBrace && !s.isAtEof) accessor
  discard (expectMark .rightBrace)
  return (accessors, none)

/-- The segments that qualify the name of a member, and the offset at which they
    end. -/
structure Qualifier where
  segments : List NameSegment
  stop : Nat

/-- The name of a member behind the segments that qualify it, which begin at
    `start`; or one more such segment. -/
def memberNameStep (start : Span) (q : Qualifier) :
    Parser (Round Qualifier (Option Name × Ident)) := do
  let ident ← ident
  let s ← get
  let hasArguments := match typeArgumentsLength? s.after with
    | some n => (s.peekAt n).kind == .punct .dot
    | none => false
  if s.isAtMark .dot || hasArguments then
    let args ← if hasArguments then typeArguments else pure []
    let stop := (← get).previousSpan.stop
    discard advance
    return .next ⟨q.segments ++ [⟨ident, args⟩], stop⟩
  else if q.segments.isEmpty then return .done (none, ident)
  else
    let text ← textBetween start.offset q.stop
    let covered : Span := { start with length := q.stop - start.offset }
    return .done (some ⟨none, q.segments, text, covered⟩, ident)

/-- The name of a member, with the interface that qualifies it:
    `IDisposable.Dispose`. -/
def memberName : Parser (Option Name × Ident) := do
  let start := (← get).peek.span
  loopOrFail (memberNameStep start) ⟨[], start.offset⟩

/-- One more variable of a field or event, behind those in `vs`; it is called
    `name`, which is consumed. -/
def declaratorAfter (vs : List Variable) (name : Ident) :
    Parser (Round (List Variable × Ident) (List Variable)) := do
  if (← get).isAtMark .leftBracket then skipGroup
  let initializer? ← initializer?
  let vs := vs ++ [⟨name, initializer?, (← get).spanFrom name.span⟩]
  if ← eatMark .comma then return .next (vs, ← ident) else return .done vs

/-- The variables of a field or event, through the semicolon; the name of the
    first one is consumed. -/
def declarators (name : Ident) : Parser (List Variable) := do
  let items ← loopOrFail (fun x => declaratorAfter x.1 x.2) ([], name)
  discard (expectMark .semicolon)
  return items

/-! ## Members -/

/-- `'delegate' TYPE IDENT TYPEPARAMS? PARAMS WHERE* ';'` -/
def delegate (head : Head) : Parser Delegate := do
  discard (expect (.keyword .delegate))
  let returnType ← type
  let name ← ident
  let typeParameters ← typeParameters
  let parameters ← parameters
  let constraints ← constraintClauses
  discard (expectMark .semicolon)
  return ⟨head.attributes, head.modifiers, returnType, name, typeParameters, parameters,
    constraints, (← get).spanFrom head.start⟩

/-- The special member with these parameters that ends here. -/
def specialFrom (head : Head) (kind : SpecialKind) (parameters : List Parameter) :
    Parser Member := do
  return .special ⟨kind, head.attributes, head.modifiers, parameters,
    (← get).spanFrom head.start⟩

/-- `PARAMS BODY` of a destructor or operator. -/
def special (head : Head) (kind : SpecialKind) : Parser Member := do
  let parameters ← parameters
  discard body
  specialFrom head kind parameters

/-- `'~' IDENT PARAMS BODY` -/
def destructor (head : Head) : Parser Member := do
  discard (expectMark .tilde)
  discard ident
  special head .destructor

/-- `('implicit' | 'explicit') 'operator' TYPE PARAMS BODY` -/
def conversionOperator (head : Head) : Parser Member := do
  discard advance
  discard (expect (.keyword .operator))
  discard type
  special head .conversionOperator

/-- The operator behind its keyword; what is between that and the parameters is
    passed over. -/
def operator (head : Head) : Parser Member := do
  advanceBy ((← get).after.takeWhile fun t => t.kind != .punct .leftParen).length
  special head .operator

/-- `'this' '[' PARAMS ']' (ACCESSORS | '=>' EXPR ';')` -/
def indexer (head : Head) : Parser Member := do
  discard (expect (.keyword .this))
  let parameters ← parametersBetween .leftBracket .rightBracket
  discard accessorsOrExpression
  specialFrom head .indexer parameters

/-- `'event' TYPE (NAME ACCESSORS | VARIABLES ';')` -/
def event (head : Head) : Parser Member := do
  discard (expect (.keyword .event))
  let type ← type
  let (_, name) ← memberName
  let (declarators, accessors) ←
    if (← get).isAtMark .leftBrace then
      let (accessors, _) ← accessorsOrExpression
      pure ([⟨name, none, name.span⟩], accessors)
    else
      let declarators ← declarators name
      pure (declarators, [])
  return .event ⟨head.attributes, head.modifiers, type, declarators, accessors,
    (← get).spanFrom head.start⟩

/-- `IDENT PARAMS (':' EXPR)? BODY` -/
def constructor (head : Head) : Parser Member := do
  let name ← ident
  let parameters ← parameters
  let initializer? ←
    if ← eatMark .colon then
      some <$> expression [.punct .leftBrace, .punct .arrow]
    else pure none
  let body ← body
  return .constructor ⟨head.attributes, head.modifiers, name, parameters, initializer?, body,
    (← get).spanFrom head.start⟩

/-- The method behind its return type and name. -/
def method (head : Head) (returnType : TypeSyntax) (explicitInterface? : Option Name)
    (name : Ident) : Parser Member := do
  let typeParameters ← typeParameters
  let parameters ← parameters
  let constraints ← constraintClauses
  let body ← body
  return .method ⟨head.attributes, head.modifiers, returnType, explicitInterface?, name,
    typeParameters, parameters, constraints, body, (← get).spanFrom head.start⟩

/-- The property behind its type and name. -/
def property (head : Head) (type : TypeSyntax) (explicitInterface? : Option Name)
    (name : Ident) : Parser Member := do
  let (accessors, expressionBody?) ← accessorsOrExpression
  let initializer? ←
    if expressionBody?.isNone then
      if ← eatMark .equal then some <$> expressionThenSemicolon else pure none
    else pure none
  return .property ⟨head.attributes, head.modifiers, type, explicitInterface?, name, accessors,
    expressionBody?, initializer?, (← get).spanFrom head.start⟩

/-- The field behind its type and the name of its first variable. -/
def field (head : Head) (type : TypeSyntax) (name : Ident) : Parser Member := do
  let declarators ← declarators name
  return .field ⟨head.attributes, head.modifiers, type, declarators,
    (← get).spanFrom head.start⟩

/-- A member behind its type: a method, field, property, indexer or operator. -/
def typedMember (head : Head) (type : TypeSyntax) : Parser Member := do
  if ← eatWord .operator then operator head
  else if (← get).isAt (.keyword .this) then indexer head
  else
    let (explicitInterface?, name) ← memberName
    let s ← get
    if s.isAtMark .leftParen || s.isAtMark .less then method head type explicitInterface? name
    else if s.isAtMark .leftBrace || s.isAtMark .arrow then
      property head type explicitInterface? name
    else if explicitInterface?.isNone && (s.isAtMark .equal || s.isAtMark .comma ||
        s.isAtMark .semicolon || s.isAtMark .leftBracket) then
      field head type name
    else failAt .expectedMember "'(', '\x7b', '=>', '=' or ';'"

/-- A member behind its head that is not a type. -/
def memberAfter (head : Head) : Parser Member := do
  let s ← get
  match s.peek.kind with
  | .keyword .delegate => return .delegate (← delegate head)
  | .punct .tilde => destructor head
  | .keyword .event => event head
  | .keyword .implicit | .keyword .explicit => conversionOperator head
  | .identifier =>
    if (s.peekAt 1).kind = .punct .leftParen then constructor head
    else typedMember head (← type)
  | _ => typedMember head (← type)

/-- `ATTRS? IDENT ('=' EXPR)?` -/
def enumMember : Parser EnumMember := do
  let start := (← get).peek.span
  let attributes ← attributeSections
  let name ← ident
  let value? ← initializer?
  return ⟨attributes, name, value?, (← get).spanFrom start⟩

end CommandModules.Parser

/-
  Command modules — reading types, namespaces and whole units.

  Types hold members and members can be types; namespaces hold declarations and
  declarations can be namespaces.  The readers of one level take the reader of
  the next level as an argument; `membersWithin` and `entriesWithin` tie the
  knots, with a bound on the depth.

  Errors inside a declaration are recorded, and reading goes on behind it: a bad
  declaration does not hide what follows it.

  * `sourceUnit` reads a whole text; it cannot fail.
-/
import CommandModules.Syntax.Parser.Member

namespace CommandModules.Parser

/-! ## Types -/

/-- Can a token of this kind, or the word `where`, follow the name of a
    record? -/
def followsRecordName (t : Token) : Bool :=
  t.isContextual "where" ||
    match t.kind with
    | .punct .leftParen | .punct .leftBrace | .punct .less | .punct .colon
    | .punct .semicolon => true
    | _ => false

/-- Does the word here declare a record? -/
def isAtRecord (s : ParserState) : Bool :=
  s.peek.isContextual "record" &&
    match (s.peekAt 1).kind with
    | .keyword .class_ | .keyword .struct => true
    | .identifier => followsRecordName (s.peekAt 2)
    | _ => false

/-- Does the word here declare a type? -/
def isAtType (s : ParserState) : Bool :=
  match s.peek.kind with
  | .keyword .class_ | .keyword .struct | .keyword .interface | .keyword .enum => true
  | _ => isAtRecord s

/-- The words that declare a type. -/
def typeKind : Reader TypeKind := do
  match (← advance).kind with
  | .keyword .class_ => return .class_
  | .keyword .struct => return .struct
  | .keyword .interface => return .interface
  | .keyword .enum => return .enum
  | _ =>
    if ← eatWord .struct then return .recordStruct
    else
      discard (eatWord .class_)
      return .record

/-- `TYPE GROUP?`, where the group holds the arguments of a record's base. -/
def baseType : Parser TypeSyntax := do
  let type ← type
  if (← get).isAtMark .leftParen then skipGroup
  return type

/-- `(':' BASE (',' BASE)*)?` -/
def baseTypes : Parser (List TypeSyntax) := do
  if ← eatMark .colon then commaSeparated baseType else return []

/-- Does a list of members go on here? -/
def isInBraces (s : ParserState) : Bool :=
  !s.isAtMark .rightBrace && !s.isAtEof

/-- One more member of an enum, up to a closing brace. -/
def enumMemberAfter (ms : List Member) : Reader (Round (List Member) (List Member)) := do
  if isInBraces (← get) then
    match ← orRecover enumMember with
    | some m =>
      let ms := ms ++ [.enumMember m]
      if ← eatMark .comma then return .next ms else return .done ms
    | none => return .next ms
  else return .done ms

/-- The members of an enum, up to a closing brace. -/
def enumMembers : Reader (List Member) :=
  loop enumMemberAfter []

/-- `'{' MEMBERS '}' ';'? | ';'` -/
def typeBody (members : Reader (List Member)) : Parser (List Member) := do
  if ← eatMark .semicolon then return []
  discard (expectMark .leftBrace)
  let members ← members
  expectClosing .rightBrace
  discard (eatMark .semicolon)
  return members

/-- `KIND IDENT TYPEPARAMS? PARAMS? (':' BASES)? WHERE* BODY` -/
def typeWithMembers (members : Reader (List Member)) (head : Head) : Parser TypeDeclaration := do
  let kind ← typeKind
  let name ← ident
  let typeParameters ← typeParameters
  let parameters? ← if (← get).isAtMark .leftParen then some <$> parameters else pure none
  let bases ← baseTypes
  let constraints ← constraintClauses
  let members ← typeBody (if kind = .enum then enumMembers else members)
  return ⟨head.attributes, head.modifiers, kind, name, typeParameters, parameters?, bases,
    constraints, members, (← get).spanFrom head.start⟩

/-- A member, whose own members `nested` reads; a stray semicolon is none. -/
def memberWith (nested : Reader (List Member)) : Parser (Option Member) := do
  if ← eatMark .semicolon then return none
  let head ← head
  if isAtType (← get) then return some (.type (← typeWithMembers nested head))
  else return some (← memberAfter head)

/-- One more member of a type, up to a closing brace. -/
def memberStep (nested : Reader (List Member)) (ms : List Member) :
    Reader (Round (List Member) (List Member)) := do
  let s ← get
  if isInBraces s then
    let m? := (← orRecover (memberWith nested)).join
    moveOn s.place
    return .next (ms ++ m?.toList)
  else return .done ms

/-- The members of a type with less than `depth` levels of types inside it. -/
def membersWithin : Nat → Reader (List Member)
  | 0 => stall
  | depth + 1 => loop (memberStep (membersWithin depth)) []

/-- The members of a type, up to a closing brace. -/
def members : Reader (List Member) := do
  membersWithin (← rounds)

/-- A type behind its head. -/
def typeDeclaration (head : Head) : Parser TypeDeclaration :=
  typeWithMembers members head

/-! ## Namespaces -/

/-- What a unit or a namespace holds. -/
inductive Entry where
  | using_ (u : Using)
  | attributes (s : AttributeSection)
  | declaration (d : Declaration)

/-- The using directives among the entries. -/
def Entry.usings (entries : List Entry) : List Using :=
  entries.filterMap fun
    | .using_ u => some u
    | _ => none

/-- The global attributes among the entries. -/
def Entry.globalAttributes (entries : List Entry) : List AttributeSection :=
  entries.filterMap fun
    | .attributes s => some s
    | _ => none

/-- The declarations among the entries. -/
def Entry.declarations (entries : List Entry) : List Declaration :=
  entries.filterMap fun
    | .declaration d => some d
    | _ => none

/-- Does `extern alias` stand here? -/
def isAtExternAlias (s : ParserState) : Bool :=
  s.isAt (.keyword .extern_) && (s.peekAt 1).isContextual "alias"

/-- Does a using directive begin here? -/
def isAtUsing (s : ParserState) : Bool :=
  s.isAt (.keyword .using_) ||
    (s.peek.isContextual "global" && (s.peekAt 1).kind == .keyword .using_)

/-- Do attributes of the assembly or the module begin here? -/
def isAtGlobalAttributes (s : ParserState) : Bool :=
  s.isAtMark .leftBracket &&
    ((s.peekAt 1).isContextual "assembly" || (s.peekAt 1).isContextual "module") &&
    (s.peekAt 2).kind == .punct .colon

/-- `(IDENT '=')?` -/
def usingAlias : Parser (Option Ident) := do
  let s ← get
  if s.isAt .identifier && (s.peekAt 1).kind == .punct .equal then
    let shortName ← ident
    discard advance
    return some shortName
  else return none

/-- `'global'? 'using' 'static'? (IDENT '=')? NAME ';'` -/
def using_ : Parser Using := do
  let s ← get
  let isGlobal := s.peek.isContextual "global"
  if isGlobal then discard advance
  discard (expect (.keyword .using_))
  let isStatic ← eatWord .static
  let alias? ← usingAlias
  let name ← name
  discard (expectMark .semicolon)
  return ⟨isGlobal, isStatic, alias?, name, (← get).spanFrom s.peek.span⟩

section
variable (nested : Bool → Reader (List Entry))

/-- The entries of a namespace: all to come behind a semicolon, or
    `'{' ENTRIES '}' ';'?`. -/
def namespaceEntries (isFileScoped : Bool) : Parser (List Entry) := do
  if isFileScoped then nested false
  else
    discard (expectMark .leftBrace)
    let entries ← nested true
    expectClosing .rightBrace
    discard (eatMark .semicolon)
    return entries

/-- `'namespace' NAME (';' ENTRIES | '{' ENTRIES '}' ';'?)` -/
def namespaceWith (start : Span) : Parser NamespaceDeclaration := do
  discard (expect (.keyword .namespace_))
  let name ← name
  let isFileScoped ← eatMark .semicolon
  let entries ← namespaceEntries nested isFileScoped
  if let some attributes := (Entry.globalAttributes entries).head? then
    report ⟨.unexpectedToken, attributes.span,
      "global attributes must precede namespace declarations"⟩
  return ⟨name, isFileScoped, Entry.usings entries, Entry.declarations entries,
    (← get).spanFrom start⟩

/-- A namespace, type or delegate. -/
def declarationWith : Parser Declaration := do
  let head ← head
  let s ← get
  if s.isAt (.keyword .namespace_) then return .namespace_ (← namespaceWith nested head.start)
  else if s.isAt (.keyword .delegate) then return .delegate (← delegate head)
  else if isAtType s then return .type (← typeDeclaration head)
  else failAt .expectedDeclaration "type or namespace declaration"

/-- The next entry.  A closing brace without an opening one is reported; an
    `extern alias` is passed over. -/
def entryWith : Reader (Option Entry) := do
  let s ← get
  if s.isAtMark .rightBrace then
    report (.unexpectedToken (← advance).span (TokenKind.punct .rightBrace).description)
    return none
  else if isAtExternAlias s then
    synchronize
    return none
  else if isAtUsing s then orRecover (.using_ <$> using_)
  else if isAtGlobalAttributes s then orRecover (.attributes <$> attributeSection)
  else orRecover (.declaration <$> declarationWith nested)

/-- One more entry, up to the end of the text or, between braces, up to a closing
    brace. -/
def entryStep (braced : Bool) (es : List Entry) : Reader (Round (List Entry) (List Entry)) := do
  let s ← get
  if s.isAtEof || (braced && s.isAtMark .rightBrace) then return .done es
  else
    let entry? ← entryWith nested
    moveOn s.place
    return .next (es ++ entry?.toList)

end

/-- The entries of a unit or namespace with less than `depth` levels of
    namespaces inside it. -/
def entriesWithin : Nat → Bool → Reader (List Entry)
  | 0, _ => stall
  | depth + 1, braced => loop (entryStep (entriesWithin depth) braced) []

/-- A whole text. -/
def sourceUnit : Reader SourceUnit := do
  let start := (← get).peek.span
  let entries ← entriesWithin (← rounds) false
  return ⟨Entry.usings entries, Entry.globalAttributes entries, Entry.declarations entries,
    (← get).spanFrom start⟩

end CommandModules.Parser

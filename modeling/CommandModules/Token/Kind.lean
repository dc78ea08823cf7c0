/-
  Command modules — the kinds of tokens.

  Reserved words have a kind each.  Contextual words (`partial`, `record`,
  `where`, `async`, `global`, …) are identifiers; the parser knows them by their
  text.

  * `Keyword.ofText?` finds a reserved word by its text, and it is the inverse
    of `Keyword.text` (`ofText?_text`, `text_of_ofText?`);
  * `TokenKind.description` is the kind as messages name it.
-/
namespace CommandModules

/-- A reserved word. -/
inductive Keyword where
  | abstract | as_ | base | bool | break_ | byte | case_ | catch_ | char | checked | class_
  | const | continue_ | decimal | default | delegate | do_ | double | else_ | enum | event
  | explicit | extern_ | false_ | finally_ | fixed | float | for_ | foreach | goto | if_
  | implicit | in_ | int | interface | internal | is | lock | long | namespace_ | new
  | null | object | operator | out | override | params | private_ | protected_ | public_
  | readonly | ref | return_ | sbyte | sealed | short | sizeof | stackalloc | static
  | string | struct | switch | this | throw | true_ | try_ | typeof | uint | ulong
  | unchecked | unsafe_ | ushort | using_ | virtual | void | volatile | while_
deriving DecidableEq, Repr

namespace Keyword

/-- All reserved words, in alphabetical order. -/
def all : List Keyword :=
  [abstract, as_, base, bool, break_, byte, case_, catch_, char, checked, class_, const,
    continue_, decimal, default, delegate, do_, double, else_, enum, event, explicit,
    extern_, false_, finally_, fixed, float, for_, foreach, goto, if_, implicit, in_, int,
    interface, internal, is, lock, long, namespace_, new, null, object, operator, out,
    override, params, private_, protected_, public_, readonly, ref, return_, sbyte, sealed,
    short, sizeof, stackalloc, static, string, struct, switch, this, throw, true_, try_,
    typeof, uint, ulong, unchecked, unsafe_, ushort, using_, virtual, void, volatile,
    while_]

/-- The word as it is written. -/
def text : Keyword → String
  | abstract => "abstract"
  | as_ => "as"
  | base => "base"
  | bool => "bool"
  | break_ => "break"
  | byte => "byte"
  | case_ => "case"
  | catch_ => "catch"
  | char => "char"
  | checked => "checked"
  | class_ => "class"
  | const => "const"
  | continue_ => "continue"
  | decimal => "decimal"
  | default => "default"
  | delegate => "delegate"
  | do_ => "do"
  | double => "double"
  | else_ => "else"
  | enum => "enum"
  | event => "event"
  | explicit => "explicit"
  | extern_ => "extern"
  | false_ => "false"
  | finally_ => "finally"
  | fixed => "fixed"
  | float => "float"
  | for_ => "for"
  | foreach => "foreach"
  | goto => "goto"
  | if_ => "if"
  | implicit => "implicit"
  | in_ => "in"
  | int => "int"
  | interface => "interface"
  | internal => "internal"
  | is => "is"
  | lock => "lock"
  | long => "long"
  | namespace_ => "namespace"
  | new => "new"
  | null => "null"
  | object => "object"
  | operator => "operator"
  | out => "out"
  | override => "override"
  | params => "params"
  | private_ => "private"
  | protected_ => "protected"
  | public_ => "public"
  | readonly => "readonly"
  | ref => "ref"
  | return_ => "return"
  | sbyte => "sbyte"
  | sealed => "sealed"
  | short => "short"
  | sizeof => "sizeof"
  | stackalloc => "stackalloc"
  | static => "static"
  | string => "string"
  | struct => "struct"
  | switch => "switch"
  | this => "this"
  | throw => "throw"
  | true_ => "true"
  | try_ => "try"
  | typeof => "typeof"
  | uint => "uint"
  | ulong => "ulong"
  | unchecked => "unchecked"
  | unsafe_ => "unsafe"
  | ushort => "ushort"
  | using_ => "using"
  | virtual => "virtual"
  | void => "void"
  | volatile => "volatile"
  | while_ => "while"

/-- The reserved word that is written `s`. -/
def ofText? (s : String) : Option Keyword :=
  all.find? fun k => k.text == s

theorem ofText?_text (k : Keyword) : ofText? k.text = some k := by
  cases k <;> decide

theorem text_of_ofText? {s : String} {k : Keyword} (h : ofText? s = some k) : k.text = s := by
  simpa using List.find?_some h

/-- Does the word name a predefined type? -/
def isPredefinedType : Keyword → Bool
  | bool | byte | sbyte | char | decimal | double | float | int | uint | long | ulong | short
  | ushort | object | string | void => true
  | _ => false

/-- Does the word modify the declaration it stands before?  Parameter modifiers
    and contextual words are not among them. -/
def isModifier : Keyword → Bool
  | public_ | private_ | protected_ | internal | abstract | sealed | static | virtual | override
  | readonly | const | new | extern_ | unsafe_ | volatile | fixed => true
  | _ => false

/-- Is the word a value of its own? -/
def isLiteral : Keyword → Bool
  | true_ | false_ | null => true
  | _ => false

end Keyword

/-- A punctuation mark. -/
inductive Punct where
  | leftParen | rightParen | leftBracket | rightBracket | leftBrace | rightBrace | semicolon
  | comma | dot | colon | colonColon | question | arrow | equal | less | greater | plus
  | minus | star | slash | percent | amp | pipe | caret | bang | tilde
deriving DecidableEq, Repr

namespace Punct

/-- The mark as it is written. -/
def text : Punct → String
  | leftParen => "("
  | rightParen => ")"
  | leftBracket => "["
  | rightBracket => "]"
  | leftBrace => "\x7b"
  | rightBrace => "\x7d"
  | semicolon => ";"
  | comma => ","
  | dot => "."
  | colon => ":"
  | colonColon => "::"
  | question => "?"
  | arrow => "=>"
  | equal => "="
  | less => "<"
  | greater => ">"
  | plus => "+"
  | minus => "-"
  | star => "*"
  | slash => "/"
  | percent => "%"
  | amp => "&"
  | pipe => "|"
  | caret => "^"
  | bang => "!"
  | tilde => "~"

/-- Does the mark open a group? -/
def isOpener : Punct → Bool
  | leftParen | leftBracket | leftBrace => true
  | _ => false

/-- Does the mark close a group? -/
def isCloser : Punct → Bool
  | rightParen | rightBracket | rightBrace => true
  | _ => false

/-- The mark that closes a group opened by this one. -/
def closer : Punct → Punct
  | leftParen => rightParen
  | leftBracket => rightBracket
  | _ => rightBrace

end Punct

/-- What a token is. -/
inductive TokenKind where
  /-- `42`, `0xFF`, `10UL` -/
  | integerLiteral
  /-- `3.14`, `1e10`, `2.5f` -/
  | realLiteral
  /-- a character between apostrophes -/
  | charLiteral
  /-- any form of string: regular, verbatim, interpolated or raw -/
  | stringLiteral
  /-- a name, a contextual word, or a word escaped by `@` -/
  | identifier
  | keyword (word : Keyword)
  | punct (mark : Punct)
  /-- the end of the text -/
  | eof
  /-- text that is no token -/
  | error
deriving DecidableEq, Repr

namespace TokenKind

/-- Is it a reserved word? -/
def isKeyword : TokenKind → Bool
  | keyword _ => true
  | _ => false

/-- Is it a literal, or a word that is a value of its own? -/
def isLiteral : TokenKind → Bool
  | integerLiteral | realLiteral | charLiteral | stringLiteral => true
  | keyword k => k.isLiteral
  | _ => false

/-- Is it the name of a predefined type? -/
def isPredefinedType : TokenKind → Bool
  | keyword k => k.isPredefinedType
  | _ => false

/-- Is it a reserved word that modifies a declaration? -/
def isModifier : TokenKind → Bool
  | keyword k => k.isModifier
  | _ => false

/-- Is it a punctuation mark? -/
def isPunctuation : TokenKind → Bool
  | punct _ => true
  | _ => false

/-- Is it the name of a variable, type or member, or a contextual word? -/
def isIdentifier (k : TokenKind) : Bool :=
  k == identifier

/-- The kind as messages name it. -/
def description : TokenKind → String
  | integerLiteral => "integer literal"
  | realLiteral => "real literal"
  | charLiteral => "character literal"
  | stringLiteral => "string literal"
  | identifier => "identifier"
  | keyword k => k.text
  | punct p => "'" ++ p.text ++ "'"
  | eof => "end of file"
  | error => "invalid input"

end TokenKind

end CommandModules

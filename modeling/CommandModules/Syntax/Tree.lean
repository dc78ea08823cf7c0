/-
  Command modules — syntax trees.

  A tree is what reading one text gives: its declarations, its tokens and its
  errors.  Any text gives a tree.

  * Two trees are equivalent when they were read from the same tokens, blanks and
    comments aside; `SyntaxTree.firstDifference?` is where they part;
  * a tree has an `id`, by which trees are told apart that were read from the
    same text; a declaration is known by the tree it is in and its offset there
    (`NodeKey`).
-/
import CommandModules.Syntax.Node
import CommandModules.Syntax.Parser.Declaration

namespace CommandModules

/-- What reading the text of a file gives. -/
structure SyntaxTree where
  /-- tells the tree from others of the same text -/
  id : Nat
  path : String
  text : String
  root : SourceUnit
  /-- the tokens, the `eof` included, without text that is none -/
  tokens : List Token
  errors : List ParseError

namespace SyntaxTree

/-- Read the text of the file at `path`. -/
def parse (id : Nat) (path text : String) : SyntaxTree :=
  let start := ParserState.ofText text
  let (root, stop) := Parser.sourceUnit.run start
  let lexical := (tokenize text).errors.map ParseError.ofLexError
  ⟨id, path, text, root, start.after ++ [start.eof], lexical ++ stop.errors⟩

/-- All nodes, parents before children. -/
def nodes (t : SyntaxTree) : List Node :=
  (Node.unit t.root).descendants

/-- All type declarations, nested ones included. -/
def typeDeclarations (t : SyntaxTree) : List TypeDeclaration :=
  t.nodes.filterMap Node.typeDeclaration?

/-- The syntax errors as diagnostics. -/
def diagnostics (t : SyntaxTree) : List Diagnostic :=
  t.errors.map fun e => e.diagnostic t.path

/-! ## Equivalence -/

/-- The number of tokens on which two lists agree before they part; none if
    they are the same. -/
def differenceAt? : List Token → List Token → Option Nat
  | [], [] => none
  | t :: ts, u :: us => if t.agrees u then (differenceAt? ts us).map (· + 1) else some 0
  | _, _ => some 0

/-- Were the trees read from the same tokens? -/
def isEquivalent (t u : SyntaxTree) : Bool :=
  (differenceAt? t.tokens u.tokens).isNone

/-- The first tokens in which the trees differ.  Where one tree has no more
    tokens, its last one stands in. -/
def firstDifference? (t u : SyntaxTree) : Option (Token × Token) := do
  let n ← differenceAt? t.tokens u.tokens
  let left ← t.tokens[min n (t.tokens.length - 1)]?
  let right ← u.tokens[min n (u.tokens.length - 1)]?
  some (left, right)

end SyntaxTree

/-- What tells declarations of types and delegates apart: the tree, and the
    offset in its text. -/
structure NodeKey where
  tree : Nat
  offset : Nat
deriving DecidableEq, Repr

/-- The key of a declaration with this stretch in the tree. -/
def SyntaxTree.key (t : SyntaxTree) (span : Span) : NodeKey :=
  ⟨t.id, span.offset⟩

end CommandModules

/-
  Command modules — compilations.

  A compilation is a list of source trees, bound together and against
  references.  A reference stands for a library: its types can be named, but its
  trees are not shown to generators and it has no diagnostics.

  * `CompilationSymbols.of` declares all trees, sources first so that their types
    hide those of references, and then binds the bases;
  * a `Compilation` carries these symbols; it can only be made with the symbols
    of its own trees;
  * `Compilation.symbolOf?` and `Compilation.treeOf?` lead from a declaration to
    its type and its tree, `Compilation.typeNamed?` from a metadata name.
-/
import CommandModules.Compilation.Bases
import CommandModules.Settings

namespace CommandModules

/-- A library that a compilation refers to, described by declarations. -/
structure Reference where
  name : String
  trees : List SyntaxTree

/-! ## The symbols of trees -/

/-- What the trees of a compilation declare. -/
structure CompilationSymbols where
  table : SymbolTable
  /-- the declarations that were accepted -/
  declared : List (NodeKey × TypeId)
  /-- what was wrong with declarations, then with bases -/
  diagnostics : List Diagnostic

/-- The trees of a compilation in the order of their numbers: the sources, then
    those of each reference. -/
def numberedTrees (sources : List SyntaxTree) (references : List Reference) :
    List (SyntaxTree × Origin) :=
  sources.map (·, Origin.source) ++
    (references.flatMap Reference.trees).map (·, Origin.metadata)

/-- Declare trees, of which the first has the given number. -/
def declareTrees (table : SymbolTable) (number : Nat) :
    List (SyntaxTree × Origin) → SymbolTable × List (Origin × TreeDeclarations)
  | [] => (table, [])
  | (tree, origin) :: trees =>
    let (table, found) := declareTree table number tree origin
    let (table, rest) := declareTrees table (number + 1) trees
    (table, (origin, found) :: rest)

/-- The global using directives that take effect: those of sources. -/
def effectiveUsings (found : List (Origin × TreeDeclarations)) : List Using :=
  found.flatMap fun f =>
    match f.1 with
    | .source => f.2.globalUsings
    | .metadata => []

/-- The symbols of sources and references. -/
def CompilationSymbols.of (sources : List SyntaxTree) (references : List Reference) :
    CompilationSymbols :=
  let (table, found) := declareTrees .empty 0 (numberedTrees sources references)
  let binding := bindBases table (effectiveUsings found) (found.flatMap fun f => f.2.pending)
  { table := binding.table
    declared := found.flatMap fun f => f.2.accepted
    diagnostics := (found.flatMap fun f => f.2.diagnostics) ++ binding.diagnostics }

/-! ## Compilations -/

/-- Sources bound together and against references. -/
structure Compilation where
  sources : List SyntaxTree
  references : List Reference
  settings : Settings
  symbols : CompilationSymbols
  symbols_eq : symbols = .of sources references

namespace Compilation

/-- Bind sources against references. -/
def of (sources : List SyntaxTree) (references : List Reference) (settings : Settings) :
    Compilation :=
  ⟨sources, references, settings, .of sources references, rfl⟩

variable (c : Compilation)

/-- The declared types. -/
def table : SymbolTable :=
  c.symbols.table

/-- The compilation with more sources, behind those it has. -/
def withSources (trees : List SyntaxTree) : Compilation :=
  .of (c.sources ++ trees) c.references c.settings

/-- The compilation with other settings. -/
def withSettings (settings : Settings) : Compilation :=
  { c with settings }

/-! ## Trees -/

/-- All trees, in the order of their numbers. -/
def trees : List SyntaxTree :=
  c.sources ++ c.references.flatMap Reference.trees

/-- The tree numbered `n`. -/
def tree? (n : Nat) : Option SyntaxTree :=
  c.trees[n]?

/-- An id that no tree of the compilation has. -/
def freshId : Nat :=
  c.trees.foldl (fun n t => max n (t.id + 1)) 0

/-- What is wrong with the sources: their syntax errors, then what was wrong
    with declarations and bases. -/
def diagnostics : List Diagnostic :=
  c.sources.flatMap SyntaxTree.diagnostics ++ c.symbols.diagnostics

/-! ## Types of declarations -/

/-- The type that a declaration declares, if it was accepted. -/
def symbolOf? (key : NodeKey) : Option TypeSymbol := do
  c.table.get? (← c.symbols.declared.lookup key)

/-- The tree of a declaration that was accepted. -/
def treeOf? (key : NodeKey) : Option SyntaxTree := do
  let symbol ← c.symbolOf? key
  let site ← symbol.declarations.find? fun d => d.key == key
  c.tree? site.tree

/-! ## Types by name -/

/-- A full metadata name taken apart: the namespace, and the type with those it
    is nested in, the outermost first. -/
def splitMetadataName (name : String) : List String × List String :=
  let head := name.toList.takeWhile (· ≠ '+')
  let rest := name.toList.dropWhile (· ≠ '+')
  let pieces := Text.splitChars '.' head
  let namespace_ := pieces.dropLast.filter fun piece => !piece.isEmpty
  let types := Text.splitChars '+' (pieces.getLast?.getD [] ++ rest)
  (namespace_.map String.ofList, types.map String.ofList)

/-- The type reached from a type through these nested types. -/
def nestedType? (id : TypeId) : List String → Option TypeId
  | [] => some id
  | name :: names => do nestedType? (← (← c.table.get? id).nested? name) names

/-- The type with this full metadata name: dots between namespaces, `+` before a
    nested type, and arities. -/
def typeNamed? (name : String) : Option TypeSymbol :=
  match splitMetadataName name with
  | (path, outermost :: nested) => do
    let n ← c.table.namespaces.find? path
    let id ← c.table.namespaces.typeIn? n outermost
    c.table.get? (← c.nestedType? id nested)
  | (_, []) => none

end Compilation

end CommandModules

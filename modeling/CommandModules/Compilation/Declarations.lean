/-
  Command modules — what a tree declares.

  The types and delegates of a tree enter the table of symbols in the order of
  the text, a type before what is nested in it.  A base may be declared later, so
  lists of bases are put aside together with the using directives around them.

  * `declareTree` goes through a tree; it returns the new table and what it
    found, `TreeDeclarations`;
  * nothing in a type that is refused is declared;
  * a refusal in a reference is silent: there a source has declared the type.
-/
import CommandModules.Symbol.Resolve

namespace CommandModules

/-- Using directives that stand together, and the namespace they stand in. -/
structure UsingBlock where
  /-- the number of the namespace -/
  namespace_ : Nat
  usings : List Using

/-- A list of bases that is still to be bound. -/
structure PendingBases where
  /-- the number of the tree in the compilation -/
  tree : Nat
  path : String
  type : TypeId
  declaration : TypeDeclaration
  /-- the number of the namespace around the declaration -/
  namespace_ : Nat
  containing? : Option TypeId
  /-- the using directives around the declaration, the innermost first -/
  usings : List UsingBlock

/-- What going through a tree has found. -/
structure TreeDeclarations where
  /-- the declarations that were accepted -/
  accepted : List (NodeKey × TypeId)
  pending : List PendingBases
  globalUsings : List Using
  diagnostics : List Diagnostic

/-- Nothing is found yet. -/
def TreeDeclarations.empty : TreeDeclarations := ⟨[], [], [], []⟩

/-- The table so far, and what was found so far. -/
structure Declaring where
  table : SymbolTable
  found : TreeDeclarations

/-- Where in a compilation a declaration stands. -/
structure Surroundings where
  /-- the number of the tree in the compilation -/
  number : Nat
  tree : SyntaxTree
  origin : Origin
  /-- the number of the namespace -/
  namespace_ : Nat
  usings : List UsingBlock

namespace Surroundings

variable (w : Surroundings)

/-- A new type at this place. -/
def newType (outer? : Option TypeId) (kind : TypeKind) (name : Ident) (arity : Nat)
    (modifiers : WrittenModifiers) (span : Span) : NewType where
  namespace_ := w.namespace_
  containing? := outer?
  name := name.value
  arity := arity
  kind := kind
  modifiers := modifiers.flags
  origin := w.origin
  site := ⟨w.number, w.tree.key span, span⟩

/-- The type declared by a type declaration. -/
def ofType (outer? : Option TypeId) (t : TypeDeclaration) : NewType :=
  w.newType outer? t.kind t.name t.arity t.modifiers t.span

/-- The type declared by a delegate. -/
def ofDelegate (outer? : Option TypeId) (d : Delegate) : NewType :=
  w.newType outer? .delegate d.name d.typeParameters.length d.modifiers d.span

/-- Behind the using directives `usings`. -/
def withUsings (usings : List Using) : Surroundings :=
  if usings.isEmpty then w else { w with usings := ⟨w.namespace_, usings⟩ :: w.usings }

end Surroundings

namespace Declaring

variable (s : Declaring)

/-- Declare a type, or report why it is refused. -/
def declare (w : Surroundings) (d : NewType) : Option TypeId × Declaring :=
  match s.table.declare d with
  | .ok (id, table) =>
    (some id, ⟨table, { s.found with accepted := s.found.accepted ++ [(d.site.key, id)] }⟩)
  | .error e =>
    match w.origin with
    | .source =>
      let diagnostics := s.found.diagnostics ++ [e.diagnostic w.tree.path]
      (none, { s with found := { s.found with diagnostics } })
    | .metadata => (none, s)

/-- Put the bases of a declaration aside, if it has some. -/
def putAside (w : Surroundings) (outer? : Option TypeId) (id : TypeId) (t : TypeDeclaration) :
    Declaring :=
  if t.bases.isEmpty then s
  else
    let bases := ⟨w.number, w.tree.path, id, t, w.namespace_, outer?, w.usings⟩
    { s with found := { s.found with pending := s.found.pending ++ [bases] } }

/-- Note the global ones among using directives. -/
def noteUsings (usings : List Using) : Declaring :=
  let globalUsings := s.found.globalUsings ++ usings.filter Using.isGlobal
  { s with found := { s.found with globalUsings } }

/-- Add the namespace with this path below the one numbered `n`. -/
def enterNamespace (n : Nat) (path : List String) : Declaring × Nat :=
  let (namespaces, inner) := s.table.namespaces.createPath n path
  ({ s with table := { s.table with namespaces } }, inner)

end Declaring

/-! ## Going through a tree -/

mutual

/-- Declare a type and what is nested in it. -/
def declareType (w : Surroundings) (outer? : Option TypeId) (s : Declaring) :
    TypeDeclaration → Declaring
  | t@⟨_, _, _, _, _, _, _, _, members, _⟩ =>
    match s.declare w (w.ofType outer? t) with
    | (some id, s) => declareMembers w id (s.putAside w outer? id t) members
    | (none, s) => s

/-- Declare a nested type or delegate. -/
def declareMember (w : Surroundings) (outer : TypeId) (s : Declaring) : Member → Declaring
  | .type t => declareType w (some outer) s t
  | .delegate d => (s.declare w (w.ofDelegate (some outer) d)).2
  | _ => s

/-- Declare the nested types and delegates of a type. -/
def declareMembers (w : Surroundings) (outer : TypeId) (s : Declaring) : List Member → Declaring
  | [] => s
  | m :: ms => declareMembers w outer (declareMember w outer s m) ms

end

mutual

/-- Declare what a namespace holds. -/
def declareNamespace (w : Surroundings) (s : Declaring) : NamespaceDeclaration → Declaring
  | ⟨name, _, usings, members, _⟩ =>
    let (s, inner) := s.enterNamespace w.namespace_ name.path
    let w := { w with namespace_ := inner }
    declareAll (w.withUsings usings) (s.noteUsings usings) members

/-- Declare a type, a delegate or what a namespace holds. -/
def declareOne (w : Surroundings) (s : Declaring) : Declaration → Declaring
  | .namespace_ n => declareNamespace w s n
  | .type t => declareType w none s t
  | .delegate d => (s.declare w (w.ofDelegate none d)).2

/-- Declare what stands in a unit or a namespace. -/
def declareAll (w : Surroundings) (s : Declaring) : List Declaration → Declaring
  | [] => s
  | d :: ds => declareAll w (declareOne w s d) ds

end

/-- Declare the types of a tree, the one numbered `number` in the
    compilation. -/
def declareTree (table : SymbolTable) (number : Nat) (tree : SyntaxTree) (origin : Origin) :
    SymbolTable × TreeDeclarations :=
  let outside : Surroundings := ⟨number, tree, origin, Namespaces.root, []⟩
  let usings := tree.root.usings
  let start := (Declaring.mk table .empty).noteUsings usings
  let s := declareAll (outside.withUsings usings) start tree.root.members
  (s.table, s.found)

end CommandModules

/-
  Command modules — binding lists of bases.

  Once all trees are declared, each list of bases is looked up from the place
  where it was written.  What is not found stays in the list by its name.

  * `GlobalUsings.of` makes the global using directives visible everywhere;
  * `PendingBases.bind` looks a list up; tables that differ in bases alone give
    the same answer, so the order of binding does not matter;
  * `BoundBases.base?` and `BoundBases.interfaces` divide a bound list: a class
    or record has a base class if the first entry is a class or record or was
    not found;
  * `SymbolTable.contribute` adds the list of one declaration to its type.
-/
import CommandModules.Compilation.Declarations

namespace CommandModules

/-- The parts of a name; an alias other than `global` is the first one. -/
def Name.parts (n : Name) : List NamePart :=
  let segments := n.segments.map fun s => NamePart.mk s.ident.value s.arity
  match n.alias? with
  | some a => if n.isGlobal then segments else ⟨a.value, 0⟩ :: segments
  | none => segments

/-! ## Using directives -/

namespace SymbolTable

variable (t : SymbolTable)

/-- The namespace that a using directive in the namespace numbered `n` names:
    it is looked for there and further out. -/
def usingNamespace? (name : Name) (n : Nat) : Option Nat :=
  if name.isGlobal then t.namespaces.find? name.path
  else (t.namespaces.enclosing n).findSome? fun m => t.namespaces.descend? m name.path

/-- What an alias declared in the namespace numbered `n` stands for. -/
def aliasTarget? (name : Name) (n : Nat) : Option Place :=
  match t.usingNamespace? name n with
  | some m => some (.namespace_ m)
  | none => (t.resolveName name.parts name.isGlobal (.ofNamespace n)).get?.map .type

/-- The aliases that using directives in the namespace numbered `n` declare. -/
def aliases (n : Nat) (usings : List Using) : List (String × Place) :=
  usings.filterMap fun u => do
    let name ← u.alias?
    let place ← t.aliasTarget? u.name n
    some (name.value, place)

/-- The namespaces that using directives in the namespace numbered `n`
    import. -/
def imports (n : Nat) (usings : List Using) : List Nat :=
  usings.filterMap fun u =>
    if u.alias?.isSome then none else t.usingNamespace? u.name n

end SymbolTable

/-- A table in which namespaces are imported everywhere, and the aliases that
    are known everywhere. -/
structure GlobalUsings where
  table : SymbolTable
  aliases : List (String × Place)

namespace GlobalUsings

/-- One more global using directive.  A static one has no effect. -/
def add (g : GlobalUsings) (u : Using) : GlobalUsings :=
  if u.isStatic then g
  else
    match u.alias? with
    | some _ => { g with aliases := g.aliases ++ g.table.aliases Namespaces.root [u] }
    | none =>
      match g.table.usingNamespace? u.name Namespaces.root with
      | some n =>
        let namespaces := g.table.namespaces.addGlobalUsing n
        { g with table := { g.table with namespaces } }
      | none => g

/-- The effect of global using directives on a table. -/
def of (t : SymbolTable) (usings : List Using) : GlobalUsings :=
  usings.foldl add ⟨t, []⟩

end GlobalUsings

/-! ## Looking bases up -/

/-- A using directive for one file that brings in a namespace or an alias. -/
def Using.isLocal (u : Using) : Bool :=
  !u.isStatic && !u.isGlobal

/-- The scope in which a list of bases was written. -/
def PendingBases.scope (p : PendingBases) (g : GlobalUsings) : Scope where
  namespace_ := p.namespace_
  containing? := p.containing?
  imports := p.usings.flatMap fun b => g.table.imports b.namespace_ (b.usings.filter Using.isLocal)
  aliases :=
    (p.usings.flatMap fun b => g.table.aliases b.namespace_ (b.usings.filter Using.isLocal)) ++
      g.aliases

/-- The diagnostic about a name in the file at `path` that has several
    meanings. -/
def ambiguousBase (path : String) (type : TypeSyntax) (meanings : List String) : Diagnostic :=
  let choices := " and ".intercalate meanings
  ⟨"MG2002", .error, s!"'{type.text}' is an ambiguous reference between {choices}",
    some ⟨path, type.span⟩⟩

/-- What an entry of a list of bases refers to. -/
def SymbolTable.bindBase (t : SymbolTable) (scope : Scope) (path : String) (type : TypeSyntax) :
    TypeRef × List Diagnostic :=
  match type.name? with
  | none => (.unresolved ⟨type.text, type.text, 0⟩, [])
  | some name =>
    let missing := TypeRef.unresolved ⟨name.simpleName, type.text, name.lastArity⟩
    match t.resolveName name.parts name.isGlobal scope with
    | .found id => (.named id, [])
    | .ambiguous meanings =>
      (missing, [ambiguousBase path type (meanings.map fun m => t.qualifiedName m.2)])
    | .notFound => (missing, [])

/-- A list of bases of a type, looked up. -/
structure BoundBases where
  type : TypeId
  kind : TypeKind
  refs : List TypeRef
  diagnostics : List Diagnostic

/-- Look a list of bases up. -/
def PendingBases.bind (p : PendingBases) (g : GlobalUsings) : BoundBases :=
  let scope := p.scope g
  let bound := p.declaration.bases.map (g.table.bindBase scope p.path)
  ⟨p.type, p.declaration.kind, bound.map Prod.fst, bound.flatMap Prod.snd⟩

/-! ## Base class and interfaces -/

/-- Can the first entry of a list of bases be a base class? -/
def SymbolTable.isBaseClass (t : SymbolTable) : TypeRef → Bool
  | .named id => (t.kind? id).any TypeKind.isClass
  | .unresolved _ => true

namespace BoundBases

variable (b : BoundBases) (t : SymbolTable)

/-- The base class in the list. -/
def base? : Option TypeRef :=
  if b.kind.isClass then b.refs.head?.filter t.isBaseClass else none

/-- The interfaces in the list: all but the base class. -/
def interfaces : List TypeRef :=
  if (b.base? t).isSome then b.refs.tail else b.refs

end BoundBases

/-- The list with those of `new` added that are not there. -/
def appendMissing (old new : List TypeRef) : List TypeRef :=
  new.foldl (fun refs r => if refs.contains r then refs else refs ++ [r]) old

/-- Add the bases of one declaration to those of its type. -/
def SymbolTable.contribute (t : SymbolTable) (b : BoundBases) : SymbolTable :=
  t.modify b.type fun s =>
    { s with
      base? := (b.base? t).or s.base?
      interfaces := appendMissing s.interfaces (b.interfaces t) }

/-! ## All lists of bases -/

/-- What binding all lists of bases gives. -/
structure Binding where
  table : SymbolTable
  bases : List BoundBases

namespace Binding

/-- The entries of all lists. -/
def refs (b : Binding) : List TypeRef :=
  b.bases.flatMap BoundBases.refs

/-- The number of entries that were found. -/
def found (b : Binding) : Nat :=
  b.refs.countP fun r => !r.isUnresolved

/-- The number of entries that were not found. -/
def unresolved (b : Binding) : Nat :=
  b.refs.countP TypeRef.isUnresolved

/-- What was wrong with the lists. -/
def diagnostics (b : Binding) : List Diagnostic :=
  b.bases.flatMap BoundBases.diagnostics

end Binding

/-- Bind all lists of bases, with the given global using directives. -/
def bindBases (t : SymbolTable) (usings : List Using) (pending : List PendingBases) : Binding :=
  let g := GlobalUsings.of t usings
  let bases := pending.map fun p => p.bind g
  ⟨bases.foldl SymbolTable.contribute g.table, bases⟩

end CommandModules

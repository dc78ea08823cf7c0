/-
  Command modules — what a name means.

  A name is looked up from a scope: a namespace, perhaps a type in it, and the
  using directives around it.

  * `Namespaces.resolveType` looks for a type in the enclosing namespaces and
    then among the imports, where several different types are ambiguous;
  * `SymbolTable.resolveSimple` looks for nested types and aliases before;
  * `SymbolTable.resolveName` follows a dotted name.
-/
import CommandModules.Symbol.Table

namespace CommandModules

/-- What a name means. -/
inductive Resolution (α : Type) where
  | found (a : α)
  /-- several namespaces that are imported give the name different meanings -/
  | ambiguous (meanings : List (Nat × α))
  | notFound
deriving DecidableEq, Repr

namespace Resolution

variable {α β : Type}

/-- Was one meaning found? -/
def isFound : Resolution α → Bool
  | found _ => true
  | _ => false

/-- Are there several meanings? -/
def isAmbiguous : Resolution α → Bool
  | ambiguous _ => true
  | _ => false

/-- Is there no meaning? -/
def isNotFound : Resolution α → Bool
  | notFound => true
  | _ => false

/-- The meaning, if there is exactly one. -/
def get? : Resolution α → Option α
  | found a => some a
  | _ => none

/-- Change every meaning. -/
def map (f : α → β) : Resolution α → Resolution β
  | found a => found (f a)
  | ambiguous meanings => ambiguous (meanings.map fun m => (m.1, f m.2))
  | notFound => notFound

end Resolution

/-- What an alias stands for, and what a part of a dotted name leads to. -/
inductive Place where
  | namespace_ (n : Nat)
  | type (id : TypeId)
deriving DecidableEq, Repr

/-- The type, if the place is one. -/
def Place.type? : Place → Option TypeId
  | type id => some id
  | namespace_ _ => none

/-- Where a name is looked up. -/
structure Scope where
  /-- the number of the namespace -/
  namespace_ : Nat
  /-- the innermost type around the name -/
  containing? : Option TypeId
  /-- the namespaces imported by the file -/
  imports : List Nat
  /-- the aliases, the innermost first -/
  aliases : List (String × Place)

/-- The scope of a namespace, without using directives. -/
def Scope.ofNamespace (n : Nat) : Scope :=
  ⟨n, none, [], []⟩

/-- A part of a dotted name: an identifier and the number of its type
    arguments. -/
structure NamePart where
  name : String
  arity : Nat
deriving DecidableEq, Repr

/-- The part as the name of a type in metadata. -/
def NamePart.metadataName (p : NamePart) : String :=
  CommandModules.metadataName p.name p.arity

/-! ## Namespaces -/

namespace Namespaces

variable (s : Namespaces)

/-- The meanings without those that repeat an earlier one. -/
def distinct : List (Nat × TypeId) → List (Nat × TypeId)
  | [] => []
  | m :: ms => m :: (distinct ms).filter fun n => n.2 != m.2

/-- The different types of this metadata name in the namespaces. -/
def typesIn (name : String) (ns : List Nat) : List (Nat × TypeId) :=
  distinct (ns.filterMap fun n => (s.typeIn? n name).map fun id => (n, id))

/-- The type of this metadata name in the nearest enclosing namespace that has
    one; else in those that the file, then all files, import. -/
def resolveType (name : String) (scope : Scope) : Resolution TypeId :=
  match (s.enclosing scope.namespace_).findSome? fun n => s.typeIn? n name with
  | some id => .found id
  | none =>
    match s.typesIn name (scope.imports ++ s.globalUsings) with
    | [] => .notFound
    | [m] => .found m.2
    | ms => .ambiguous ms

/-- The type of this metadata name; of several, the first. -/
def resolveFirstType? (name : String) (scope : Scope) : Option TypeId :=
  match s.resolveType name scope with
  | .found id => some id
  | .ambiguous ms => ms.head?.map Prod.snd
  | .notFound => none

/-- The namespace called `name` in the nearest enclosing namespace that has
    one. -/
def resolveNamespace? (name : String) (scope : Scope) : Option Nat :=
  (s.enclosing scope.namespace_).findSome? fun n => s.child? n name

end Namespaces

/-! ## Symbols -/

namespace SymbolTable

variable (t : SymbolTable)

/-- The type of this metadata name nested in the given type or in one of the
    `depth` types around it. -/
def nestedAround? (name : String) : Nat → Option TypeId → Option TypeId
  | 0, _ | _, none => none
  | depth + 1, some id => do
    let s ← t.get? id
    match s.nested? name with
    | some nested => some nested
    | none => nestedAround? name depth s.containing?

/-- The alias called by a part without type arguments. -/
def aliased? (part : NamePart) (scope : Scope) : Option Place :=
  if part.arity = 0 then scope.aliases.lookup part.name else none

/-- What a name of one part means: a type nested in the types around it, else
    an alias of a type, else a type in scope. -/
def resolveSimple (part : NamePart) (scope : Scope) : Resolution TypeId :=
  match t.nestedAround? part.metadataName (t.types.length + 1) scope.containing? with
  | some id => .found id
  | none =>
    match aliased? part scope with
    | some (.type id) => .found id
    | _ => t.namespaces.resolveType part.metadataName scope

/-- What the part of a name leads to from a place. -/
def member? (place : Place) (part : NamePart) : Option Place :=
  match place with
  | .namespace_ n =>
    match t.namespaces.typeIn? n part.metadataName with
    | some id => some (.type id)
    | none =>
      if part.arity = 0 then (t.namespaces.child? n part.name).map .namespace_ else none
  | .type id => do
    let s ← t.get? id
    (s.nested? part.metadataName).map .type

/-- What the parts of a name lead to from a place. -/
def follow? (place : Place) : List NamePart → Option Place
  | [] => some place
  | part :: parts => do follow? (← t.member? place part) parts

/-- The first part of a dotted name: an alias, else a type, else a
    namespace. -/
def resolveLeading (part : NamePart) (scope : Scope) : Resolution Place :=
  match aliased? part scope with
  | some place => .found place
  | none =>
    match t.resolveSimple part scope with
    | .notFound =>
      if part.arity = 0 then
        match t.namespaces.resolveNamespace? part.name scope with
        | some n => .found (.namespace_ n)
        | none => .notFound
      else .notFound
    | found => found.map .type

/-- The type at a place, if there is one. -/
def typeAt (place? : Option Place) : Resolution TypeId :=
  match place?.bind Place.type? with
  | some id => .found id
  | none => .notFound

/-- What a dotted name means.  One written with `global::` is looked up from the
    global namespace. -/
def resolveName (parts : List NamePart) (isGlobal : Bool) (scope : Scope) : Resolution TypeId :=
  match parts with
  | [] => .notFound
  | first :: rest =>
    if isGlobal then typeAt (t.follow? (.namespace_ Namespaces.root) (first :: rest))
    else if rest.isEmpty then t.resolveSimple first scope
    else
      match t.resolveLeading first scope with
      | .found place => typeAt (t.follow? place rest)
      | .ambiguous meanings =>
        .ambiguous (meanings.filterMap fun m => m.2.type?.map fun id => (m.1, id))
      | .notFound => .notFound

end SymbolTable

end CommandModules

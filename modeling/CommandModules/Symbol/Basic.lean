/-
  Command modules — type symbols.

  A symbol stands for a declared type, with all parts of its declaration merged.
  A `TypeRef` refers to a type from a list of bases: to a symbol, or, if none was
  found, to the name as it was written.
-/
import CommandModules.Modifier
import CommandModules.TypeKind
import CommandModules.Syntax.Tree
import CommandModules.Symbol.Hash

namespace CommandModules

/-- Where a symbol was declared. -/
inductive Origin where
  /-- in a source of the compilation -/
  | source
  /-- in something the compilation refers to -/
  | metadata
deriving DecidableEq, Repr

/-- A declaration of a type: the number of its tree in the compilation, the node
    and its stretch. -/
structure DeclarationSite where
  tree : Nat
  key : NodeKey
  span : Span
deriving DecidableEq, Repr

/-- A type that was not found, by the name that was written. -/
structure UnresolvedType where
  /-- the last identifier -/
  name : String
  /-- all that was written -/
  text : String
  arity : Nat
deriving DecidableEq, Repr

/-- What an entry of a list of bases refers to. -/
inductive TypeRef where
  | named (id : TypeId)
  | unresolved (type : UnresolvedType)
deriving DecidableEq, Repr

namespace TypeRef

/-- The type referred to, if it was found. -/
def id? : TypeRef → Option TypeId
  | named id => some id
  | unresolved _ => none

/-- Was the type not found? -/
def isUnresolved (r : TypeRef) : Bool :=
  r.id?.isNone

end TypeRef

/-- A declared type. -/
structure TypeSymbol where
  id : TypeId
  /-- the name without arity -/
  name : String
  arity : Nat
  kind : TypeKind
  /-- the number of the namespace -/
  namespace_ : Nat
  containing? : Option TypeId
  accessibility : Accessibility
  /-- the modifiers of all declarations together -/
  modifiers : Modifiers
  origin : Origin
  declarations : List DeclarationSite
  /-- the base class, once bound -/
  base? : Option TypeRef
  interfaces : List TypeRef
  /-- the nested types by metadata name, in the order of declaration -/
  nested : List (String × TypeId)
deriving DecidableEq, Repr

namespace TypeSymbol

/-- The name with the arity. -/
def metadataName (s : TypeSymbol) : String :=
  CommandModules.metadataName s.name s.arity

/-- Interfaces are abstract, and so is what is declared so. -/
def isAbstract (s : TypeSymbol) : Bool :=
  s.modifiers.contains .abstract || s.kind == .interface

/-- Is the type declared `sealed`? -/
def isSealed (s : TypeSymbol) : Bool :=
  s.modifiers.contains .sealed

/-- Is the type declared `static`? -/
def isStatic (s : TypeSymbol) : Bool :=
  s.modifiers.contains .static

/-- May the type have several declarations? -/
def isPartial (s : TypeSymbol) : Bool :=
  s.modifiers.contains .partial_

/-- Is the type nested in another one? -/
def isNested (s : TypeSymbol) : Bool :=
  s.containing?.isSome

/-- The nested type with this metadata name. -/
def nested? (s : TypeSymbol) (name : String) : Option TypeId :=
  s.nested.lookup name

end TypeSymbol

end CommandModules

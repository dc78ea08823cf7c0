/-
  Command modules — the table of declared types.

  A symbol is kept under the identity of its type, and the identities stand in the
  order of their first declaration.  Declaring a type that is there merges the
  declarations, if all are partial and agree.

  * `SymbolTable.declare` adds a declaration or refuses it; a refusal leaves the
    table as it was;
  * `SymbolTable.qualifiedName` is the dotted name of a type;
  * `SymbolTable.baseChain` are the base classes of a type, the nearest first.
-/
import CommandModules.Diagnostic
import CommandModules.Symbol.Basic
import CommandModules.Symbol.Namespace

namespace CommandModules

/-! ## Refused declarations -/

/-- Why a declaration is refused. -/
inductive SymbolErrorCause where
  /-- the type is there, and one of the two declarations is not partial -/
  | duplicateType
  /-- the kinds differ -/
  | partialKindMismatch
  /-- the accessibilities that are written differ -/
  | conflictingAccessibility
deriving DecidableEq, Repr

/-- A refused declaration. -/
structure SymbolError where
  cause : SymbolErrorCause
  /-- the dotted name of the type -/
  name : String
  span : Span
deriving DecidableEq, Repr

namespace SymbolError

/-- The error as it is shown. -/
def message (e : SymbolError) : String :=
  match e.cause with
  | .duplicateType => s!"type '{e.name}' is declared more than once"
  | .partialKindMismatch => s!"partial declarations of '{e.name}' must all be the same kind"
  | .conflictingAccessibility =>
    s!"partial declarations of '{e.name}' have conflicting accessibility"

/-- The error as a diagnostic about the file at `path`. -/
def diagnostic (e : SymbolError) (path : String) : Diagnostic :=
  ⟨"MG2001", .error, e.message, some ⟨path, e.span⟩⟩

end SymbolError

/-! ## The table -/

/-- The declared types of a compilation and the namespaces they are in. -/
structure SymbolTable where
  namespaces : Namespaces
  /-- the symbols by the identities of their types -/
  types : List (TypeId × TypeSymbol)
  /-- the identities in the order of their first declaration -/
  order : List TypeId

/-- A declaration of a type. -/
structure NewType where
  /-- the number of the namespace -/
  namespace_ : Nat
  containing? : Option TypeId
  name : String
  arity : Nat
  kind : TypeKind
  modifiers : Modifiers
  origin : Origin
  site : DeclarationSite

namespace SymbolTable

/-- The global namespace, and no types. -/
def empty : SymbolTable := ⟨.empty, [], []⟩

variable (t : SymbolTable)

/-- The symbol of a type. -/
def get? (id : TypeId) : Option TypeSymbol :=
  t.types.lookup id

/-- The table with the symbol of one type changed. -/
def modify (id : TypeId) (f : TypeSymbol → TypeSymbol) : SymbolTable :=
  { t with types := t.types.map fun e => if e.1 = id then (e.1, f e.2) else e }

/-- The symbols in the order of their first declaration. -/
def symbols : List TypeSymbol :=
  t.order.filterMap t.get?

/-- The number of types. -/
def size : Nat :=
  t.order.length

/-! ## Names -/

/-- The dotted name of a type nested less than `depth` levels deep. -/
def qualifiedNameWithin : Nat → TypeId → String
  | 0, _ => ""
  | depth + 1, id =>
    match t.get? id with
    | none => ""
    | some s =>
      match s.containing? with
      | some outer => qualifiedNameWithin depth outer ++ "." ++ s.name
      | none => t.namespaces.qualified s.namespace_ s.name

/-- The dotted name of a type, with its namespaces and the types around it, and
    without arities.  A type that is not declared has no name. -/
def qualifiedName (id : TypeId) : String :=
  t.qualifiedNameWithin (t.types.length + 1) id

/-- The simple name of what is referred to, found or not. -/
def simpleName : TypeRef → String
  | .named id => ((t.get? id).map TypeSymbol.name).getD ""
  | .unresolved type => type.name

/-! ## Declaring types -/

/-- The identity of a declared type: a type in a namespace is known by its full
    name, a nested type by the one around it and its own name. -/
def idOf (d : NewType) : TypeId :=
  let name := metadataName d.name d.arity
  match d.containing? with
  | some outer => .nested outer name
  | none => .ofName (t.namespaces.qualified d.namespace_ name)

/-- The symbol of a first declaration. -/
def symbolOf (d : NewType) : TypeSymbol :=
  let implied := if d.containing?.isSome then .private_ else .internal
  { id := t.idOf d
    name := d.name
    arity := d.arity
    kind := d.kind
    namespace_ := d.namespace_
    containing? := d.containing?
    accessibility := d.modifiers.accessibility?.getD implied
    modifiers := d.modifiers
    origin := d.origin
    declarations := [d.site]
    base? := none
    interfaces := []
    nested := [] }

/-- Do two sets of modifiers spell different accessibilities? -/
def conflict (old new : Modifiers) : Bool :=
  match old.accessibility?, new.accessibility? with
  | some a, some b => a != b
  | _, _ => false

/-- Why the type of a symbol cannot have the declaration too. -/
def refusal? (s : TypeSymbol) (d : NewType) : Option SymbolErrorCause :=
  if !s.isPartial || !d.modifiers.contains .partial_ then some .duplicateType
  else if s.kind ≠ d.kind then some .partialKindMismatch
  else if conflict s.modifiers d.modifiers then some .conflictingAccessibility
  else none

/-- The symbol with one more declaration. -/
def merge (s : TypeSymbol) (d : NewType) : TypeSymbol :=
  let modifiers := s.modifiers.union d.modifiers
  { s with
    modifiers
    accessibility := modifiers.accessibility?.getD s.accessibility
    declarations := s.declarations ++ [d.site] }

/-- Enter a new type under its name, in its namespace or the type around it. -/
def enterName (d : NewType) : SymbolTable :=
  let name := metadataName d.name d.arity
  match d.containing? with
  | some outer =>
    t.modify outer fun s => { s with nested := s.nested ++ [(name, t.idOf d)] }
  | none => { t with namespaces := t.namespaces.register d.namespace_ name (t.idOf d) }

/-- Declare a type: a new one, or one more part of a type that is there. -/
def declare (d : NewType) : Except SymbolError (TypeId × SymbolTable) :=
  let id := t.idOf d
  match t.get? id with
  | some s =>
    match refusal? s d with
    | some cause => .error ⟨cause, t.qualifiedName id, d.site.span⟩
    | none => .ok (id, t.modify id fun s => merge s d)
  | none =>
    let entered := t.enterName d
    .ok (id, { entered with
      types := entered.types ++ [(id, t.symbolOf d)]
      order := entered.order ++ [id] })

/-- Set the base class and the interfaces of a type. -/
def setBases (id : TypeId) (base? : Option TypeRef) (interfaces : List TypeRef) : SymbolTable :=
  t.modify id fun s => { s with base?, interfaces }

/-! ## Base classes -/

/-- What the base class of a type is. -/
def base? (id : TypeId) : Option TypeRef :=
  (t.get? id).bind TypeSymbol.base?

/-- At most `fuel` base classes from `next?` on, up to a type in `visited`. -/
def baseChainFrom : Nat → List TypeId → Option TypeRef → List TypeRef
  | 0, _, _ => []
  | _ + 1, _, none => []
  | _ + 1, _, some (.unresolved type) => [.unresolved type]
  | fuel + 1, visited, some (.named id) =>
    if visited.contains id then []
    else .named id :: baseChainFrom fuel (id :: visited) (t.base? id)

/-- The base classes of a type, the nearest first.  They end with a type that
    was not found, with a type that has no base, or before one that repeats. -/
def baseChain (id : TypeId) : List TypeRef :=
  t.baseChainFrom (t.types.length + 1) [id] (t.base? id)

/-- Is the type the other one, or derived from it? -/
def derivesFrom (id ancestor : TypeId) : Bool :=
  id == ancestor || (t.baseChain id).any fun r => r.id? == some ancestor

/-- Is the type declared in a source? -/
def isSource (id : TypeId) : Bool :=
  (t.get? id).any fun s => s.origin == .source

/-- The kind of a type. -/
def kind? (id : TypeId) : Option TypeKind :=
  (t.get? id).map TypeSymbol.kind

end SymbolTable

end CommandModules

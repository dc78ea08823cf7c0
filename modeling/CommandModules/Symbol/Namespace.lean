/-
  Command modules — namespaces.

  A namespace is its path from the global one.  The namespaces of a compilation
  are numbered in the order of their first mention, the global one first; a
  namespace comes after the one around it.

  * `find?` finds a namespace by its path, `child?` and `parent?` go down and up;
  * `create` adds a namespace below another one, unless it is there;
  * `enclosing` are the namespaces around one, from the inside out;
  * each namespace knows the types that are declared right in it, by metadata
    name.
-/
import CommandModules.Symbol.Hash

namespace CommandModules

/-- A namespace: its path, and its types by metadata name. -/
structure Namespace where
  path : List String
  types : List (String × TypeId)

/-- The namespaces of a compilation, known by their numbers. -/
structure Namespaces where
  nodes : List Namespace
  /-- the namespaces that are imported everywhere, the latest first -/
  globalUsings : List Nat

namespace Namespaces

/-- The global namespace alone. -/
def empty : Namespaces := ⟨[⟨[], []⟩], []⟩

/-- The number of the global namespace. -/
def root : Nat := 0

/-- The path of the namespace numbered `n`. -/
def path? (s : Namespaces) (n : Nat) : Option (List String) :=
  s.nodes[n]?.map Namespace.path

/-- The path of the namespace numbered `n`; a number without a namespace counts
    as global. -/
def path (s : Namespaces) (n : Nat) : List String :=
  (s.path? n).getD []

/-- The namespace with this path. -/
def find? (s : Namespaces) (path : List String) : Option Nat :=
  s.nodes.findIdx? fun ns => ns.path == path

/-- The namespace called `name` right inside the one numbered `n`. -/
def child? (s : Namespaces) (n : Nat) (name : String) : Option Nat := do
  s.find? ((← s.path? n) ++ [name])

/-- The namespace around the one numbered `n`. -/
def parent? (s : Namespaces) (n : Nat) : Option Nat := do
  let path ← s.path? n
  if path.isEmpty then none else s.find? path.dropLast

/-- The last part of the name of the namespace numbered `n`. -/
def name? (s : Namespaces) (n : Nat) : Option String :=
  (s.path n).getLast?

/-- The namespace called `name` inside the one numbered `n`, which exists; it is
    added if it is not there. -/
def create (s : Namespaces) (n : Nat) (name : String) : Namespaces × Nat :=
  match s.child? n name with
  | some child => (s, child)
  | none => ({ s with nodes := s.nodes ++ [⟨s.path n ++ [name], []⟩] }, s.nodes.length)

/-- The namespace with this path below the one numbered `n`, which exists; what
    is missing on the way is added. -/
def createPath (s : Namespaces) (n : Nat) : List String → Namespaces × Nat
  | [] => (s, n)
  | name :: names =>
    let (s, child) := s.create n name
    s.createPath child names

/-- The namespace with this path below the one numbered `n`. -/
def descend? (s : Namespaces) (n : Nat) : List String → Option Nat
  | [] => some n
  | name :: names => do s.descend? (← s.child? n name) names

/-- The paths around a path, from the inside out. -/
def outerPaths (path : List String) : List (List String) :=
  (List.range path.length).reverse.map fun k => path.take k

/-- The namespace numbered `n` and those around it, from the inside out. -/
def enclosing (s : Namespaces) (n : Nat) : List Nat :=
  n :: (outerPaths (s.path n)).filterMap s.find?

/-- The dotted name of the namespace numbered `n`. -/
def dotted (s : Namespaces) (n : Nat) : String :=
  ".".intercalate (s.path n)

/-- The dotted name of something called `name` in the namespace numbered `n`. -/
def qualified (s : Namespaces) (n : Nat) (name : String) : String :=
  ".".intercalate (s.path n ++ [name])

/-- Import the namespace numbered `n` everywhere. -/
def addGlobalUsing (s : Namespaces) (n : Nat) : Namespaces :=
  if s.globalUsings.contains n then s else { s with globalUsings := n :: s.globalUsings }

/-- The type with this metadata name right in the namespace numbered `n`. -/
def typeIn? (s : Namespaces) (n : Nat) (name : String) : Option TypeId := do
  (← s.nodes[n]?).types.lookup name

/-- Enter a type in the namespace numbered `n`, unless one of its name is
    there. -/
def register (s : Namespaces) (n : Nat) (name : String) (id : TypeId) : Namespaces :=
  if (s.typeIn? n name).isSome then s
  else
    { s with
      nodes := s.nodes.modify n fun ns => { ns with types := ns.types ++ [(name, id)] } }

end Namespaces

end CommandModules

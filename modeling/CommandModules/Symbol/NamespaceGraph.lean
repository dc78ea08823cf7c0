/-
  Command modules — namespaces as a graph.

  Namespaces can be kept as the nodes of a graph.  A link from a namespace to one right inside
  it carries the name of the latter; a link from the global namespace to one that is imported
  everywhere carries none.  The links of a node are visited from the latest on, and each question
  looks for the first link that answers it.

  * `child?`, `parent?` and `name?` follow one link, `descend?` goes down a path, and `path?`
    goes up link by link;
  * `create`, `createPath`, `register` and `addGlobalUsing` add to the graph what is not there;
  * `Operation` is a step of any of them, `run` makes a graph step by step.

  Here nothing but the links says where a namespace stands: `Namespaces` keeps the path of each
  instead.
-/
import CommandModules.Symbol.Namespace

namespace CommandModules

/-- What a link stands for. -/
inductive NamespaceLabel where
  /-- the target is right inside the source and has this name -/
  | contains (name : String)
  /-- the target is imported everywhere -/
  | uses
deriving DecidableEq, Repr

/-- A link from a namespace to another one, or to itself. -/
structure NamespaceLink where
  source : Nat
  label : NamespaceLabel
  target : Nat
deriving DecidableEq, Repr

/-- The name that a link gives to its target. -/
def NamespaceLink.name? (l : NamespaceLink) : Option String :=
  match l.label with
  | .contains name => some name
  | .uses => none

/-- Namespaces as a graph. -/
structure NamespaceGraph where
  /-- the types of each namespace, by metadata name -/
  nodes : List (List (String × TypeId))
  /-- the links, the latest first -/
  links : List NamespaceLink

namespace NamespaceGraph

/-- The global namespace alone. -/
def empty : NamespaceGraph := ⟨[[]], []⟩

/-- The number of the global namespace. -/
def root : Nat := 0

/-- The links that begin at a node, the latest first. -/
def outgoing (g : NamespaceGraph) (n : Nat) : List NamespaceLink :=
  g.links.filter fun l => l.source == n

/-- The links that end at a node, the latest first. -/
def incoming (g : NamespaceGraph) (n : Nat) : List NamespaceLink :=
  g.links.filter fun l => l.target == n

/-- The namespace called `name` right inside another one. -/
def child? (g : NamespaceGraph) (n : Nat) (name : String) : Option Nat :=
  (g.outgoing n).findSome? fun l => if l.name? = some name then some l.target else none

/-- The namespace around another one. -/
def parent? (g : NamespaceGraph) (n : Nat) : Option Nat :=
  ((g.incoming n).find? fun l => l.name?.isSome).map NamespaceLink.source

/-- The simple name of a namespace. -/
def name? (g : NamespaceGraph) (n : Nat) : Option String :=
  (g.incoming n).findSome? NamespaceLink.name?

/-- The names from the global namespace to the one numbered `n`, with `names` behind them, if the
    way up visits at most `fuel` nodes. -/
def climb (g : NamespaceGraph) : Nat → Nat → List String → Option (List String)
  | 0, _, _ => none
  | fuel + 1, n, names =>
    if n = root then some names
    else
      let names := (g.name? n).toList ++ names
      match g.parent? n with
      | some m => g.climb fuel m names
      | none => some names

/-- The path of a namespace; there is none if the way up does not end, and this is so if it visits
    more nodes than there are. -/
def path? (g : NamespaceGraph) (n : Nat) : Option (List String) :=
  g.climb g.nodes.length n []

/-- The namespace with this path below another one. -/
def descend? (g : NamespaceGraph) (n : Nat) : List String → Option Nat
  | [] => some n
  | name :: names => do g.descend? (← g.child? n name) names

/-- The namespace called `name` right inside another one; it is added if it is not there. -/
def create (g : NamespaceGraph) (n : Nat) (name : String) : NamespaceGraph × Nat :=
  match g.child? n name with
  | some child => (g, child)
  | none => (⟨g.nodes ++ [[]], ⟨n, .contains name, g.nodes.length⟩ :: g.links⟩, g.nodes.length)

/-- The namespace with this path below another one; what is missing on the way is added. -/
def createPath (g : NamespaceGraph) (n : Nat) : List String → NamespaceGraph × Nat
  | [] => (g, n)
  | name :: names =>
    let (g, child) := g.create n name
    g.createPath child names

/-- The type with this metadata name right in a namespace. -/
def typeIn? (g : NamespaceGraph) (n : Nat) (name : String) : Option TypeId := do
  (← g.nodes[n]?).lookup name

/-- Enter a type in a namespace, unless one of its name is there, which is handed back then. -/
def register (g : NamespaceGraph) (n : Nat) (name : String) (id : TypeId) :
    NamespaceGraph × Option TypeId :=
  match g.typeIn? n name with
  | some other => (g, some other)
  | none => ({ g with nodes := g.nodes.modify n fun types => types ++ [(name, id)] }, none)

/-- Import a namespace everywhere. -/
def addGlobalUsing (g : NamespaceGraph) (n : Nat) : NamespaceGraph :=
  if (g.outgoing root).any fun l => l.label == .uses && l.target == n then g
  else { g with links := ⟨root, .uses, n⟩ :: g.links }

/-- The namespaces that are imported everywhere, the latest first. -/
def globalUsings (g : NamespaceGraph) : List Nat :=
  ((g.outgoing root).filter fun l => l.label == .uses).map NamespaceLink.target

end NamespaceGraph

/-! ## Step by step -/

/-- Something that is added below a namespace or to it. -/
inductive NamespaceOperation where
  | create (n : Nat) (name : String)
  | createPath (n : Nat) (names : List String)
  | register (n : Nat) (name : String) (id : TypeId)
  | addGlobalUsing (n : Nat)
deriving DecidableEq, Repr

namespace NamespaceOperation

/-- The namespace that the operation is about. -/
def node : NamespaceOperation → Nat
  | create n _ | createPath n _ | register n _ _ | addGlobalUsing n => n

/-- The graph behind the operation. -/
def onGraph (g : NamespaceGraph) : NamespaceOperation → NamespaceGraph
  | create n name => (g.create n name).1
  | createPath n names => (g.createPath n names).1
  | register n name id => (g.register n name id).1
  | addGlobalUsing n => g.addGlobalUsing n

/-- The namespaces behind the operation. -/
def onNamespaces (s : Namespaces) : NamespaceOperation → Namespaces
  | create n name => (s.create n name).1
  | createPath n names => (s.createPath n names).1
  | register n name id => s.register n name id
  | addGlobalUsing n => s.addGlobalUsing n

end NamespaceOperation

end CommandModules

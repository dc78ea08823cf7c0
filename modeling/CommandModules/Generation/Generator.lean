/-
  Command modules — generators.

  A generator looks at a compilation and adds sources to it.  It is set up once:
  then it may add sources that do not depend on the compilation, and it says
  whether it wants to be shown the nodes of the trees.

  * `Setup` is the outcome of setting up;
  * `Output` is what a generator has produced in a run; its sources begin with
    those of the setup, so that no two of them share a name;
  * `Compilation.visits` are the nodes that a generator is shown.
-/
import CommandModules.Compilation.Basic
import CommandModules.Generation.Source

namespace CommandModules

/-- The outcome of setting a generator up. -/
structure Setup where
  /-- Is the generator shown the nodes of the trees? -/
  wantsNodes : Bool
  /-- sources that do not depend on the compilation -/
  sources : SourceSet

namespace Setup

/-- The setup of a generator that adds no sources and is shown no nodes. -/
def start : Setup := ⟨false, .empty⟩

/-- Ask for the nodes of the trees. -/
def requestNodes (s : Setup) : Setup :=
  { s with wantsNodes := true }

/-- Add a source. -/
def addSource (s : Setup) (name text : String) : Except SourceError Setup :=
  (s.sources.add name text).map fun sources => { s with sources }

end Setup

/-- What a generator has produced in a run. -/
structure Output where
  sources : SourceSet
  diagnostics : List Diagnostic

namespace Output

/-- The output before the run: the sources of the setup. -/
def start (s : Setup) : Output := ⟨s.sources, []⟩

/-- Add a source. -/
def addSource (o : Output) (name text : String) : Except SourceError Output :=
  (o.sources.add name text).map fun sources => { o with sources }

/-- Report a diagnostic. -/
def report (o : Output) (d : Diagnostic) : Output :=
  { o with diagnostics := o.diagnostics ++ [d] }

end Output

/-- A node that a generator is shown, and the tree it is in. -/
structure Visit where
  tree : SyntaxTree
  node : Node

/-- The nodes of a tree, parents before children. -/
def SyntaxTree.visits (t : SyntaxTree) : List Visit :=
  t.nodes.map fun node => ⟨t, node⟩

/-- The nodes of all sources, parents before children. -/
def Compilation.visits (c : Compilation) : List Visit :=
  c.sources.flatMap SyntaxTree.visits

/-- A generator. -/
structure Generator where
  name : String
  setup : Setup
  /-- what it produces for a compilation, from the nodes it is shown and the
      output before the run -/
  execute : Compilation → List Visit → Output → Output

end CommandModules

/-
  Command modules — running generators.

  All generators of a run see the same compilation: the sources that were added
  by setups are part of it, what the run adds is not.

  * `Compilation.withSetups` is the compilation that generators see;
  * `runGenerators` gives, for each generator, the sources it produced, read
    again as trees, and its diagnostics; a source that cannot be read is
    reported;
  * `Compilation.withResults` is the compilation with all that was generated.
-/
import CommandModules.Generation.Generator

namespace CommandModules

/-- A source that a generator produced, and its tree. -/
structure GeneratedTree where
  source : GeneratedSource
  tree : SyntaxTree

/-- What one generator produced in a run. -/
structure GeneratorResult where
  /-- the name of the generator -/
  generator : String
  sources : List GeneratedTree
  diagnostics : List Diagnostic

/-- The path of a generated source. -/
def generatedPath (generator hintName : String) : String :=
  generator ++ "/" ++ hintName

/-- Read the sources of a generator; the trees have the ids from `id` on. -/
def readSources (generator : String) (id : Nat) : List GeneratedSource → List GeneratedTree
  | [] => []
  | s :: sources =>
    ⟨s, .parse id (generatedPath generator s.hintName) s.text⟩ ::
      readSources generator (id + 1) sources

/-- Read the sources of several generators, given with their names; the trees
    have the ids from `id` on. -/
def readAll (id : Nat) : List (String × List GeneratedSource) → List (List GeneratedTree)
  | [] => []
  | (generator, sources) :: rest =>
    readSources generator id sources :: readAll (id + sources.length) rest

/-- The diagnostic about a source that cannot be read: its first error. -/
def GeneratedTree.diagnostic? (generator : String) (g : GeneratedTree) : Option Diagnostic :=
  g.tree.errors.head?.map fun e =>
    ⟨"MG0100", .error,
      s!"generator '{generator}' produced source '{g.source.hintName}' that does not parse: " ++
        e.text,
      some ⟨g.tree.path, e.span⟩⟩

/-- The compilation that generators see: with the sources of their setups. -/
def Compilation.withSetups (c : Compilation) (generators : List Generator) : Compilation :=
  let sources := generators.map fun g => (g.name, g.setup.sources.sources)
  c.withSources ((readAll c.freshId sources).flatten.map GeneratedTree.tree)

/-- What a generator produces for a compilation. -/
def Generator.run (g : Generator) (c : Compilation) : Output :=
  let visits := if g.setup.wantsNodes then c.visits else []
  g.execute c visits (.start g.setup)

/-- The result of a generator, with its sources read. -/
def Generator.result (g : Generator) (output : Output) (sources : List GeneratedTree) :
    GeneratorResult :=
  ⟨g.name, sources,
    output.diagnostics ++ sources.filterMap (GeneratedTree.diagnostic? g.name)⟩

/-- Run generators over a compilation. -/
def runGenerators (generators : List Generator) (c : Compilation) : List GeneratorResult :=
  let c := c.withSetups generators
  let outputs := generators.map fun g => (g, g.run c)
  let read := readAll c.freshId (outputs.map fun o => (o.1.name, o.2.sources.sources))
  (outputs.zip read).map fun r => r.1.1.result r.1.2 r.2

/-- The trees that were generated in a run, generator by generator. -/
def generatedTrees (results : List GeneratorResult) : List SyntaxTree :=
  results.flatMap fun r => r.sources.map GeneratedTree.tree

/-- The diagnostics of a run, generator by generator. -/
def runDiagnostics (results : List GeneratorResult) : List Diagnostic :=
  results.flatMap GeneratorResult.diagnostics

/-- The compilation with all that was generated in a run. -/
def Compilation.withResults (c : Compilation) (results : List GeneratorResult) : Compilation :=
  c.withSources (generatedTrees results)

end CommandModules

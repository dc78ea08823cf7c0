/-
  Command modules — building modules from texts.

  A build takes texts, binds them against the declarations of the host and
  registers their commands.

  * `Build.add` takes a text that has no syntax errors;
  * `Build.run` compiles the texts and runs the generator that registers
    commands; `BuildResult.diagnostics` is all that was wrong.
-/
import CommandModules.Generation.Run
import CommandModules.Registration.Generator
import CommandModules.Registration.Host

namespace CommandModules

/-- The texts of a build, and what it depends on. -/
structure Build where
  sources : List SyntaxTree
  options : Options
  settings : Settings

/-- What a build gives. -/
structure BuildResult where
  /-- the texts alone -/
  input : Compilation
  /-- the texts with what was generated -/
  updated : Compilation
  results : List GeneratorResult

namespace Build

/-- A build without texts. -/
def start (options : Options) (settings : Settings) : Build :=
  ⟨[], options, settings⟩

variable (b : Build)

/-- Add a text, or list its syntax errors. -/
def add (path text : String) : Except (List ParseError) Build :=
  let tree := SyntaxTree.parse b.sources.length path text
  if tree.errors.isEmpty then .ok { b with sources := b.sources ++ [tree] }
  else .error tree.errors

/-- Compile the texts and register their commands. -/
def run : BuildResult :=
  let input := Compilation.of b.sources [Host.reference b.sources.length] b.settings
  let results := runGenerators [moduleGenerator b.options] input
  ⟨input, input.withResults results, results⟩

end Build

/-- All diagnostics of a build: those of the compilation with what was
    generated, then those of the generator. -/
def BuildResult.diagnostics (r : BuildResult) : List Diagnostic :=
  r.updated.diagnostics ++ runDiagnostics r.results

end CommandModules

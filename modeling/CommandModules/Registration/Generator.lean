/-
  Command modules — the generator that registers commands.

  For each module with commands the generator adds one source: a further part of
  the module, which registers the commands of the candidate's own declaration.

  * `Options.sourceFor` is the source for a candidate, or why there is none;
  * `Options.process` adds it; a source whose name is taken or not valid is
    dropped, and a reason is reported if the options ask for it;
  * `moduleGenerator` does so for every candidate, with the options overridden by
    the settings of the compilation.
-/
import CommandModules.Registration.Fragment
import CommandModules.Registration.Module

namespace CommandModules

/-- The hint name of the source for a module. -/
def registrationName (name fileSuffix : String) : String :=
  name ++ fileSuffix ++ ".cs"

namespace Options

variable (o : Options)

/-- The namespace that a fragment is put into, if any. -/
def wrapping? (c : Compilation) (m : Module) : Option String :=
  let name := c.namespaceOf m
  if o.wrapInNamespace && !name.isEmpty then some name else none

/-- The hint name and the text of the source for a candidate, or why there is
    none. -/
def sourceFor (c : Compilation) (candidate : Candidate) : Except SkipReason (String × String) := do
  let m ← c.moduleOf o candidate
  let commands := m.declaration.commands o.marker
  if commands.isEmpty then .error (.noCommands m.symbol.name o.marker)
  else
    .ok (registrationName candidate.declaration.name.value o.fileSuffix,
      m.declaration.fragment commands o (o.wrapping? c m))

/-- Where a candidate is reported. -/
def location? (c : Compilation) (candidate : Candidate) : Option Location :=
  (c.treeOf? candidate.key).map fun tree => ⟨tree.path, candidate.declaration.name.span⟩

/-- Add the source for a candidate, or report why there is none. -/
def process (c : Compilation) (output : Output) (candidate : Candidate) : Output :=
  match o.sourceFor c candidate with
  | .ok (name, text) =>
    match output.addSource name text with
    | .ok output => output
    | .error _ => output
  | .error reason =>
    if o.reportSkipped then output.report (reason.diagnostic (location? c candidate)) else output

end Options

/-- The generator that registers commands. -/
def moduleGenerator (o : Options) : Generator where
  name := "ModuleGenerator"
  setup := Setup.start.requestNodes
  execute c visits output :=
    let effective := o.override c.settings
    let candidates := effective.candidates.select (Candidate.ofVisits o.candidates visits)
    candidates.foldl (effective.process c) output

end CommandModules

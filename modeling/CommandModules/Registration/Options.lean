/-
  Command modules — what the registration of commands depends on.

  Options are given with the generator; settings of the compilation override
  them.

  * `Options.standard` fits the declarations of the host;
  * `Options.override` takes over the values of settings; a value that is empty
    or not understood changes nothing;
  * `BaseMatch.ofText` and `CandidatePolicy.ofText` read the values that are
    words.
-/
import CommandModules.Settings

namespace CommandModules

/-- A text that is no value of an option. -/
inductive InvalidOption where
  | baseMatch (found : String)
  | candidatePolicy (found : String)
deriving DecidableEq, Repr

/-- The error as it is shown. -/
def InvalidOption.message : InvalidOption → String
  | baseMatch found => s!"expected 'simple' or 'qualified', found '{found}'"
  | candidatePolicy found => s!"expected 'all' or 'last', found '{found}'"

/-- How bases are compared with the name of the base of modules. -/
inductive BaseMatch where
  /-- by the simple name; a base that was not found counts by its name -/
  | simple
  /-- by the dotted name of a base that was found -/
  | qualified
deriving DecidableEq, Repr

namespace BaseMatch

/-- The value as it is written. -/
def text : BaseMatch → String
  | simple => "simple"
  | qualified => "qualified"

/-- The value written as `s`, up to ASCII case. -/
def ofText (s : String) : Except InvalidOption BaseMatch :=
  if Text.eqCaseless s simple.text then .ok simple
  else if Text.eqCaseless s qualified.text then .ok qualified
  else .error (.baseMatch s)

end BaseMatch

/-- Which of the classes that were seen are candidates. -/
inductive CandidatePolicy where
  /-- all, in the order they were seen in -/
  | all
  /-- the one that was seen last -/
  | lastSeen
deriving DecidableEq, Repr

namespace CandidatePolicy

/-- The value as it is written. -/
def text : CandidatePolicy → String
  | all => "all"
  | lastSeen => "last"

/-- The value written as `s`, up to ASCII case. -/
def ofText (s : String) : Except InvalidOption CandidatePolicy :=
  if Text.eqCaseless s all.text then .ok all
  else if Text.eqCaseless s lastSeen.text then .ok lastSeen
  else .error (.candidatePolicy s)

end CandidatePolicy

/-- Options of the registration of commands. -/
structure Options where
  /-- the name of the base of modules -/
  baseType : String
  baseMatch : BaseMatch
  /-- the name of the attribute that marks commands, as it is written -/
  marker : String
  candidates : CandidatePolicy
  /-- the signature of the method that is overridden, without modifiers -/
  hookSignature : String
  /-- the type of the elements that the method returns -/
  collectionType : String
  builderType : String
  /-- what the name of a module is followed by in a hint name -/
  fileSuffix : String
  /-- one level of indentation -/
  indent : String
  /-- Is a fragment put into the namespace of its module? -/
  wrapInNamespace : Bool
  /-- Is each candidate that is skipped reported? -/
  reportSkipped : Bool
deriving DecidableEq, Repr

namespace Options

/-- The options that fit the declarations of the host. -/
def standard : Options where
  baseType := "ModuleBase"
  baseMatch := .simple
  marker := "Command"
  candidates := .all
  hookSignature := "IEnumerable<CommandInfo> AutoRegister()"
  collectionType := "CommandInfo"
  builderType := "CommandInfoBuilder"
  fileSuffix := ".Generated"
  indent := "    "
  wrapInNamespace := false
  reportSkipped := false

/-- The value of a key, if it is not empty. -/
def nonempty? (s : Settings) (key : String) : Option String :=
  (s.get? key).filter fun value => !value.isEmpty

/-- The value of a key, if it can be read. -/
def read? {α : Type} (s : Settings) (key : String) (read : String → Except InvalidOption α) :
    Option α :=
  (s.get? key).bind fun value => (read value).toOption

/-- The options, with those replaced that settings give a value for. -/
def override (o : Options) (s : Settings) : Options :=
  { o with
    baseType := (nonempty? s "modgen.base_type").getD o.baseType
    baseMatch := (read? s "modgen.base_type_match" BaseMatch.ofText).getD o.baseMatch
    marker := (nonempty? s "modgen.marker").getD o.marker
    candidates := (read? s "modgen.candidates" CandidatePolicy.ofText).getD o.candidates
    wrapInNamespace := (s.flag? "modgen.wrap_in_namespace").getD o.wrapInNamespace
    reportSkipped := (s.flag? "modgen.report_skipped").getD o.reportSkipped }

end Options

end CommandModules

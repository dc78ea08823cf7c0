/-
  Command modules — generated sources.

  A generator adds sources under names of its choice, hint names, which become
  names of files.

  * `HintName.normalize` checks a name and completes it: `isValid` says which
    names are taken, `hasExtension` which are complete;
  * `SourceSet.add` adds a source, unless its name is not valid or is taken by
    another source up to ASCII case (`add_eq_ok_iff`).
-/
import CommandModules.Text.Caseless
import CommandModules.Text.Letter

namespace CommandModules

/-- Why a source is refused. -/
inductive SourceError where
  /-- a source of the same complete name is there -/
  | duplicateHintName (name : String)
  | invalidHintName (name : String)
deriving DecidableEq, Repr

/-- The error as it is shown. -/
def SourceError.message : SourceError → String
  | duplicateHintName name => s!"a source named '{name}' was already added"
  | invalidHintName name => s!"'{name}' is not a valid hint name"

/-! ## Hint names -/

namespace HintName

/-- What every complete name ends in, up to ASCII case. -/
def extension : String := ".cs"

/-- Can the character stand in a hint name? -/
def isAllowed (c : Char) : Bool :=
  Text.isWordChar c || c == '_' || c == '.' || c == '-'

/-- A name is valid if it is not empty, does not begin with a dot and has
    allowed characters only. -/
def isValid (name : String) : Bool :=
  !name.isEmpty && name.toList.head? != some '.' && name.toList.all isAllowed

/-- Does the name end in the extension? -/
def hasExtension (name : String) : Bool :=
  let cs := name.toList
  Text.eqCaseless (String.ofList (cs.drop (cs.length - extension.length))) extension

/-- The name with the extension. -/
def complete (name : String) : String :=
  if hasExtension name then name else name ++ extension

/-- The complete name, if the name is valid. -/
def normalize (name : String) : Except SourceError String :=
  if isValid name then .ok (complete name) else .error (.invalidHintName name)

end HintName

/-! ## Sets of sources -/

/-- A source that a generator added. -/
structure GeneratedSource where
  /-- the complete name -/
  hintName : String
  text : String
deriving DecidableEq, Repr

/-- The sources that one generator added, in order. -/
structure SourceSet where
  sources : List GeneratedSource
deriving DecidableEq, Repr

namespace SourceSet

/-- No sources. -/
def empty : SourceSet := ⟨[]⟩

variable (s : SourceSet)

/-- The names of the sources. -/
def hintNames : List String :=
  s.sources.map GeneratedSource.hintName

/-- Has a source this name, up to ASCII case? -/
def holds (name : String) : Bool :=
  s.hintNames.any (Text.eqCaseless name)

/-- Add a source. -/
def add (name text : String) : Except SourceError SourceSet :=
  match HintName.normalize name with
  | .error e => .error e
  | .ok name =>
    if s.holds name then .error (.duplicateHintName name)
    else .ok ⟨s.sources ++ [⟨name, text⟩]⟩

/-- A source is added if its name is valid and free. -/
theorem add_eq_ok_iff {name text : String} {t : SourceSet} :
    s.add name text = .ok t ↔
      HintName.isValid name = true ∧ s.holds (HintName.complete name) = false ∧
        t = ⟨s.sources ++ [⟨HintName.complete name, text⟩]⟩ := by
  unfold add HintName.normalize
  by_cases hv : HintName.isValid name = true
  · by_cases hh : s.holds (HintName.complete name) = true
    · simp [hv, hh]
    · simp [hv, hh, eq_comm]
  · simp [hv]

end SourceSet

end CommandModules

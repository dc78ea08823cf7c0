/-
  Command modules — diagnostics.

  A diagnostic is a message for the user of the host, with a stable id, a
  severity and, where it concerns a place in a file, that place.
-/
import CommandModules.Text.Position

namespace CommandModules

/-- How much a diagnostic matters, from least to most. -/
inductive Severity where
  | hidden
  | info
  | warning
  | error
deriving DecidableEq, Repr

namespace Severity

/-- The severity as a number that grows with it. -/
def rank : Severity → Nat
  | hidden => 0
  | info => 1
  | warning => 2
  | error => 3

/-- The severity as it is shown. -/
def text : Severity → String
  | hidden => "hidden"
  | info => "info"
  | warning => "warning"
  | error => "error"

end Severity

/-- A stretch of the file at a path. -/
structure Location where
  path : String
  span : Span
deriving DecidableEq, Repr

/-- A location is shown as the path, then the line and column. -/
def Location.text (l : Location) : String :=
  s!"{l.path}:{l.span.text}"

/-- A message for the user of the host. -/
structure Diagnostic where
  id : String
  severity : Severity
  message : String
  location? : Option Location
deriving DecidableEq, Repr

namespace Diagnostic

/-- Is the diagnostic at least this severe? -/
def isAtLeast (d : Diagnostic) (s : Severity) : Bool :=
  s.rank ≤ d.severity.rank

/-- The diagnostic on one line: where, how severe, which, and the message. -/
def text (d : Diagnostic) : String :=
  match d.location? with
  | some l => s!"{l.text}: {d.severity.text} {d.id}: {d.message}"
  | none => s!"{d.severity.text} {d.id}: {d.message}"

end Diagnostic

end CommandModules

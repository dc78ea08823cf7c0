/-
  Command modules — candidates for modules.

  Every class that a generator is shown is a candidate; names, modifiers and
  attributes are looked at later.

  * `Candidate.collect` takes one node in: a class that was not seen before;
  * `CandidatePolicy.select` keeps the candidates that a policy allows.
-/
import CommandModules.Generation.Generator
import CommandModules.Registration.Options

namespace CommandModules

/-- A class that may be a module. -/
structure Candidate where
  key : NodeKey
  declaration : TypeDeclaration

namespace Candidate

/-- The candidate that a node is, if it declares a class. -/
def ofVisit? (v : Visit) : Option Candidate :=
  match v.node with
  | .type t => if t.kind = .class_ then some ⟨v.tree.key t.span, t⟩ else none
  | _ => none

/-- Add a class to those that were seen, unless it is among them.  Where only
    the last one counts, it takes their place. -/
def add (policy : CandidatePolicy) (seen : List Candidate) (c : Candidate) : List Candidate :=
  if seen.any fun s => s.key == c.key then seen
  else
    match policy with
    | .all => seen ++ [c]
    | .lastSeen => [c]

/-- Take in one node. -/
def collect (policy : CandidatePolicy) (seen : List Candidate) (v : Visit) : List Candidate :=
  match ofVisit? v with
  | some c => add policy seen c
  | none => seen

/-- The candidates among nodes. -/
def ofVisits (policy : CandidatePolicy) (vs : List Visit) : List Candidate :=
  vs.foldl (collect policy) []

end Candidate

/-- The candidates that a policy allows. -/
def CandidatePolicy.select (policy : CandidatePolicy) (cs : List Candidate) : List Candidate :=
  match policy with
  | .all => cs
  | .lastSeen => cs.getLast?.toList

end CommandModules

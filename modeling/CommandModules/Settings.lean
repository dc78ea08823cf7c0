/-
  Command modules — settings of a compilation.

  Settings are texts under keys.  They reach generators through the compilation;
  what a value means is up to its reader.

  * Keys are compared without regard to ASCII case: they are kept in lower case,
    so that `insert` replaces the value of a key however it is written;
  * `get?` gives a value without the blanks around it, `flag?` reads one as true
    or false;
  * `keys` are sorted, so that they do not depend on the order of insertion.
-/
import CommandModules.Text.Blank
import CommandModules.Text.Caseless

namespace CommandModules

/-- Texts under keys in lower case, each key at most once. -/
structure Settings where
  entries : List (String × String)
deriving DecidableEq, Repr

namespace Settings

/-- No settings. -/
def empty : Settings := ⟨[]⟩

variable (s : Settings)

/-- The value of a key, as it was set. -/
def written? (key : String) : Option String :=
  s.entries.lookup (Text.lower key)

/-- The value of a key, without the blanks around it. -/
def get? (key : String) : Option String :=
  (s.written? key).map Text.trim

/-- The value of a key as true or false, if it is one of these words. -/
def flag? (key : String) : Option Bool := do
  let value ← s.get? key
  if Text.eqCaseless value "true" then some true
  else if Text.eqCaseless value "false" then some false
  else none

/-- Put a value under a key that is in lower case. -/
def put (key value : String) : List (String × String) → List (String × String)
  | [] => [(key, value)]
  | e :: es => if e.1 = key then (key, value) :: es else e :: put key value es

/-- Set a value; an earlier value of the key is lost. -/
def insert (key value : String) : Settings :=
  ⟨put (Text.lower key) value s.entries⟩

/-- The settings of a list; of several values of a key the last one holds. -/
def ofList (pairs : List (String × String)) : Settings :=
  pairs.foldl (fun s e => s.insert e.1 e.2) empty

/-- The number of keys. -/
def size : Nat :=
  s.entries.length

/-- The keys in ascending order. -/
def keys : List String :=
  (s.entries.map Prod.fst).mergeSort fun a b => decide (a ≤ b)

end Settings

end CommandModules

/-
  Command modules — cutting a text at a separator, into lines and at bytes.

  * `splitOn` cuts at every occurrence of one character;
  * `lines` cuts at line feeds, which belong to the line they end together with
    a carriage return before them;
  * `splitAtByte?` cuts at a byte count of the UTF-8 encoding, if a character
    ends there; `between?` is what lies between two such places.
-/
namespace CommandModules.Text

/-- The pieces between the occurrences of `sep`, one more than there are
    occurrences. -/
def splitChars (sep : Char) : List Char → List (List Char)
  | [] => [[]]
  | c :: cs =>
    if c = sep then [] :: splitChars sep cs
    else match splitChars sep cs with
      | [] => [[c]]
      | piece :: pieces => (c :: piece) :: pieces

/-- The pieces of the text between the occurrences of `sep`. -/
def splitOn (sep : Char) (s : String) : List String :=
  (splitChars sep s.toList).map String.ofList

/-- Drop one carriage return at the end. -/
def dropReturn (cs : List Char) : List Char :=
  if cs.getLast? = some '\r' then cs.dropLast else cs

/-- The lines among the pieces between line feeds: all but the last piece ended
    in a line feed; the last one is a line only if it is not empty. -/
def linesOfPieces : List (List Char) → List (List Char)
  | [] => []
  | [last] => if last = [] then [] else [last]
  | piece :: next :: pieces => dropReturn piece :: linesOfPieces (next :: pieces)

/-- The lines of the text, without their line endings. -/
def lines (s : String) : List String :=
  (linesOfPieces (splitChars '\n' s.toList)).map String.ofList

/-- The characters before and after the first `n` bytes, if that is where a
    character ends. -/
def splitAtByte? (n : Nat) : List Char → Option (List Char × List Char)
  | [] => if n = 0 then some ([], []) else none
  | c :: cs =>
    if n = 0 then some ([], c :: cs)
    else if c.utf8Size ≤ n then
      (splitAtByte? (n - c.utf8Size) cs).map fun parts => (c :: parts.1, parts.2)
    else none

/-- The characters between two byte counts, if they come in order and a character
    ends at both. -/
def between? (start stop : Nat) (cs : List Char) : Option (List Char) :=
  if start ≤ stop then do
    let (_, tail) ← splitAtByte? start cs
    let (body, _) ← splitAtByte? (stop - start) tail
    some body
  else none

theorem splitAtByte?_append {n : Nat} {cs front back : List Char}
    (h : splitAtByte? n cs = some (front, back)) : front ++ back = cs := by
  induction cs generalizing n front back with
  | nil => simp only [splitAtByte?] at h; split at h <;> simp_all
  | cons c cs ih =>
    simp only [splitAtByte?] at h
    split at h
    · simp_all
    split at h
    · obtain ⟨parts, hp, he⟩ := Option.map_eq_some_iff.1 h
      cases he
      simp [ih hp]
    · cases h

end CommandModules.Text

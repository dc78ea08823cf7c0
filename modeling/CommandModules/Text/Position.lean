/-
  Command modules — places in a text and stretches of it.

  A `Position` counts the bytes before a place and says on which line and in
  which byte column it lies.  A `Span` is a stretch of text: the position of its
  first character and its length in bytes.

  Lines and columns are counted in 32 bits, so they are exact in texts of fewer than
  `2 ^ 32 - 1` bytes.  Bytes are counted exactly, and fit 32 bits in texts of fewer than
  `2 ^ 32` bytes.

  * `Position.after` is the position reached by reading a list of characters; it
    is the only way positions move, so byte offset, line and column agree;
  * `Span.merge` is the least stretch that covers two;
  * `Span.slice?` is the text a span covers, if the span lies in the source and
    its two ends are character boundaries.
-/
import CommandModules.Text.Split

namespace CommandModules

/-- A number as a counter of 32 bits keeps it: zero follows the last one. -/
instance counterOfNat : Coe Nat UInt32 := ⟨UInt32.ofNat⟩

instance natOfCounter : CoeOut UInt32 Nat := ⟨UInt32.toNat⟩

/-- A place in a text: the bytes before it, its line and its byte column, the
    latter two counted from one. -/
structure Position where
  offset : Nat
  line : UInt32
  column : UInt32
deriving DecidableEq, Repr

namespace Position

/-- Where a text begins. -/
def start : Position := ⟨0, 1, 1⟩

/-- The place behind the character `c` at `p`.  Only a line feed ends a line. -/
def next (p : Position) (c : Char) : Position :=
  if c = '\n' then ⟨p.offset + c.utf8Size, p.line + 1, 1⟩
  else ⟨p.offset + c.utf8Size, p.line, p.column + .ofNat c.utf8Size⟩

/-- The place behind the characters `cs` at `p`. -/
def after (p : Position) (cs : List Char) : Position :=
  cs.foldl next p

@[simp] theorem after_nil (p : Position) : p.after [] = p := rfl

@[simp] theorem after_cons (p : Position) (c : Char) (cs : List Char) :
    p.after (c :: cs) = (p.next c).after cs := rfl

theorem after_append (p : Position) (cs ds : List Char) :
    p.after (cs ++ ds) = (p.after cs).after ds := by
  simp [after]

end Position

/-- A stretch of text. -/
structure Span where
  offset : Nat
  line : UInt32
  column : UInt32
  length : Nat
deriving DecidableEq, Repr, Inhabited

namespace Span

/-- The stretch from one place to a later one. -/
def between (p q : Position) : Span :=
  ⟨p.offset, p.line, p.column, q.offset - p.offset⟩

/-- The empty stretch where `s` begins. -/
def point (s : Span) : Span :=
  { s with length := 0 }

/-- The byte offset behind the last character. -/
def stop (s : Span) : Nat :=
  s.offset + s.length

/-- Does the span cover nothing? -/
def isEmpty (s : Span) : Bool :=
  s.length == 0

/-- The least stretch that covers both: it begins where the first of them does
    and ends where the last of them does. -/
def merge (s t : Span) : Span :=
  let first := if s.offset ≤ t.offset then s else t
  { first with length := max s.stop t.stop - first.offset }

/-- The characters a span covers, if it lies in the source and ends on
    character boundaries. -/
def sliceChars? (s : Span) (source : List Char) : Option (List Char) := do
  let (_, tail) ← Text.splitAtByte? s.offset source
  let (body, _) ← Text.splitAtByte? s.length tail
  some body

/-- The text a span covers, if it lies in the source and ends on character
    boundaries. -/
def slice? (s : Span) (source : String) : Option String :=
  (s.sliceChars? source.toList).map String.ofList

/-- A span is shown as the line and column where it begins. -/
def text (s : Span) : String :=
  s!"{s.line}:{s.column}"

end Span

end CommandModules

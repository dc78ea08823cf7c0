/-
  Command modules — text laid out in lines.

  A layout is a list of lines and of groups that stand deeper or between an
  opening and a closing line.  How deep a line stands does not depend on what
  one level of indentation looks like.

  * `Layout.lines` are the lines of a layout with their depths;
  * `Layout.render` writes them, each behind the unit of indentation as many
    times as it is deep;
  * `Layout.block` is a group of two kinds at once (`lines_block`).
-/
namespace CommandModules

/-- A piece of text that is laid out in lines. -/
inductive Layout where
  | line (text : String)
  /-- one level deeper -/
  | indented (body : List Layout)
  /-- between two lines -/
  | wrapped (opening closing : String) (body : List Layout)
  /-- one level deeper between two lines -/
  | block (opening closing : String) (body : List Layout)
deriving Inhabited

namespace Layout

mutual

/-- The lines of a layout that stands at the given depth, with their depths. -/
def lines (depth : Nat) : Layout → List (Nat × String)
  | line text => [(depth, text)]
  | indented body => linesOfAll (depth + 1) body
  | wrapped opening closing body =>
    (depth, opening) :: linesOfAll depth body ++ [(depth, closing)]
  | block opening closing body =>
    (depth, opening) :: linesOfAll (depth + 1) body ++ [(depth, closing)]

/-- The lines of a list of layouts. -/
def linesOfAll (depth : Nat) : List Layout → List (Nat × String)
  | [] => []
  | l :: ls => lines depth l ++ linesOfAll depth ls

end

mutual

/-- The depth of each piece of a layout, the inner pieces before the outer
    one. -/
def depths (depth : Nat) : Layout → List Nat
  | line _ => [depth]
  | indented body => depthsOfAll (depth + 1) body ++ [depth]
  | wrapped _ _ body => depthsOfAll depth body ++ [depth]
  | block _ _ body => depthsOfAll (depth + 1) body ++ [depth]

/-- The depth of each piece of a list of layouts. -/
def depthsOfAll (depth : Nat) : List Layout → List Nat
  | [] => []
  | l :: ls => depths depth l ++ depthsOfAll depth ls

end

/-- A line at a depth.  An empty line is not indented. -/
def lineText (unit : String) (l : Nat × String) : String :=
  if l.2.isEmpty then "\n" else String.join (List.replicate l.1 unit) ++ l.2 ++ "\n"

/-- The text of a list of layouts, with the given unit of indentation. -/
def render (unit : String) (ls : List Layout) : String :=
  String.join ((linesOfAll 0 ls).map (lineText unit))

theorem lines_block (depth : Nat) (opening closing : String) (body : List Layout) :
    lines depth (block opening closing body) =
      lines depth (wrapped opening closing [indented body]) := by
  simp [lines, linesOfAll]

end Layout

end CommandModules

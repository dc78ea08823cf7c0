/-
  Command modules — groups of tokens in parentheses, brackets and braces.

  * `Group.take` takes a token, or the whole group that it opens.  Marks that
    close nothing inside the group are reported and skipped, and so is the end
    of the text.
-/
import CommandModules.Syntax.Error

namespace CommandModules

/-- The tokens of a group, those behind it, and what is wrong with it. -/
structure Group where
  taken : List Token
  rest : List Token
  errors : List ParseError

namespace Group

/-- The error for an opening mark without its closing one. -/
def unclosed (eof : Token) (mark : Punct) : ParseError :=
  ⟨.mismatchedDelimiter, eof.span, "unclosed " ++ (TokenKind.punct mark).description⟩

/-- The error for a closing mark `t` that does not match the innermost open
    `mark`. -/
def mismatched (t : Token) (mark : Punct) : ParseError :=
  let closer := (TokenKind.punct mark.closer).description
  let opener := (TokenKind.punct mark).description
  ⟨.mismatchedDelimiter, t.span,
    s!"expected {closer} to close {opener}, found {t.kind.description}"⟩

/-- The open marks behind the token `t`, innermost first, and the error if it
    closes the wrong one. -/
def openBehind (t : Token) (marks : List Punct) : List Punct × List ParseError :=
  match t.kind with
  | .punct p =>
    if p.isOpener then (p :: marks, [])
    else if p.isCloser then
      match marks with
      | [] => ([], [])
      | mark :: outer =>
        if mark.closer = p then (outer, []) else (mark :: outer, [mismatched t mark])
    else (marks, [])
  | _ => (marks, [])

/-- Take tokens up to the one behind which no mark is open; `marks` are open
    from the start, innermost first. -/
def take (eof : Token) (marks : List Punct) : List Token → Group
  | [] => ⟨[], [], (marks.head?.map (unclosed eof)).toList⟩
  | t :: ts =>
    let behind := openBehind t marks
    if behind.1 = [] then ⟨[t], ts, behind.2⟩
    else
      let later := take eof behind.1 ts
      ⟨t :: later.taken, later.rest, behind.2 ++ later.errors⟩

end Group

end CommandModules

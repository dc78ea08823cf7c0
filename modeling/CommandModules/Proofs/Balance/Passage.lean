/-
  Command modules — passages that are passed over at a glance.

  Four readers go on to a certain token without reading what is before it: a mark there
  may close nothing, or the wrong group, and nothing is recorded.

  * `passage`: the tokens that are passed over so behind the first one: behind the word
    `operator`, in a constraint clause, behind `extern`, and the type arguments of a name
    in an expression;
  * `Tidy ts`: all such passages among the tokens are nested;
  * `upTo_eq_take_of_peek`: a passage is passed over group by group.
-/
import CommandModules.Proofs.Taken.Basic
import Mathlib.Data.List.Infix

namespace CommandModules

open CommandModules.Parser

/-! ## Passages -/

/-- The tokens up to the one outside groups at which `stop` holds; `marks` are open
    from the start, innermost first.  Marks that close nothing are passed over. -/
def upTo (stop : Token → Bool) (marks : List Punct) : List Token → List Token
  | [] => []
  | t :: ts =>
    if marks.isEmpty && stop t then []
    else t :: upTo stop (Group.openBehind t marks).1 ts

/-- Does a constraint clause end before this token? -/
def endsConstraint (t : Token) : Bool :=
  t.kind == .punct .leftBrace || t.kind == .punct .semicolon || t.kind == .punct .arrow ||
    t.kind == .eof || t.isContextual "where"

/-- Does the search for the end of a declaration come to an end at this token? -/
def endsDirective (t : Token) : Bool :=
  t.kind == .eof || t.kind == .punct .rightBrace || t.kind == .punct .semicolon ||
    t.kind == .punct .leftBrace

/-- Does the subject of a constraint clause stand at the head? -/
def startsConstraint (ts : List Token) : Bool :=
  ts[0]?.any (·.kind == .identifier) && ts[1]?.any (·.kind == .punct .colon)

/-- The tokens at the head that an expression takes for type arguments. -/
def passedArguments (ts : List Token) : List Token :=
  match typeArgumentsLength? ts with
  | some n => if ts[n]?.all (followsTypeArguments ·.kind) then ts.take n else []
  | none => []

/-- The tokens behind the first one that may be passed over without a glance at the marks
    among them. -/
def passage : List Token → List Token
  | [] => []
  | t :: ts =>
    if t.kind = .keyword .operator then ts.takeWhile fun u => u.kind != .punct .leftParen
    else if t.kind = .keyword .extern_ then
      if ts[0]?.any (·.isContextual "alias") then upTo endsDirective [] ts else []
    else if t.isContextual "where" && startsConstraint ts then upTo endsConstraint [] (ts.drop 2)
    else if t.kind = .identifier then passedArguments ts
    else []

section
variable {t u : Token} {ts : List Token}

theorem passage_operator (h : t.kind = .keyword .operator) :
    passage (t :: ts) = ts.takeWhile fun u => u.kind != .punct .leftParen := by
  rw [passage, if_pos h]

theorem passage_extern (h : t.kind = .keyword .extern_) (hu : u.isContextual "alias" = true) :
    passage (t :: u :: ts) = upTo endsDirective [] (u :: ts) := by
  simp [passage, h, hu]

theorem passage_constraint (h : t.isContextual "where" = true) (hs : startsConstraint ts = true) :
    passage (t :: ts) = upTo endsConstraint [] (ts.drop 2) := by
  have hk : t.kind = .identifier := beq_iff_eq.1 (Bool.and_eq_true_iff.1 h).1
  simp [passage, hk, h, hs]

theorem passage_arguments {n : Nat} (h : t.kind = .identifier) (hn : typeArgumentsLength? ts = some n)
    (hf : ∀ u ∈ ts[n]?, followsTypeArguments u.kind = true) : passage (t :: ts) = ts.take n := by
  have hs : startsConstraint ts = false := by
    cases ts with
    | nil => rfl
    | cons u us =>
      -- type arguments begin with an angle bracket
      have hu : u.kind = .punct .less := by
        by_contra hu
        simp [typeArgumentsLength?, hu] at hn
      simp [startsConstraint, hu]
  have hall : ts[n]?.all (followsTypeArguments ·.kind) = true := by
    cases hu : ts[n]? with
    | none => rfl
    | some u => simpa using hf u hu
  simp [passage, h, hs, passedArguments, hn, hall]

end

/-- Every passage among the tokens is nested. -/
def Tidy (ts : List Token) : Prop :=
  ∀ us ∈ ts.tails, Nested (passage us)

instance (ts : List Token) : Decidable (Tidy ts) :=
  inferInstanceAs (Decidable (∀ us ∈ ts.tails, Nested (passage us)))

theorem Tidy.nested {ts us : List Token} (h : Tidy (ts ++ us)) : Nested (passage us) :=
  h us ((List.mem_tails ..).2 (List.suffix_append ts us))

/-! ## Group by group -/

section
variable {stop : Token → Bool} {eof t : Token} {ts : List Token} {marks : List Punct}

theorem upTo_eq_take_of_open (h : marks ≠ []) : upTo stop marks ts =
    (Group.take eof marks ts).taken ++ upTo stop [] (Group.take eof marks ts).rest := by
  induction ts generalizing marks with
  | nil => rfl
  | cons t ts ih =>
    rw [upTo, if_neg (by simp [h]), Group.take]
    dsimp only
    split
    · rename_i hb
      rw [hb]
      rfl
    · rename_i hb
      rw [ih hb]
      rfl

theorem upTo_eq_take (h : stop t = false) : upTo stop [] (t :: ts) =
    (Group.take eof [] (t :: ts)).taken ++ upTo stop [] (Group.take eof [] (t :: ts)).rest := by
  rw [upTo, if_neg (by simp [h]), Group.take]
  dsimp only
  split
  · rename_i hb
    rw [hb]
    rfl
  · rename_i hb
    rw [upTo_eq_take_of_open hb]
    rfl

/-- Where a passage does not end, it goes on with a token or the group that it opens. -/
theorem upTo_eq_take_of_peek {s : ParserState} (h : stop s.peek = false) : upTo stop [] s.after =
    (Group.take eof [] s.after).taken ++ upTo stop [] (Group.take eof [] s.after).rest := by
  cases ha : s.after with
  | nil => rfl
  | cons t ts => exact upTo_eq_take (by simpa [ParserState.peek, ha] using h)

theorem upTo_of_stop {s : ParserState} (h : stop s.peek = true) : upTo stop [] s.after = [] := by
  cases ha : s.after with
  | nil => rfl
  | cons t ts =>
    have ht : stop t = true := by simpa [ParserState.peek, ha] using h
    rw [upTo, if_pos (by simp [ht])]

end

/-! ## Places in a text -/

namespace ParserState

/-- The tokens on both sides of this place are tidy. -/
def IsTidy (s : ParserState) : Prop :=
  Tidy (s.before.reverse ++ s.after)

variable {s s' : ParserState} {ts : List Token}

theorem Takes.isTidy (h : Takes ts s s') (ht : s.IsTidy) : s'.IsTidy := by
  rw [IsTidy, h.before_eq]
  rw [IsTidy, h.after_eq] at ht
  simpa using ht

theorem IsTidy.nested_after (h : s.IsTidy) : Nested (passage s.after) :=
  Tidy.nested h

theorem IsTidy.nested_before {t : Token} (h : s.IsTidy) (ht : s.before.head? = some t) :
    Nested (passage (t :: s.after)) := by
  obtain ⟨us, hus⟩ := List.head?_eq_some_iff.1 ht
  have hall : Tidy (us.reverse ++ t :: s.after) := by simpa [IsTidy, hus] using h
  exact hall.nested

end ParserState

end CommandModules

/-
  Command modules — the basic readers see no places.

  Each has a lemma with its name: from states that are alike it comes to states
  that are alike.  Texts are cut out of the source by place, but their words are
  forgotten with the places (`textBetween_alike`).
-/
import CommandModules.Proofs.Alike.Rules

namespace CommandModules

variable {α : Type}

/-! ## Groups -/

namespace Group

theorem openBehind_erase (t : Token) (marks : List Punct) :
    openBehind (erase t) marks = ((openBehind t marks).1, erase (openBehind t marks).2) := by
  unfold openBehind
  rw [kind_erase]
  split
  · split
    · rfl
    split
    · split
      · rfl
      · split <;> rfl
    · rfl
  · rfl

theorem take_erase (eof : Token) (marks : List Punct) (ts : List Token) :
    take (erase eof) marks (erase ts) = ⟨erase (take eof marks ts).taken,
      erase (take eof marks ts).rest, erase (take eof marks ts).errors⟩ := by
  induction ts generalizing marks with
  | nil => cases marks <;> rfl
  | cons t ts ih =>
    rw [erase_cons, take, take, openBehind_erase]
    dsimp only
    split
    · rfl
    · rw [ih]
      simp

end Group

namespace ParserState

variable {s t : ParserState}

theorem advance_erase (s : ParserState) : (erase s).advance = erase s.advance := by
  rcases s with ⟨source, before, _ | ⟨u, us⟩, eof, errors, faults⟩ <;> rfl

namespace Alike

theorem advance (h : s.Alike t) : s.advance.Alike t.advance := by
  rw [Alike, ← advance_erase, ← advance_erase, h]

theorem advanceBy (h : s.Alike t) (n : Nat) : (s.advanceBy n).Alike (t.advanceBy n) := by
  induction n generalizing s t with
  | zero => exact h
  | succ n ih => exact ih h.advance

theorem report (h : s.Alike t) {e e' : ParseError} (he : erase e = erase e') :
    (s.report e).Alike (t.report e') := by
  simp only [Alike, ParserState.report, erase_mk, erase_append, erase_cons, h.before_eq,
    h.after_eq, h.eof_eq, h.errors_eq, he]

theorem returnTo (h : s.Alike t) {s' t' : ParserState} (h' : s'.Alike t') :
    (s.returnTo s').Alike (t.returnTo t') := by
  simp only [Alike, ParserState.returnTo, erase_mk, h'.before_eq, h'.after_eq, h.eof_eq,
    h.errors_eq]

theorem skipGroup (h : s.Alike t) : s.skipGroup.Alike t.skipGroup := by
  have hg := Group.take_erase s.eof [] s.after
  rw [h.eof_eq, h.after_eq, Group.take_erase] at hg
  obtain ⟨ht, hr, he⟩ := Group.mk.inj hg
  simp only [Alike, ParserState.skipGroup, erase_mk, erase_append, erase_reverse, h.before_eq,
    h.eof_eq, h.errors_eq, ht, hr, he]

theorem takenSince (h : s.Alike t) (place : Nat) :
    erase (s.takenSince place) = erase (t.takenSince place) := by
  rw [ParserState.takenSince, ParserState.takenSince, erase_reverse, erase_reverse, erase_take,
    erase_take, h.before_eq, h.place_eq]

end Alike

end ParserState

namespace Parser

/-! ## Texts -/

theorem textBetween_alike (start stop start' stop' : Nat) :
    Reader.Alike (textBetween start stop) (textBetween start' stop') := by
  refine .get fun s t _ => ?_
  -- a fault in one of the states does not make them differ
  split <;> split <;> exact fun _ _ h => ⟨rfl, h⟩

theorem textFrom_alike (start start' : Span) : Reader.Alike (textFrom start) (textFrom start') :=
  .get fun _ _ _ => textBetween_alike _ _ _ _

/-! ## Single tokens -/

theorem advance_alike : Reader.Alike advance advance :=
  fun _ _ h => ⟨h.peek_eq, h.advance⟩

theorem advanceBy_alike (n : Nat) : Reader.Alike (advanceBy n) (advanceBy n) := by
  refine .get fun s t h => .ite ?_ (.change fun _ _ h => h.advanceBy n) fun _ _ h => ⟨rfl, h⟩
  rw [h.after_length]

theorem report_alike {e e' : ParseError} (h : erase e = erase e') :
    Reader.Alike (report e) (report e') :=
  .change fun _ _ hs => hs.report h

theorem eat_alike (kind : TokenKind) : Reader.Alike (eat kind) (eat kind) := by
  refine .get fun s t h => .ite ?_ (advance_alike.discard.bind fun _ _ _ => .pure rfl) (.pure rfl)
  rw [h.isAt]

theorem eatMark_alike (mark : Punct) : Reader.Alike (eatMark mark) (eatMark mark) :=
  eat_alike _

theorem eatWord_alike (word : Keyword) : Reader.Alike (eatWord word) (eatWord word) :=
  eat_alike _

theorem unexpected_erase (kind : ParseErrorKind) (what : String) {t u : Token}
    (h : t.kind = u.kind) : erase (unexpected kind what t) = erase (unexpected kind what u) := by
  unfold unexpected
  rw [h]
  split <;> rfl

theorem failAt_alike [Erase α] (kind : ParseErrorKind) (what : String) :
    Parser.Alike (failAt kind what : Parser α) (failAt kind what) :=
  .get fun _ _ h => .throw (unexpected_erase kind what h.peek_kind)

theorem expect_alike (kind : TokenKind) : Parser.Alike (expect kind) (expect kind) := by
  refine .get fun s t h => .ite ?_ (.lift advance_alike) (failAt_alike _ _)
  rw [h.isAt]

theorem expectMark_alike (mark : Punct) : Parser.Alike (expectMark mark) (expectMark mark) :=
  expect_alike _

theorem orReport_alike [Erase α] {p q : Parser α} (h : Parser.Alike p q) :
    Reader.Alike (orReport p) (orReport q) := by
  refine Reader.Alike.bind h fun r r' hr => ?_
  obtain ⟨a, b, rfl, rfl, hab⟩ | ⟨e, e', rfl, rfl, he⟩ := Except.cases_of_erase hr
  · exact .pure (by rw [erase_some, erase_some, hab])
  · exact (report_alike he).bind fun _ _ _ => .pure rfl

theorem expectClosing_alike (mark : Punct) :
    Reader.Alike (expectClosing mark) (expectClosing mark) :=
  (orReport_alike (expectMark_alike mark)).discard

theorem ident_alike : Parser.Alike ident ident := by
  refine .get fun s t h => .ite ?_ ?_ (failAt_alike _ _)
  · rw [h.isAt]
  · refine .andThen advance_alike fun a b hab => .pure ?_
    rw [erase_ident, erase_ident, lexeme_eq_of_erase hab]

theorem word_alike : Reader.Alike word word :=
  advance_alike.bind fun _ _ h => .pure (by rw [erase_ident, erase_ident, lexeme_eq_of_erase h])

theorem skipGroup_alike : Reader.Alike skipGroup skipGroup :=
  .change fun _ _ h => h.skipGroup

theorem moveOn_alike (place : Nat) : Reader.Alike (moveOn place) (moveOn place) := by
  refine .get fun s t h => .ite ?_ advance_alike.discard (.pure rfl)
  rw [h.place_eq, h.isAtMark]

/-! ## Lists -/

section
variable [Erase α] {p q : Parser α}

theorem itemAndComma_alike (h : Parser.Alike p q) {as bs : List α} (hab : erase as = erase bs) :
    Parser.Alike (itemAndComma p as) (itemAndComma q bs) := by
  refine h.bind fun a b hab' => .andThen (eatMark_alike _) fun c d hcd => .ite ?_ ?_ ?_
  · obtain rfl : c = d := hcd
    rfl
  all_goals exact .pure (by simp [hab, hab'])

theorem commaSeparated_alike (h : Parser.Alike p q) :
    Parser.Alike (commaSeparated p) (commaSeparated q) :=
  loopOrFail_alike (fun _ _ => itemAndComma_alike h) rfl

theorem whileAt_alike {c d : ParserState → Bool} (hc : ∀ s t, s.Alike t → c s = d t)
    (h : Parser.Alike p q) : Parser.Alike (whileAt c p) (whileAt d q) := by
  refine loopOrFail_alike (fun as bs hab => .get fun s t hs => .ite ?_ ?_ ?_) rfl
  · rw [hc s t hs]
  · exact h.bind fun a b hab' => .pure (by simp [hab, hab'])
  · exact .pure (by simp [hab])

/-! ## Recovery -/

theorem synchronizeStep_alike : Reader.Alike synchronizeStep synchronizeStep := by
  refine .get fun s t h => .ite ?_ (.pure rfl) <| .ite ?_ ?_ <| .ite ?_ ?_ ?_
  · rw [h.isAtEof, h.isAtMark]
  · rw [h.isAtMark]
  · exact advance_alike.discard.bind fun _ _ _ => .pure rfl
  · rw [h.isAtMark]
  · exact skipGroup_alike.bind fun _ _ _ => (eatMark_alike _).discard.bind fun _ _ _ => .pure rfl
  · exact skipGroup_alike.bind fun _ _ _ => .pure rfl

theorem synchronize_alike : Reader.Alike synchronize synchronize :=
  loop_alike (fun _ _ _ => synchronizeStep_alike) rfl

theorem orRecover_alike (h : Parser.Alike p q) :
    Reader.Alike (orRecover p) (orRecover q) := by
  refine Reader.Alike.bind h fun r r' hr => ?_
  obtain ⟨a, b, rfl, rfl, hab⟩ | ⟨e, e', rfl, rfl, he⟩ := Except.cases_of_erase hr
  · exact .pure (by rw [erase_some, erase_some, hab])
  · exact (report_alike he).bind fun _ _ _ => synchronize_alike.bind fun _ _ _ => .pure rfl

end

end Parser

end CommandModules

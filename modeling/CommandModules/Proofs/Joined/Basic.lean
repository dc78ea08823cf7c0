/-
  Command modules — the basic readers in a longer text.

  Each has a lemma with its name: what it does, it does in the longer text as well.

  * `Group.take_shift`: a group that is closed ends where it ended;
  * `textFrom_carries`: a text is cut out of the longer one as it was;
  * `synchronize_carries`: what is passed over to the next declaration stays the same.
-/
import CommandModules.Proofs.Joined.Rules
import CommandModules.Proofs.Safe.Basic

namespace CommandModules

variable {α : Type} {w : Frame} {r k : Bool} {s s' : ParserState} {d : Distance}

/-! ## Groups -/

namespace Group

theorem openBehind_shift (t : Token) (marks : List Punct) :
    openBehind (shift d t) marks = ((openBehind t marks).1, shift d (openBehind t marks).2) := by
  unfold openBehind
  rw [kind_shift]
  split
  · split
    · rfl
    split
    · split
      · rfl
      · split <;> rfl
    · rfl
  · rfl

/-- A group without errors is the same before other tokens. -/
theorem take_shift {eof eof' : Token} {marks : List Punct} {ts us : List Token}
    (he : (take eof marks ts).errors = []) (hu : ts = [] → marks = [] → us = []) :
    take eof' marks (shift d ts ++ us) = ⟨shift d (take eof marks ts).taken,
      shift d (take eof marks ts).rest ++ us, []⟩ := by
  induction ts generalizing marks with
  | nil =>
    cases marks with
    | nil =>
      rw [hu rfl rfl]
      rfl
    | cons => cases he
  | cons t ts ih =>
    rw [take] at he
    rw [shift_cons, List.cons_append, take, take, openBehind_shift]
    dsimp only at he ⊢
    by_cases hb : (openBehind t marks).1 = []
    · rw [if_pos hb] at he
      obtain he : (openBehind t marks).2 = [] := he
      rw [if_pos hb, if_pos hb, he]
      rfl
    · rw [if_neg hb] at he
      obtain ⟨hbehind, hlater⟩ := List.append_eq_nil_iff.1 he
      rw [if_neg hb, if_neg hb, hbehind, ih hlater fun _ hm => absurd hm hb]
      rfl

end Group

namespace ParserState

theorem onward_advance (s : ParserState) : s.Onward s.advance := by
  rcases s with ⟨source, before, _ | ⟨t, ts⟩, eof, errors, faults⟩
  · exact .refl _
  · exact ⟨rfl, rfl, ⟨[t], rfl, rfl⟩, ⟨[], (List.append_nil _).symm⟩, ⟨[], (List.append_nil _).symm⟩⟩

theorem before_advance_ne_nil (h : s.after ≠ []) : s.advance.before ≠ [] := by
  rcases s with ⟨source, before, _ | ⟨t, ts⟩, eof, errors, faults⟩
  · exact absurd rfl h
  · exact List.cons_ne_nil t before

theorem Bounded.advance (hb : s.Bounded w) (hk : s.peek.kind.endsDeclaration = false) :
    s.advance.Bounded w := by
  rcases s with ⟨source, before, _ | ⟨t, ts⟩, eof, errors, faults⟩
  · exact hb
  · exact hb.mono rfl (List.singleton_append).symm (List.forall_mem_singleton.2 hk)

theorem peek_advance (s : ParserState) : s.advance.peek = s.peekAt 1 := by
  rcases s with ⟨source, before, _ | ⟨t, _ | ⟨u, us⟩⟩, eof, errors, faults⟩ <;> rfl

theorem advance_within (hb : s.Bounded w) : (s.within w).advance = s.advance.within w := by
  rcases s with ⟨source, before, _ | ⟨t, ts⟩, eof, errors, faults⟩
  · cases hb with
    | stopped h => cases h
    | ended hw =>
      show ParserState.advance ⟨_, _, w.after, _, _, _⟩ = ⟨_, _, w.after, _, _, _⟩
      rw [hw]
      rfl
  · rfl

theorem onward_advanceBy (n : Nat) (s : ParserState) : s.Onward (advanceBy n s) := by
  induction n generalizing s with
  | zero => exact .refl s
  | succ n ih => exact (onward_advance s).trans (ih s.advance)

theorem advanceBy_within {n : Nat} (hb : (advanceBy n s).Bounded w) :
    advanceBy n (s.within w) = (advanceBy n s).within w := by
  induction n generalizing s with
  | zero => rfl
  | succ n ih =>
    have hs : s.Bounded w := (onward_advanceBy (n + 1) s).bounded hb
    rw [advanceBy, advanceBy, advance_within hs]
    exact ih hb

theorem Bounded.advanceBy (hb : s.Bounded w) {n : Nat}
    (hk : ∀ t ∈ s.after.take n, t.kind.endsDeclaration = false) : (advanceBy n s).Bounded w := by
  induction n generalizing s with
  | zero => exact hb
  | succ n ih =>
    rcases s with ⟨source, before, _ | ⟨t, ts⟩, eof, errors, faults⟩
    · exact ih hb fun t ht => absurd ht (by simp [ParserState.advance])
    · obtain ⟨ht, hts⟩ := List.forall_mem_cons.1 hk
      exact ih (hb.advance ht) hts

theorem onward_report (s : ParserState) (e : ParseError) : s.Onward (s.report e) :=
  ⟨rfl, rfl, ⟨[], rfl, rfl⟩, ⟨[e], rfl⟩, ⟨[], (List.append_nil _).symm⟩⟩

/-- What was recorded stays. -/
theorem Onward.not_quiet {e : ParseError} {s'' : ParserState} (h : s.Onward s')
    (h' : (s'.report e).Onward s'') : ¬ s.Quiet s'' := by
  intro hq
  have hl := (h.trans (onward_report s' e)).quiet_left h' hq
  obtain ⟨es, he⟩ := h.errors_eq
  have := congrArg List.length hl.1
  simp [report, he] at this

theorem onward_skipGroup (s : ParserState) : s.Onward s.skipGroup :=
  ⟨rfl, rfl, ⟨_, (Group.take_append ..).symm, rfl⟩, ⟨_, rfl⟩, ⟨[], (List.append_nil _).symm⟩⟩

theorem skipGroup_within (hq : s.Quiet s.skipGroup) (hb : s.Bounded w) :
    (s.within w).skipGroup = s.skipGroup.within w := by
  have he : (Group.take s.eof [] s.after).errors = [] := by simpa [skipGroup] using hq.1
  have hu : s.after = [] → ([] : List Punct) = [] → w.after = [] := fun ha _ => hb.eq_nil ha
  have hgroup : Group.take (s.within w).eof [] (s.within w).after = _ := Group.take_shift he hu
  rw [skipGroup, hgroup]
  simp [skipGroup, within, he]

end ParserState

open ParserState

namespace Parser

/-! ## Texts -/

theorem textBetween_carries (start stop : Nat) :
    Reader.Carries w r k s (textBetween start stop)
      (textBetween (start + w.distance.bytes) (stop + w.distance.bytes)) := by
  refine .get ?_
  cases hcut : Text.between? start stop s.source with
  | some cs =>
    have : Text.between? (start + w.distance.bytes) (stop + w.distance.bytes) (s.within w).source =
      some cs := between?_append hcut w.front w.back
    dsimp only
    rw [this]
    exact .pure rfl
  | none =>
    exact .of_recorded ((Onward.refl s).fault _) (fun _ hb => hb.same rfl rfl)
      ((Onward.refl s).fault_not_quiet _)

theorem textFrom_carries (start : Span) :
    Reader.Carries w true k s (textFrom start) (textFrom (shift w.distance start)) := by
  refine .get ((textBetween_carries ..).congr fun hr hb => ?_)
  have hmax (m n : Nat) : max (m + w.distance.bytes) (n + w.distance.bytes) =
      max m n + w.distance.bytes := by omega
  rw [(hr rfl).previousSpan hb, stop_shift, offset_shift, hmax]

/-! ## Single tokens -/

theorem advance_of (hk : k = true → s.peek.kind.endsDeclaration = false) :
    Reader.Carries w r k s advance advance := by
  refine ⟨onward_advance s, fun h hb => hb.advance (hk h), fun _ _ hb _ => ?_⟩
  have hs := (onward_advance s).bounded hb
  show ((s.within w).peek, (s.within w).advance) = _
  rw [hs.peek, advance_within hs]
  rfl

theorem advance_carries : Reader.Carries w r false s advance advance :=
  advance_of nofun

theorem advanceBy_of {n : Nat}
    (hk : k = true → ∀ t ∈ s.after.take n, t.kind.endsDeclaration = false) :
    Reader.Carries w r k s (advanceBy n) (advanceBy n) := by
  refine .get ?_
  by_cases hn : n ≤ s.after.length
  · rw [if_pos hn, if_pos (by rw [length_after_within]; omega)]
    exact .change (onward_advanceBy n s) (fun h hb => hb.advanceBy (hk h))
      fun _ hb => advanceBy_within hb
  · rw [if_neg hn]
    exact .of_recorded ((Onward.refl s).fault _) (fun _ hb => hb.same rfl rfl)
      ((Onward.refl s).fault_not_quiet _)

theorem advanceBy_carries (n : Nat) : Reader.Carries w r false s (advanceBy n) (advanceBy n) :=
  advanceBy_of nofun

/-- An error that is recorded has nothing to be carried over to. -/
theorem report_carries (e : ParseError) {q : Reader Unit} :
    Reader.Carries w r false s (report e) q :=
  .of_recorded (onward_report s e) nofun ((Onward.refl s).not_quiet (.refl _))

theorem eat_of {kind : TokenKind} (hk : k = true → kind.endsDeclaration = false) :
    Reader.Carries w r k s (eat kind) (eat kind) := by
  refine .get (.ite (fun hb => by rw [hb.isAt]) (fun hc => ?_) fun _ => .pure rfl)
  refine (advance_of fun h => ?_).discard.bind fun _ _ _ => .pure rfl
  exact endsDeclaration_of_eq (beq_iff_eq.1 hc) (hk h)

theorem eatMark_carries (mark : Punct) :
    Reader.Carries w r false s (eatMark mark) (eatMark mark) :=
  eat_of nofun

theorem eatWord_carries (word : Keyword) : Reader.Carries w r k s (eatWord word) (eatWord word) :=
  eat_of fun _ => rfl

theorem unexpected_shift (kind : ParseErrorKind) (what : String) (t : Token) :
    unexpected kind what (shift d t) = shift d (unexpected kind what t) := by
  unfold unexpected
  rw [kind_shift]
  split <;> rfl

theorem failAt_carries [Shift α] (kind : ParseErrorKind) (what : String) :
    Parser.Carries w r k s (failAt kind what : Parser α) (failAt kind what) :=
  .get (.throw fun _ _ hb => by rw [hb.peek, unexpected_shift])

theorem expect_of {kind : TokenKind} (hk : k = true → kind.endsDeclaration = false) :
    Parser.Carries w r k s (expect kind) (expect kind) :=
  .get (.ite (fun hb => by rw [hb.isAt])
    (fun hc => .lift (advance_of fun h => endsDeclaration_of_eq (beq_iff_eq.1 hc) (hk h)))
    fun _ => failAt_carries _ _)

theorem expect_carries (kind : TokenKind) :
    Parser.Carries w r false s (expect kind) (expect kind) :=
  expect_of nofun

theorem expectMark_carries (mark : Punct) :
    Parser.Carries w r false s (expectMark mark) (expectMark mark) :=
  expect_of nofun

theorem ident_carries : Parser.Carries w r k s ident ident := by
  refine .get (.ite (fun hb => by rw [hb.isAt]) (fun hc => ?_) fun _ => failAt_carries _ _)
  exact .andThen (advance_of fun _ => endsDeclaration_of_eq (beq_iff_eq.1 hc) rfl)
    fun _ _ _ => .pure rfl

theorem ident_run {i : Ident} (h : ident.run.run s = (.ok i, s')) :
    s.isAt .identifier = true ∧ s' = s.advance := by
  cases hc : s.isAt .identifier with
  | true =>
    have : ident.run.run s = (.ok ⟨s.peek.lexeme, s.peek.span⟩, s.advance) := by
      show (if s.isAt .identifier then _ else _ : Parser Ident).run.run s = _
      rw [hc]
      rfl
    cases this.symm.trans h
    exact ⟨rfl, rfl⟩
  | false =>
    have : ident.run.run s = (.error (unexpected .expectedIdentifier "identifier" s.peek), s) := by
      show (if s.isAt .identifier then _ else _ : Parser Ident).run.run s = _
      rw [hc]
      rfl
    cases this.symm.trans h

theorem word_carries : Reader.Carries w r false s word word :=
  advance_carries.bind fun _ _ _ => .pure rfl

theorem skipGroup_carries : Reader.Carries w r false s skipGroup skipGroup :=
  .change (onward_skipGroup s) nofun fun hq hb =>
    skipGroup_within hq ((onward_skipGroup s).bounded hb)

theorem moveOn_carries (place : Nat) :
    Reader.Carries w r false s (moveOn place) (moveOn (place + w.before.length)) := by
  refine .get (.ite (fun hb => ?_) (fun _ => advance_carries.discard) fun _ => .pure rfl)
  rw [place_within, hb.isAtMark]
  simp

/-! ## Lists -/

section
variable [Shift α] {p q : Parser α}

theorem itemAndComma_carries (h : Parser.Carries w r k s p q) (as : List α) :
    Parser.Carries w r k s (itemAndComma p as) (itemAndComma q (shift w.distance as)) := by
  refine h.bind fun a s' _ => .andThen (eat_of fun _ => rfl) fun b _ _ => ?_
  refine .ite (fun _ => Iff.rfl) (fun _ => .pure ?_) fun _ => .pure ?_
  all_goals simp

theorem commaSeparated_carries (h : ∀ s', s.Onward s' → Parser.Carries w r k s' p q) :
    Parser.Carries w r k s (commaSeparated p) (commaSeparated q) :=
  loopOrFail_carries (fun as s' hs => itemAndComma_carries (h s' hs) as) []

theorem whileAt_carries {c d : ParserState → Bool}
    (hc : ∀ s', s'.Bounded w → d (s'.within w) = c s')
    (h : ∀ s', s.Onward s' → c s' = true → Parser.Carries w r k s' p q) :
    Parser.Carries w r k s (whileAt c p) (whileAt d q) := by
  refine loopOrFail_carries (fun as s' hs => .get (.ite (fun hb => by rw [hc s' hb]) (fun hcs => ?_)
    fun _ => .pure rfl)) []
  exact (h s' hs hcs).bind fun a _ _ => .pure (by simp)

end

/-! ## Recovery -/

theorem synchronizeStep_carries : Reader.Carries w r false s synchronizeStep synchronizeStep := by
  refine .get (.ite (fun hb => by rw [hb.isAtEof, hb.isAtMark]) (fun _ => .pure rfl) fun _ =>
    .ite (fun hb => by rw [hb.isAtMark]) (fun _ => ?_) fun _ =>
    .ite (fun hb => by rw [hb.isAtMark]) (fun _ => ?_) fun _ => ?_)
  · exact advance_carries.discard.bind fun _ _ _ => .pure rfl
  · exact skipGroup_carries.bind fun _ _ _ =>
      (eatMark_carries _).discard.bind fun _ _ _ => .pure rfl
  · exact skipGroup_carries.bind fun _ _ _ => .pure rfl

theorem synchronize_carries : Reader.Carries w r false s synchronize synchronize :=
  loop_carries (fun _ _ _ => synchronizeStep_carries.mono fun _ _ => ⟨⟩) ()

theorem synchronize_onward (s : ParserState) : s.Onward (synchronize.run s).2 :=
  have carries : Reader.Carries ⟨[], [], [], [], s.eof⟩ false false s synchronize synchronize :=
    synchronize_carries
  carries.onward

end Parser

end CommandModules

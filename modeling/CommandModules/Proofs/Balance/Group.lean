/-
  Command modules — the groups that are skipped.

  A group is given by a grammar here, which knows of no stack of open marks.

  * `Groups ts`: the tokens are plain tokens and whole groups; `IsGroup ts`: they are one group,
    in a mark that opens it and the mark that closes it;
  * `nested_iff_groups`: this is what the stack of open marks accepts;
  * `Group.isGroup_of_take`: where nothing is recorded at a mark that opens a group, one group was
    taken and no token more;
  * `loop_skipRound`: token by token, with the stack as its state, the loop comes to an end with
    what `skipGroup` takes in one go;
  * `skipGroup_takes_groups`: a group is skipped whole, and silence means that it was one.
-/
import CommandModules.Proofs.Joined.Basic
import CommandModules.Proofs.Taken.Ahead

namespace CommandModules

/-! ## The grammar of groups -/

theorem Punct.isCloser_of_isOpener {mark : Punct} : mark.isOpener = true → mark.isCloser = false := by
  cases mark <;> decide

/-- Plain tokens, and groups that are closed by the mark that goes with the one that opens them,
    with tokens of this sort in them. -/
inductive Groups : List Token → Prop
  | nil : Groups []
  | flat {t : Token} {ts : List Token} : t.isFlat = true → Groups ts → Groups (t :: ts)
  | group {opener closer : Token} {mark : Punct} {ts us : List Token} :
      opener.kind = .punct mark → mark.isOpener = true → closer.kind = .punct mark.closer →
      Groups ts → Groups us → Groups (opener :: (ts ++ closer :: us))

/-- One group. -/
def IsGroup (ts : List Token) : Prop :=
  ∃ opener closer mark us, ts = opener :: (us ++ [closer]) ∧ opener.kind = .punct mark ∧
    mark.isOpener = true ∧ closer.kind = .punct mark.closer ∧ Groups us

/-- Tokens that close the marks, innermost first, with groups before, between and behind them. -/
def Segmented : List Punct → List Token → Prop
  | [], ts => Groups ts
  | mark :: outer, ts => ∃ us closer vs, ts = us ++ closer :: vs ∧ Groups us ∧
      closer.kind = .punct mark.closer ∧ Segmented outer vs

section
variable {marks behind : List Punct} {t : Token} {ts us : List Token}

theorem Groups.append (h : Groups ts) (h' : Groups us) : Groups (ts ++ us) := by
  induction h with
  | nil => exact h'
  | flat ht _ ih => exact .flat ht ih
  | group ho hm hc hts _ _ ih =>
    rw [List.cons_append, List.append_assoc, List.cons_append]
    exact .group ho hm hc hts ih

/-- Groups before the first mark that is closed. -/
theorem Segmented.prepend (h : Groups ts) (h' : Segmented marks us) : Segmented marks (ts ++ us) := by
  cases marks with
  | nil => exact h.append h'
  | cons mark outer =>
    obtain ⟨us, closer, vs, rfl, hus, hc, hvs⟩ := h'
    exact ⟨ts ++ us, closer, vs, (List.append_assoc ..).symm, h.append hus, hc, hvs⟩

/-- What a token can do to the open marks. -/
theorem Token.openBehind?_cases (h : t.openBehind? marks = some behind) :
    (t.isFlat = true ∧ behind = marks) ∨
    (∃ mark, t.kind = .punct mark ∧ mark.isOpener = true ∧ behind = mark :: marks) ∨
    ∃ mark, t.kind = .punct mark.closer ∧ marks = mark :: behind := by
  unfold openBehind? at h
  unfold isFlat
  cases marks <;> split at h <;> grind

theorem segmented_of_openBehind? (h : openBehind? marks ts = some []) : Segmented marks ts := by
  induction ts generalizing marks with
  | nil =>
    obtain rfl : marks = [] := by simpa [openBehind?] using h
    exact .nil
  | cons t ts ih =>
    obtain ⟨behind, ht, hts⟩ := Option.bind_eq_some_iff.1 h
    have hrest := ih hts
    obtain ⟨hflat, rfl⟩ | ⟨mark, hk, hm, rfl⟩ | ⟨mark, hk, rfl⟩ := Token.openBehind?_cases ht
    · exact .prepend (.flat hflat .nil) hrest
    · obtain ⟨us, closer, vs, rfl, hus, hc, hvs⟩ := hrest
      have := Segmented.prepend (.group hk hm hc hus .nil) hvs
      simpa using this
    · exact ⟨[], t, ts, rfl, .nil, hk, hrest⟩

theorem Groups.nested (h : Groups ts) : Nested ts := by
  induction h with
  | nil => exact .nil
  | flat ht _ ih => exact .cons ht ih
  | group ho hm hc _ _ ih ih' => simpa using (Nested.group ho hm hc ih).append ih'

/-- **The stack of open marks accepts plain tokens and whole groups**, and nothing else. -/
theorem nested_iff_groups : Nested ts ↔ Groups ts :=
  ⟨segmented_of_openBehind?, Groups.nested⟩

end

/-! ## Groups that are taken -/

namespace Group

variable {eof opener : Token} {mark : Punct} {ts rest : List Token}

/-- A group is taken whole, whatever follows it. -/
theorem take_group (h : IsGroup ts) : take eof [] (ts ++ rest) = ⟨ts, rest, []⟩ := by
  obtain ⟨opener, closer, mark, us, rfl, ho, hm, hc, hus⟩ := h
  rw [List.cons_append, List.append_assoc, List.singleton_append]
  exact take_nested ho hm hc hus.nested

/-- **Where nothing is recorded at a mark that opens a group, one group was taken.** -/
theorem isGroup_of_take (ho : opener.kind = .punct mark) (hm : mark.isOpener = true)
    (h : (take eof [] (opener :: ts)).errors = []) : IsGroup (take eof [] (opener :: ts)).taken := by
  have hcloser : ∀ p, opener.kind = .punct p → p.isCloser = false := fun p hp =>
    TokenKind.punct.inj (ho.symm.trans hp) ▸ Punct.isCloser_of_isOpener hm
  have hgroups := nested_iff_groups.1 (nested_of_take h hcloser)
  have happend := take_append eof [] (opener :: ts)
  generalize hg : take eof [] (opener :: ts) = g at hgroups happend
  obtain ⟨taken, rest, errors⟩ := g
  dsimp only at hgroups happend ⊢
  cases hgroups with
  | nil => exact absurd (congrArg Group.taken hg) (take_taken_ne_nil (List.cons_ne_nil _ _))
  | flat hflat _ =>
    obtain ⟨rfl, -⟩ := List.cons.inj happend
    simp [Token.isFlat, ho, hm] at hflat
  | @group first closer mark us vs ho' hm' hc hus _ =>
    have hgroup : IsGroup (first :: (us ++ [closer])) :=
      ⟨first, closer, mark, us, rfl, ho', hm', hc, hus⟩
    have hsplit : first :: (us ++ [closer]) ++ (vs ++ rest) = opener :: ts := by
      simpa using happend
    -- the group at the head is taken whole, so nothing was taken behind it
    have hwhole : take eof [] (opener :: ts) = _ := hsplit ▸ take_group hgroup
    rw [hg] at hwhole
    rw [(Group.mk.inj hwhole).1]
    exact hgroup

end Group

/-! ## Token by token -/

namespace ParserState

/-- The state with more errors. -/
def record (s : ParserState) (es : List ParseError) : ParserState :=
  { s with errors := s.errors ++ es }

/-- The state behind the group that closes the marks, innermost first. -/
def skipOpen (s : ParserState) (marks : List Punct) : ParserState :=
  let group := Group.take s.eof marks s.after
  { s with
    before := group.taken.reverse ++ s.before
    after := group.rest
    errors := s.errors ++ group.errors }

variable {s : ParserState} {marks : List Punct}

theorem skipOpen_eof (h : s.after = []) :
    s.skipOpen marks = s.record (marks.head?.map (Group.unclosed s.eof)).toList := by
  simp [skipOpen, h, Group.take, record]

/-- One token of a group. -/
theorem skipOpen_cons {t : Token} {ts : List Token} (h : s.after = t :: ts) :
    s.skipOpen marks =
      if (Group.openBehind t marks).1 = [] then (s.record (Group.openBehind t marks).2).advance
      else (s.record (Group.openBehind t marks).2).advance.skipOpen (Group.openBehind t marks).1 := by
  split <;> simp_all [skipOpen, Group.take, advance, record]

end ParserState

namespace Parser

open ParserState

/-- One token of a group behind which the marks are open, innermost first.  The group goes on if
    a mark is open behind the token as well. -/
def skipRound (marks : List Punct) : Reader (Round (List Punct) Unit) := do
  let s ← get
  if s.isAtEof then
    modify (·.record (marks.head?.map (Group.unclosed s.eof)).toList)
    return .done ()
  else
    let behind := Group.openBehind s.peek marks
    modify (·.record behind.2)
    discard advance
    if behind.1 = [] then return .done () else return .next behind.1

variable {s : ParserState} {marks : List Punct}

theorem skipRound_run_nil (heof : s.eof.kind = .eof) (h : s.after = []) :
    (skipRound marks).run s = (.done (), s.skipOpen marks) := by
  have hend : s.isAtEof = true := by simp [isAtEof, isAt, peek, h, heof]
  rw [skipRound, Reader.run_bind, Reader.run_get, if_pos hend, skipOpen_eof h]
  rfl

theorem skipRound_run_cons {t : Token} {ts : List Token} (h : s.after = t :: ts)
    (ht : t.kind ≠ .eof) :
    (skipRound marks).run s =
      (if (Group.openBehind t marks).1 = [] then .done () else .next (Group.openBehind t marks).1,
        (s.record (Group.openBehind t marks).2).advance) := by
  have hpeek : s.peek = t := by simp [peek, h]
  have hend : ¬ s.isAtEof = true := by simpa [isAtEof, isAt, hpeek] using ht
  rw [skipRound, Reader.run_bind, Reader.run_get, if_neg hend, hpeek]
  dsimp only
  split <;> rfl

theorem loopWithin_skipRound {fuel : Nat} (heof : s.eof.kind = .eof)
    (hne : ∀ t ∈ s.after, t.kind ≠ .eof) (hf : s.after.length < fuel) :
    (loopWithin skipRound fuel marks).run s = ((), s.skipOpen marks) := by
  induction fuel generalizing s marks with
  | zero => omega
  | succ fuel ih =>
    rw [loopWithin_run]
    cases ha : s.after with
    | nil => rw [skipRound_run_nil heof ha]
    | cons t ts =>
      rw [skipRound_run_cons ha (hne t (by simp [ha])), skipOpen_cons ha]
      by_cases hb : (Group.openBehind t marks).1 = []
      · rw [if_pos hb, if_pos hb]
      · rw [if_neg hb, if_neg hb]
        have hstep := consumes_cons (s := s.record (Group.openBehind t marks).2) ha
        have hnext : (s.record _).advance.after = ts :=
          (List.cons.inj (ha.symm.trans hstep.after_eq)).2.symm
        rw [ha] at hf hne
        dsimp only
        rw [if_pos (by rw [hnext]; exact Nat.lt_succ_self _)]
        refine ih (hstep.eof_eq ▸ heof) (fun u hu => hne u ?_) ?_
        · exact List.mem_cons_of_mem t (hnext ▸ hu)
        · rw [hnext]
          exact Nat.lt_of_succ_lt_succ hf

/-- **Token by token the group is skipped as in one go**, and the loop comes to an end. -/
theorem loop_skipRound (heof : s.eof.kind = .eof) (hne : ∀ t ∈ s.after, t.kind ≠ .eof) :
    (loop skipRound []).run s = skipGroup.run s :=
  loopWithin_skipRound heof hne (Nat.lt_succ_self _)

/-! ## Groups that are skipped -/

theorem consumes_skipGroup (s : ParserState) :
    Consumes (Group.take s.eof [] s.after).taken s s.skipGroup :=
  ⟨(Group.take_append ..).symm, rfl, rfl⟩

theorem skipGroup_of_isGroup {ts rest : List Token} (h : IsGroup ts) (ha : s.after = ts ++ rest) :
    s.skipGroup = { s with before := ts.reverse ++ s.before, after := rest } := by
  rw [ParserState.skipGroup, ha, Group.take_group h]
  simp

theorem isGroup_of_skipGroup {mark : Punct} (hmark : s.isAtMark mark = true)
    (hm : mark.isOpener = true) (heof : s.eof.kind = .eof) (he : s.skipGroup.errors = s.errors) :
    IsGroup (Group.take s.eof [] s.after).taken := by
  have hk : s.peek.kind = .punct mark := beq_iff_eq.1 hmark
  have herr : (Group.take s.eof [] s.after).errors = [] := by
    simpa [ParserState.skipGroup] using he
  cases ha : s.after with
  | nil => simp [peek, ha, heof] at hk
  | cons t ts =>
    rw [ha] at herr
    exact Group.isGroup_of_take (by simpa [peek, ha] using hk) hm herr

/-- **A group is skipped whole, and silence means that it was one.**  If the tokens to come begin
    with a group, then exactly this group is consumed and nothing else changes.  If nothing is
    recorded at a mark that opens a group, then what was consumed is one group.  In any case the
    loop over the tokens comes to an end, and it has consumed a token unless none was left. -/
theorem skipGroup_takes_groups (heof : s.eof.kind = .eof) (hne : ∀ t ∈ s.after, t.kind ≠ .eof) :
    (∀ ts rest, IsGroup ts → s.after = ts ++ rest →
      s.skipGroup = { s with before := ts.reverse ++ s.before, after := rest }) ∧
    (∀ mark, s.isAtMark mark = true → mark.isOpener = true → s.skipGroup.errors = s.errors →
      ∃ ts, IsGroup ts ∧ Consumes ts s s.skipGroup) ∧
    (loop skipRound []).run s = ((), s.skipGroup) ∧ s.skipGroup.faults = s.faults ∧
    ∃ ts, Consumes ts s s.skipGroup ∧ (s.isAtEof = false → ts ≠ []) := by
  refine ⟨fun ts rest => skipGroup_of_isGroup, fun mark hmark hm he => ?_,
    loop_skipRound heof hne, rfl, _, consumes_skipGroup s, fun hend => ?_⟩
  · exact ⟨_, isGroup_of_skipGroup hmark hm heof he, consumes_skipGroup s⟩
  · refine Group.take_taken_ne_nil fun ha => ?_
    simp [isAtEof, isAt, peek, ha, heof] at hend

/-- Groups of all three kinds in a group, and a word behind it. -/
theorem skipGroup_takes_groups_mixed :
    let s := ParserState.ofText "( a [ b ] \x7b c \x7d ) d"
    s.eof.kind = .eof ∧ (∀ t ∈ s.after, t.kind ≠ .eof) ∧ s.isAtMark .leftParen = true ∧
      s.isAtEof = false ∧ s.skipGroup.errors = s.errors ∧ s.skipGroup.peek.lexeme = "d" ∧
      (loop skipRound []).run s = ((), s.skipGroup) ∧
      ∃ ts rest, IsGroup ts ∧ ts.length = 9 ∧ s.after = ts ++ rest ∧
        s.skipGroup = { s with before := ts.reverse ++ s.before, after := rest } := by
  intro s
  have hgood : s.Good _ := ofText_good _
  obtain ⟨hmark, hend, he, hd, hrest⟩ : s.isAtMark .leftParen = true ∧ s.isAtEof = false ∧
      s.skipGroup.errors = s.errors ∧ s.skipGroup.peek.lexeme = "d" ∧
        s.skipGroup.after.length + 9 = s.after.length := by
    decide +kernel
  obtain ⟨hwhole, hgroup, hloop, -⟩ := skipGroup_takes_groups hgood.eof_kind hgood.ne_eof
  obtain ⟨ts, hts, hc⟩ := hgroup .leftParen hmark rfl he
  have hlen := congrArg List.length hc.after_eq
  rw [List.length_append] at hlen
  exact ⟨hgood.eof_kind, hgood.ne_eof, hmark, hend, he, hd, hloop, ts, _, hts, by omega, hc.after_eq,
    hwhole ts _ hts hc.after_eq⟩

/-- A mark that closes another group is recorded and passed over. -/
example : (ParserState.ofText "( a ] ) b").skipGroup.errors.length = 1 ∧
    (ParserState.ofText "( a ] ) b").skipGroup.peek.lexeme = "b" := by decide +kernel

end Parser

end CommandModules

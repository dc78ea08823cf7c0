/-
  Command modules — the entries of a text with others below them.

  * `entries_append`: entries are read behind others as they are read alone;
  * `entries_head_ne`: no semicolon stands before the entries of a text without errors;
  * `entries_below`: where the entries of a text end, the longer text goes on with those below
    them, by induction on the rounds.
-/
import CommandModules.Proofs.Joined.Unit

namespace CommandModules.Parser

open ParserState

variable {w : Frame} {s s' : ParserState} {depth n m : Nat} {braced : Bool}

/-! ## Rounds -/

theorem moveOn_run (place : Nat) (s : ParserState) : (moveOn place).run s =
    ((), if s.place = place && !s.isAtMark .rightBrace then s.advance else s) := by
  show (if s.place = place && !s.isAtMark .rightBrace then _ else _ : Reader Unit).run s = _
  split <;> rfl

theorem moveOn_onward (place : Nat) (s : ParserState) : s.Onward ((moveOn place).run s).2 := by
  rw [moveOn_run]
  dsimp only
  split
  · exact onward_advance s
  · exact .refl s

theorem moveOn_within {place : Nat} (h : s.Bounded w ∨ s.place ≠ place) :
    ((moveOn (place + w.before.length)).run (s.within w)).2 =
      ((moveOn place).run s).2.within w := by
  rw [moveOn_run, moveOn_run, place_within]
  dsimp only
  by_cases hp : s.place = place
  · have hb := h.resolve_right (not_not_intro hp)
    rw [hp, hb.isAtMark, decide_eq_true rfl, decide_eq_true rfl]
    split
    · exact advance_within hb
    · rfl
  · rw [decide_eq_false hp, decide_eq_false (by omega)]
    rfl

/-- The state behind the next entry. -/
def behindEntry (nested : Bool → Reader (List Entry)) (s : ParserState) : ParserState :=
  ((moveOn s.place).run ((entryWith nested).run s).2).2

theorem entryStep_run (nested : Bool → Reader (List Entry)) (braced : Bool) (es : List Entry)
    (s : ParserState) : (entryStep nested braced es).run s =
      if s.isAtEof || (braced && s.isAtMark .rightBrace) then (.done es, s)
      else (.next (es ++ ((entryWith nested).run s).1.toList), behindEntry nested s) := by
  show (if s.isAtEof || (braced && s.isAtMark .rightBrace) then _ else _ : Reader _).run s = _
  split <;> rfl

/-- How the entries of a text go on. -/
theorem entries_run (nested : Bool → Reader (List Entry)) (braced : Bool) (n : Nat)
    (es : List Entry) (s : ParserState) : (loopWithin (entryStep nested braced) (n + 1) es).run s =
      if s.isAtEof || (braced && s.isAtMark .rightBrace) then (es, s)
      else if (behindEntry nested s).after.length < s.after.length then
        (loopWithin (entryStep nested braced) n (es ++ ((entryWith nested).run s).1.toList)).run
          (behindEntry nested s)
      else (stall : Reader (List Entry)).run (behindEntry nested s) := by
  rw [loopWithin_run, entryStep_run]
  by_cases hend : (s.isAtEof || (braced && s.isAtMark .rightBrace)) = true
  · rw [if_pos hend, if_pos hend]
  · rw [if_neg hend, if_neg hend]
    exact apply_ite (fun p : Reader (List Entry) => p.run (behindEntry nested s)) ..

theorem entryWith_onward (depth : Nat) (s : ParserState) :
    s.Onward ((entryWith (entriesWithin depth)).run s).2 := by
  have entry : Reader.Carries ⟨[], [], [], [], s.eof⟩ false false s
      (entryWith (entriesWithin depth)) (entryWith (entriesWithin depth)) :=
    entryWith_carries fun braced _ => entriesWithin_carries (le_refl depth) braced
  exact entry.onward

theorem behindEntry_onward (depth : Nat) (s : ParserState) :
    s.Onward (behindEntry (entriesWithin depth) s) :=
  (entryWith_onward depth s).trans (moveOn_onward s.place _)

theorem entries_onward {as es : List Entry}
    (h : (loopWithin (entryStep (entriesWithin depth) braced) n as).run s = (es, s')) :
    s.Onward s' := by
  induction n generalizing s as with
  | zero =>
    cases h
    exact (Onward.refl s).fault _
  | succ n ih =>
    have ho := behindEntry_onward depth s
    rw [entries_run] at h
    split at h
    · cases h
      exact .refl _
    split at h
    · exact ho.trans (ih h)
    · cases h
      exact ho.fault _

/-- Entries are read behind others as they are read alone. -/
theorem entries_append {as es : List Entry}
    (h : (loopWithin (entryStep (entriesWithin depth) braced) n as).run s = (es, s'))
    (hq : s.Quiet s') : ∃ fs, es = as ++ fs ∧
      ∀ bs, (loopWithin (entryStep (entriesWithin depth) braced) n bs).run s = (bs ++ fs, s') := by
  induction n generalizing s as es with
  | zero =>
    cases h
    exact absurd hq ((Onward.refl s).fault_not_quiet _)
  | succ n ih =>
    have ho := behindEntry_onward depth s
    simp only [entries_run] at h ⊢
    split at h
    · cases h
      refine ⟨[], (List.append_nil _).symm, fun bs => ?_⟩
      rw [if_pos ‹_›, List.append_nil]
    · rename_i hend
      split at h
      · rename_i hlt
        obtain ⟨fs, hfs, hrun⟩ := ih h (ho.quiet_right (entries_onward h) hq)
        refine ⟨((entryWith (entriesWithin depth)).run s).1.toList ++ fs, ?_, fun bs => ?_⟩
        · rw [hfs, List.append_assoc]
        · rw [if_neg hend, if_pos hlt, hrun, List.append_assoc]
      · cases h
        exact absurd hq (ho.fault_not_quiet _)

/-! ## What entries begin with -/

/-- At a semicolon an error is reported. -/
theorem entryWith_at_semicolon (nested : Bool → Reader (List Entry)) {t : Token} {ts : List Token}
    (ha : s.after = t :: ts) (hk : t.kind = .punct .semicolon) :
    ((entryWith nested).run s).2 = (synchronize.run (s.report
      (unexpected .expectedDeclaration "type or namespace declaration" t))).2 := by
  obtain ⟨source, before, after, eof, errors, faults⟩ := s
  obtain ⟨kind, lexeme, span⟩ := t
  cases ha
  cases hk
  rfl

/-- At a closing brace an error is reported, if no braces are open. -/
theorem behindEntry_at_rightBrace (h : s.isAtMark .rightBrace = true) :
    ¬ s.Quiet (behindEntry (entriesWithin depth) s) := by
  have hrun : ((entryWith (entriesWithin depth)).run s).2 =
      s.advance.report (.unexpectedToken s.peek.span (TokenKind.punct .rightBrace).description) := by
    show ((if s.isAtMark .rightBrace then _ else _ : Reader (Option Entry)).run s).2 = _
    rw [if_pos h]
    rfl
  rw [behindEntry, hrun]
  exact (onward_advance s).not_quiet (moveOn_onward s.place _)

/-- **No semicolon stands before the entries of a text without errors.** -/
theorem entries_head_ne {es : List Entry} {t : Token} {ts : List Token} (ha : s.after = t :: ts)
    (hq : s.Quiet ((loopWithin (entryStep (entriesWithin depth) false) (n + 1) es).run s).2) :
    t.kind ≠ .punct .semicolon := by
  intro hk
  have hat : s.isAtEof = false := by
    rw [isAtEof, isAt, ParserState.peek, ha, List.head?_cons, Option.getD_some, hk]
    rfl
  have hnot : ¬ s.Quiet (behindEntry (entriesWithin depth) s) := by
    rw [behindEntry, entryWith_at_semicolon _ ha hk]
    exact (Onward.refl s).not_quiet ((synchronize_onward _).trans (moveOn_onward s.place _))
  have ho := behindEntry_onward depth s
  rw [entries_run, hat, Bool.false_and, Bool.or_false, if_neg Bool.false_ne_true] at hq
  split at hq
  · exact hnot (ho.quiet_left (entries_onward rfl) hq)
  · exact ho.fault_not_quiet _ hq

/-! ## Entries in a longer text -/

/-- What is read of entries is read in a longer text too. -/
theorem entries_within {depth' m : Nat} (hdepth : depth ≤ depth') (hm : n ≤ m) {es : List Entry}
    (h : (loopWithin (entryStep (entriesWithin depth) braced) n []).run s = (es, s'))
    (hq : s.Quiet s') (hb : s'.Bounded w) :
    (loopWithin (entryStep (entriesWithin depth') braced) m []).run (s.within w) =
      (shift w.distance es, s'.within w) := by
  have carries : Reader.Carries w false false s
      (loopWithin (entryStep (entriesWithin depth) braced) n [])
      (loopWithin (entryStep (entriesWithin depth') braced) m []) :=
    loopWithin_carries hm (.refl s) (fun es s' _ => (entryStep_carries
      (fun braced _ => entriesWithin_carries hdepth braced) braced es).mono fun _ _ => ⟨⟩) []
  have hsame := carries.same
  rw [h] at hsame
  exact hsame hq nofun hb ⟨⟩

/-! ## Entries below others -/

/-- One more entry in the longer text. -/
theorem behindEntry_within {depth' : Nat} (hdepth : depth ≤ depth') (hends : s.Ends w)
    (ha : s.after ≠ []) (hq : s.Quiet (behindEntry (entriesWithin depth) s))
    (hgood : ∀ x, ((entryWith (entriesWithin depth)).run s).1 = some (.declaration x) →
      x.isFileScoped = false) :
    ((entryWith (entriesWithin depth')).run (s.within w)).1 =
        shift w.distance ((entryWith (entriesWithin depth)).run s).1 ∧
      behindEntry (entriesWithin depth') (s.within w) =
        (behindEntry (entriesWithin depth) s).within w := by
  have closes := entryWith_closes (w := w) (s := s)
    fun braced _ => entriesWithin_carries hdepth braced
  have ho : s.Onward ((entryWith (entriesWithin depth)).run s).2 := closes.onward
  have reads : (entryWith (entriesWithin depth')).run (s.within w) =
      (shift w.distance ((entryWith (entriesWithin depth)).run s).1,
        ((entryWith (entriesWithin depth)).run s).2.within w) :=
    closes.reads rfl (ho.quiet_left (moveOn_onward s.place _) hq) nofun (.inr ⟨hends, hgood⟩)
  refine ⟨by rw [reads], ?_⟩
  rw [behindEntry, reads, place_within, behindEntry]
  refine moveOn_within ?_
  by_cases hnil : ((entryWith (entriesWithin depth)).run s).2.after = []
  · obtain ⟨ts, hts, hbefore⟩ := ho.tokens_eq
    refine .inr fun hp => ha ?_
    rw [hnil, List.append_nil] at hts
    rw [place, place, hbefore, List.length_append, List.length_reverse, Nat.add_eq_right] at hp
    rw [hts, List.length_eq_zero_iff.1 hp]
  · exact .inl ((ho.ends hends).bounded_of_ne_nil hnil)

/-- **Where the entries of a text end, the longer text goes on with those below them**, also where
    it reads them between braces. -/
theorem entries_below (braced : Bool) {depth' m : Nat} (hdepth : depth ≤ depth') {as es : List Entry}
    (h : (loopWithin (entryStep (entriesWithin depth) false) n as).run s = (es, s'))
    (hq : s.Quiet s') (hends : s.Ends w) (hbody : ∀ t ∈ s.after, t.kind ≠ .eof)
    (hgood : ∀ x, .declaration x ∈ es → x.isFileScoped = false)
    (hm : (s.within w).after.length < m) :
    s'.after = [] ∧ ∃ m', (s'.within w).after.length < m' ∧
      (loopWithin (entryStep (entriesWithin depth') braced) m (shift w.distance as)).run (s.within w) =
        (loopWithin (entryStep (entriesWithin depth') braced) m' (shift w.distance es)).run
          (s'.within w) := by
  induction n generalizing s as m with
  | zero =>
    cases h
    exact absurd hq ((Onward.refl s).fault_not_quiet _)
  | succ n ih =>
    have hatEof : s.isAtEof = true ↔ s.after = [] := by
      refine ⟨fun hat => by_contra fun ha => ?_, fun ha => ?_⟩
      · obtain ⟨t, ts, hts⟩ := List.exists_cons_of_ne_nil ha
        refine hbody t (by rw [hts]; exact List.mem_cons_self) ?_
        have := beq_iff_eq.1 hat
        rwa [ParserState.peek, hts] at this
      · rw [isAtEof, isAt, ParserState.peek, ha]
        exact beq_iff_eq.2 hends.eof_kind
    rw [entries_run, Bool.false_and, Bool.or_false] at h
    split at h
    · cases h
      exact ⟨hatEof.1 ‹_›, m, hm, rfl⟩
    rename_i hend
    have ha : s.after ≠ [] := mt hatEof.2 hend
    have hb := hends.bounded_of_ne_nil ha
    have ho := behindEntry_onward depth s
    split at h
    · rename_i hlt
      have hl := entries_onward h
      have hq₁ := ho.quiet_left hl hq
      have hq₂ := ho.quiet_right hl hq
      obtain ⟨fs, hfs, -⟩ := entries_append h hq₂
      have hbrace : s.isAtMark .rightBrace = false :=
        Bool.eq_false_iff.2 fun hat => behindEntry_at_rightBrace hat hq₁
      obtain ⟨hentry, hbehind⟩ := behindEntry_within hdepth hends ha hq₁
        fun x hx => hgood x (by rw [hfs, hx]; simp)
      obtain ⟨m, rfl⟩ : ∃ m', m = m' + 1 := ⟨m - 1, by omega⟩
      have hlt' : ((behindEntry (entriesWithin depth) s).within w).after.length <
          (s.within w).after.length := by
        rw [length_after_within, length_after_within]
        omega
      rw [entries_run, hb.isAtEof, hb.isAtMark, hbrace, Bool.and_false, Bool.or_false, if_neg hend,
        hbehind, if_pos hlt', hentry, toList_shift, ← shift_append]
      refine ih h hq₂ (ho.ends hends) (fun t ht => ?_) (by omega)
      obtain ⟨ts, hts, -⟩ := ho.tokens_eq
      exact hbody t (by rw [hts]; exact List.mem_append_right ts ht)
    · cases h
      exact absurd hq (ho.fault_not_quiet _)

end CommandModules.Parser

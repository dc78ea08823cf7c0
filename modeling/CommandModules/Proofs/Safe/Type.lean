/-
  Command modules — reading types and expressions is safe.

  * `typeWith_safe`: reading a type is safe if reading the types inside it is,
    from the states with fewer tokens ahead;
  * `typeWithin_safe`: so the tokens ahead bound the depth of types inside types;
  * `expression_safe`: an expression consumes a token, and its text can be cut out.
-/
import CommandModules.Proofs.Safe.Basic
import CommandModules.Syntax.Parser.Expression

namespace CommandModules.Parser

open ParserState

variable {source : List Char} {s : ParserState}

/-! ## Names and types -/

theorem nameAlias_safe : Parser.Safe source s nameAlias fun _ _ => True := by
  refine .get fun _ => ?_
  split
  · refine ident_safe.bind fun _ _ _ _ _ => ?_
    exact (Parser.Safe.lift advance_passes).discard.bind fun _ _ _ _ _ => .pure ⟨⟩
  · exact .pure ⟨⟩

section
variable {type : Parser TypeSyntax} {n : Nat}
  (h : ∀ s', s'.after.length < n → Parser.Safe source s' type fun _ _ => True)
include h

theorem typeArgumentsWith_safe (hn : s.after.length ≤ n) :
    Parser.Safe source s (typeArgumentsWith type) fun _ k => 0 < k := by
  refine expectMark_safe.discard.bind fun _ k s₁ h₁ hk => .get fun _ => ?_
  refine .join (R := fun _ _ => True) (fun _ => .pure ⟨⟩) (fun _ => ?_) fun _ _ _ _ _ => ?_
  · refine commaSeparated_safe fun _ s' h' => h s' ?_
    have := h₁.length_after
    have := h'.length_after
    omega
  · exact expectMark_safe.discard.bind fun _ _ _ _ _ => .pure (by omega)

theorem nameSegmentWith_safe (hn : s.after.length ≤ n) :
    Parser.Safe source s (nameSegmentWith type) fun segment _ =>
      IsWord segment.ident.name .identifier := by
  refine ident_safe.bind fun _ _ _ h₁ hi => .get fun _ => ?_
  refine .join (R := fun _ _ => True) (fun _ => ?_) (fun _ => .pure ⟨⟩) fun _ _ _ _ _ => .pure hi.1
  refine (typeArgumentsWith_safe h ?_).mono fun _ _ _ => ⟨⟩
  have := h₁.length_after
  omega

theorem segmentAndDot_safe (hn : s.after.length ≤ n) {segments : List NameSegment} :
    Parser.Safe source s (segmentAndDot type segments) fun r k =>
      r.Holds (fun later _ => AreWorded segments → AreWorded later)
        (fun later _ => AreWorded segments → later ≠ [] ∧ AreWorded later) 0 k := by
  refine (nameSegmentWith_safe h hn).bind fun _ _ s₁ _ hw => .get fun _ => ?_
  split
  · rename_i hc
    have hdot := peek_ne_eof_of_mark (Bool.and_eq_true_iff.1 hc).1
    refine (Parser.Safe.lift (advance_consumes hdot)).discard.bind fun _ _ _ _ hk => .pure ?_
    exact ⟨fun hs => hs.concat hw, by omega⟩
  · exact .pure fun hs => ⟨by simp, hs.concat hw⟩

/-- A name has a segment, and identifiers are words. -/
theorem nameWith_safe (hn : s.after.length ≤ n) :
    Parser.Safe source s (nameWith type) fun n _ => n.segments ≠ [] ∧ AreWorded n.segments := by
  refine .get fun hg => nameAlias_safe.bind fun _ _ _ h₁ _ => ?_
  refine Parser.Safe.bind (R := fun segments _ => segments ≠ [] ∧ AreWorded segments) ?_
    fun _ _ _ _ hs => .andThen (textFrom_safe hg.peek_inside) fun _ _ _ _ _ => .get fun _ => .pure hs
  refine .loop (I := fun segments _ => AreWorded segments) (by simp [AreWorded]) fun x k s₂ h₂ hx => ?_
  have := h₁.length_after
  have := h₂.length_after
  refine (segmentAndDot_safe h (by omega)).mono fun r m hr => ?_
  cases r with
  | next => exact ⟨hr.1 hx, hr.2⟩
  | done => exact hr hx

theorem tupleElementWith_safe (hn : s.after.length < n) :
    Parser.Safe source s (tupleElementWith type) fun _ _ => True := by
  refine (h s hn).bind fun _ _ _ _ _ => .get fun _ => ?_
  refine .join (R := fun _ _ => True) (fun _ => ?_) (fun _ => .pure ⟨⟩) fun _ _ _ _ _ => .pure ⟨⟩
  exact .map (ident_safe.mono fun _ _ _ => ⟨⟩)

theorem tupleWith_safe (hn : s.after.length ≤ n) :
    Parser.Safe source s (tupleWith type) fun _ _ => True := by
  refine expectMark_safe.discard.bind fun _ k s₁ h₁ hk => ?_
  refine (commaSeparated_safe fun _ s' h' => tupleElementWith_safe h ?_).bind fun _ _ _ _ _ => ?_
  · have := h₁.length_after
    have := h'.length_after
    omega
  · refine expectMark_safe.discard.bind fun _ _ _ _ _ => ?_
    split
    · refine .get fun hg => ?_
      exact Parser.Safe.bind (R := fun _ _ => False) (.throw hg.previous_inside) fun _ _ _ _ => False.elim
    · exact .pure ⟨⟩

theorem typeBaseWith_safe (hn : s.after.length ≤ n) :
    Parser.Safe source s (typeBaseWith type) fun _ _ => True := by
  refine .get fun _ => ?_
  dsimp only
  split
  · exact (Parser.Safe.lift advance_passes).discard.bind fun _ _ _ _ _ => .pure ⟨⟩
  split
  · exact (tupleWith_safe h hn).bind fun _ _ _ _ _ => .pure ⟨⟩
  split
  · exact (nameWith_safe h hn).bind fun _ _ _ _ _ => .pure ⟨⟩
  · exact failAt_safe

end

theorem rank_safe (hs : s.isAtMark .leftBracket = true) :
    Parser.Safe source s rank fun _ k => 0 < k := by
  refine (Parser.Safe.lift (advance_consumes (peek_ne_eof_of_mark hs))).discard.bind
    fun _ _ _ _ _ => .get fun _ => ?_
  refine .andThen (advanceBy_safe (List.takeWhile_prefix _).length_le) fun _ _ _ _ _ => ?_
  exact expectMark_safe.discard.bind fun _ _ _ _ _ => .pure (by omega)

theorem typeSuffix?_safe {t : TypeSyntax} :
    Parser.Safe source s (typeSuffix? t) fun shape? k => shape?.isSome → 0 < k := by
  refine .get fun _ => ?_
  split
  · exact (Parser.Safe.lift (advance_consumes (peek_ne_eof_of_mark ‹_›))).discard.bind
      fun _ _ _ _ _ => .pure fun _ => by omega
  split
  · exact (Parser.Safe.lift (advance_consumes (peek_ne_eof_of_mark ‹_›))).discard.bind
      fun _ _ _ _ _ => .pure fun _ => by omega
  split
  · rename_i hr
    exact (rank_safe (Bool.and_eq_true_iff.1 hr).1).bind fun _ _ _ _ _ => .pure fun _ => by omega
  · exact .pure nofun

theorem typeFrom_safe {start : Span} {shape : TypeShape} (h : start.Inside source) :
    Reader.Safe source s (typeFrom start shape) fun _ _ => True :=
  (textFrom_safe h).bind fun _ _ _ _ _ => .get fun _ => .pure ⟨⟩

theorem suffixAt_safe {start : Span} {t : TypeSyntax} (h : start.Inside source) :
    Parser.Safe source s (suffixAt start t) Round.Consumes := by
  refine typeSuffix?_safe.bind fun shape? _ _ _ hk => ?_
  cases shape? with
  | some shape => exact .andThen (typeFrom_safe h) fun _ _ _ _ _ => .pure ⟨⟨⟩, by have := hk rfl; omega⟩
  | none => exact .pure ⟨⟩

theorem typeWith_safe {type : Parser TypeSyntax}
    (h : ∀ s', s'.after.length < s.after.length → Parser.Safe source s' type fun _ _ => True) :
    Parser.Safe source s (typeWith type) fun _ _ => True := by
  refine .get fun hg => (typeBaseWith_safe h (Nat.le_refl _)).bind fun _ _ _ _ _ => ?_
  refine .andThen (typeFrom_safe hg.peek_inside) fun _ _ _ _ _ => ?_
  exact .loop_consumes fun _ _ _ _ => suffixAt_safe hg.peek_inside

theorem typeWithin_safe {depth : Nat} (h : s.after.length < depth) :
    Parser.Safe source s (typeWithin depth) fun _ _ => True := by
  induction depth generalizing s with
  | zero => omega
  | succ depth ih => exact typeWith_safe fun s' h' => ih (by omega)

theorem type_safe : Parser.Safe source s type fun _ _ => True := by
  refine .andThen rounds_safe fun _ _ s' h hk => ?_
  obtain ⟨rfl, rfl⟩ := hk
  exact typeWithin_safe (Nat.lt_succ_of_le (h.after_eq ▸ Nat.le_refl _))

theorem name_safe :
    Parser.Safe source s name fun n _ => n.segments ≠ [] ∧ AreWorded n.segments := by
  refine .andThen rounds_safe fun _ _ s' h hk => ?_
  obtain ⟨rfl, rfl⟩ := hk
  exact nameWith_safe (fun _ h' => typeWithin_safe h') (h.after_eq ▸ Nat.le_succ _)

theorem typeArguments_safe : Parser.Safe source s typeArguments fun _ _ => True := by
  refine .andThen rounds_safe fun _ _ s' h hk => ?_
  obtain ⟨rfl, rfl⟩ := hk
  refine (typeArgumentsWith_safe (fun _ h' => typeWithin_safe h') ?_).mono fun _ _ _ => ⟨⟩
  exact h.after_eq ▸ Nat.le_succ _

theorem type?_safe : Reader.Safe source s type? fun _ _ => True := by
  refine .get fun _ => Reader.Safe.back type_safe fun r k s' hk _ => ?_
  cases r with
  | ok t => exact ⟨k, hk, ⟨⟩⟩
  | error e => exact ⟨0, hk.returnTo, ⟨⟩⟩

theorem closingAngle?_le {depth n : Nat} {ts : List Token} (h : closingAngle? depth ts = some n) :
    n ≤ ts.length := by
  fun_induction closingAngle? depth ts generalizing n with
  | case1 => cases h
  | case2 _ _ _ _ ih | case4 _ _ _ _ _ ih | case5 _ _ _ _ _ _ ih =>
    obtain ⟨m, hm, rfl⟩ := Option.map_eq_some_iff.1 h
    exact Nat.succ_le_succ (ih hm)
  | case3 => simp_all
  | case6 => cases h

theorem typeArgumentsLength?_le {n : Nat} {ts : List Token} (h : typeArgumentsLength? ts = some n) :
    0 < n ∧ n ≤ ts.length := by
  unfold typeArgumentsLength? at h
  split at h
  · cases h
  · split at h
    · obtain ⟨m, hm, rfl⟩ := Option.map_eq_some_iff.1 h
      exact ⟨Nat.succ_pos m, Nat.succ_le_succ (closingAngle?_le hm)⟩
    · cases h

/-! ## Expressions -/

theorem genericArguments?_le {start n : Nat} (h : genericArguments? s start = some n) :
    0 < n ∧ n ≤ s.after.length := by
  unfold genericArguments? at h
  split at h
  · exact typeArgumentsLength?_le (Option.filter_eq_some_iff.1 h).1
  · cases h

theorem expressionStep_safe {terminators : List TokenKind} {start : Nat} :
    Reader.Safe source s (expressionStep terminators start) Round.Consumes := by
  refine .get fun hg => ?_
  split
  · exact .pure ⟨⟩
  · rename_i hc
    have hne : s.after ≠ [] := hg.after_ne_nil fun h => hc (by simp [h, endsExpression])
    dsimp only
    split
    · rename_i n hn
      obtain ⟨hpos, hle⟩ := genericArguments?_le hn
      exact (advanceBy_safe hle).bind fun _ _ _ _ hk => .pure ⟨⟨⟩, by omega⟩
    · exact skipGroup_safe.bind fun _ _ _ _ hk => .pure ⟨⟨⟩, by have := hk hne; omega⟩

theorem malformed?_mem {ts : List Token} {t : Token} (h : malformed? ts = some t) : t ∈ ts := by
  have second {t u : Token} {depth : Nat} {us : List Token}
      (h : secondOperand? t depth us = some u) : u ∈ us := by
    fun_induction secondOperand? t depth us with grind
  unfold malformed? at h
  split at h
  · cases h
  · rename_i first others
    have last : others.getLast?.getD first ∈ first :: others := by
      cases hl : others.getLast? with
      | none => simp
      | some u => exact List.mem_cons_of_mem _ (List.mem_of_getLast? hl)
    grind

theorem expression_safe {terminators : List TokenKind} :
    Parser.Safe source s (expression terminators) fun _ _ => True := by
  refine .get fun hg => ?_
  refine .andThen (.loop_consumes fun _ _ _ _ => expressionStep_safe) fun _ _ later _ _ => ?_
  refine .get fun hl => ?_
  split
  · exact failAt_safe
  · split
    · rename_i t ht
      refine .throw (hl.before_inside ?_)
      exact List.mem_of_mem_take (List.mem_reverse.1 (malformed?_mem ht))
    · exact .andThen (textFrom_safe hg.peek_inside) fun _ _ _ _ _ => .pure ⟨⟩

end CommandModules.Parser

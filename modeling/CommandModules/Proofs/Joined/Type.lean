/-
  Command modules — types and expressions in a longer text.

  * `type_carries`: types, by induction on the depth of types inside types; their readers consume
    no token that ends a declaration, so looking ahead for a type is carried over as well;
  * `typeArgumentsLength?_within`: type arguments that are looked for ahead are found in the same
    place, for none of the tokens before their end ends a declaration;
  * `expression_carries`: expressions.
-/
import CommandModules.Proofs.Joined.Basic
import CommandModules.Proofs.Taken.Type

namespace CommandModules.Parser

open ParserState

variable {w : Frame} {r k : Bool} {s : ParserState} {d : Distance}

/-! ## Names and types -/

theorem nameAlias_carries : Parser.Carries w r true s nameAlias nameAlias := by
  refine .get (.ite (fun hb => Bool.eq_iff_iff.1 (hb.isAt_and rfl fun _ h => by rw [h, kind_shift]))
    (fun hc => ?_) fun _ => .pure rfl)
  have hmark := beq_iff_eq.1 (Bool.and_eq_true_iff.1 hc).2
  refine ident_carries.bind_at fun i s' hi => ?_
  refine .andThen (advance_of fun _ => ?_).discard fun _ _ _ => .pure rfl
  rw [(ident_run hi).2, peek_advance, hmark]
  rfl

section
variable {type type' : Parser TypeSyntax} (h : ∀ s, Parser.Carries w true true s type type')
include h

theorem typeArgumentsWith_carries :
    Parser.Carries w true true s (typeArgumentsWith type) (typeArgumentsWith type') := by
  refine (expect_of fun _ => rfl).discard.bind fun _ _ _ => .get ?_
  refine .join (fun hb => by rw [hb.isAtMark]) (fun _ => .pure rfl)
    (fun _ => commaSeparated_carries fun s' _ => h s') fun args _ _ => ?_
  exact (expect_of fun _ => rfl).discard.bind fun _ _ _ => .pure rfl

theorem nameSegmentWith_carries :
    Parser.Carries w true true s (nameSegmentWith type) (nameSegmentWith type') := by
  refine ident_carries.bind fun i _ _ => .get ?_
  exact .join (fun hb => by rw [hb.isAtMark]) (fun _ => typeArgumentsWith_carries h)
    (fun _ => .pure rfl) fun args _ _ => .pure (by simp)

theorem segmentAndDot_carries (segments : List NameSegment) :
    Parser.Carries w true true s (segmentAndDot type segments)
      (segmentAndDot type' (shift w.distance segments)) := by
  refine (nameSegmentWith_carries h).bind fun segment s' _ => .get ?_
  refine .ite (fun hb => Bool.eq_iff_iff.1 (hb.isAtMark_and rfl fun _ h => by rw [h, kind_shift]))
    (fun hc => ?_) fun _ => .pure (by simp)
  have hdot := (Bool.and_eq_true_iff.1 hc).1
  exact .andThen (advance_of fun _ => endsDeclaration_of_isAt hdot rfl).discard
      fun _ _ _ => .pure (by simp)

theorem nameWith_carries : Parser.Carries w true true s (nameWith type) (nameWith type') := by
  refine .get (.congr (nameAlias_carries.bind fun alias? _ _ => ?_)
    fun _ hb => by rw [hb.peek, span_shift])
  refine (loopOrFail_carries (fun segments _ _ => segmentAndDot_carries h segments) []).bind
    fun segments _ _ => .andThen (textFrom_carries _) fun text s' _ => .get (.pureAt fun hr _ => ?_)
  rw [(hr rfl).spanFrom, shift_name]
  rfl

theorem tupleElementWith_carries :
    Parser.Carries w true true s (tupleElementWith type) (tupleElementWith type') := by
  refine (h s).bind fun t s' _ => .get ?_
  exact .join (fun hb => by rw [hb.isAt]) (fun _ => ident_carries.map fun _ => rfl)
    (fun _ => .pure rfl) fun name? _ _ => .pure (by simp)

theorem tupleWith_carries : Parser.Carries w true true s (tupleWith type) (tupleWith type') := by
  refine (expect_of fun _ => rfl).discard.bind fun _ _ _ => ?_
  refine (commaSeparated_carries fun s' _ => tupleElementWith_carries h).bind
    fun elements _ _ => ?_
  refine (expect_of fun _ => rfl).discard.bind fun _ s' _ => ?_
  refine .ite (fun _ => by rw [length_shift]) (fun _ => ?_) fun _ => .pure rfl
  exact .get (.bind (.throw fun _ hr hb => by rw [(hr rfl).previousSpan hb]; rfl)
    fun _ _ _ => .pure rfl)

theorem typeBaseWith_carries :
    Parser.Carries w true true s (typeBaseWith type) (typeBaseWith type') := by
  refine .get (.congr ?_ fun _ hb => by rw [hb.peek])
  refine .ite (fun _ => Iff.rfl) (fun hc => ?_) fun _ => .ite (fun _ => Iff.rfl) (fun _ => ?_)
    fun _ => .ite (fun _ => Iff.rfl) (fun _ => ?_) fun _ => failAt_carries _ _
  · have hk : s.peek.kind.endsDeclaration = false := by
      cases hs : s.peek.kind with
      | punct => simp [hs, TokenKind.isPredefinedType] at hc
      | _ => rfl
    exact .andThen (advance_of fun _ => hk).discard fun _ _ _ => .pure (by simp)
  · exact (tupleWith_carries h).bind fun _ _ _ => .pure (by simp)
  · exact (nameWith_carries h).bind fun _ _ _ => .pure (by simp)

end

theorem isAtRank_within (hb : s.Bounded w) : isAtRank (s.within w) = isAtRank s :=
  hb.isAtMark_and rfl fun _ h => by rw [h, kind_shift]

theorem rank_carries (h : isAtRank s = true) : Parser.Carries w r true s rank rank := by
  have hmark := (Bool.and_eq_true_iff.1 h).1
  have hcomma {t : Token} (ht : t.kind.endsDeclaration = true) :
      (t.kind == .punct .comma) = false := by
    by_contra hc
    rw [beq_iff_eq.1 (eq_true_of_ne_false hc)] at ht
    cases ht
  refine .andThen (advance_of fun _ => endsDeclaration_of_isAt hmark rfl).discard fun _ s' _ => ?_
  refine .get (.congr ?_ fun _ hb => by rw [hb.length_takeWhile (fun _ => rfl) fun t => hcomma])
  refine .andThen (advanceBy_of fun _ t ht => ?_) fun _ _ _ =>
    (expect_of fun _ => rfl).discard.bind fun _ _ _ => .pure rfl
  rw [← List.prefix_iff_eq_take.1 (List.takeWhile_prefix _)] at ht
  have := List.mem_takeWhile_imp ht
  rw [beq_iff_eq.1 this]
  rfl

theorem typeSuffix?_carries (t : TypeSyntax) :
    Parser.Carries w r true s (typeSuffix? t) (typeSuffix? (shift w.distance t)) := by
  refine .get (.ite (fun hb => by rw [hb.isAtMark]) (fun hc => ?_) fun _ =>
    .ite (fun hb => by rw [hb.isAtMark]) (fun hc => ?_) fun _ =>
    .ite (fun hb => by rw [isAtRank_within hb]) (fun hc => ?_) fun _ => .pure rfl)
  · exact .andThen (advance_of fun _ => endsDeclaration_of_isAt hc rfl).discard
      fun _ _ _ => .pure (by simp)
  · exact .andThen (advance_of fun _ => endsDeclaration_of_isAt hc rfl).discard
      fun _ _ _ => .pure (by simp)
  · exact (rank_carries hc).bind fun _ _ _ => .pure (by simp)

theorem typeFrom_carries (start : Span) (shape : TypeShape) :
    Reader.Carries w true k s (typeFrom start shape)
      (typeFrom (shift w.distance start) (shift w.distance shape)) :=
  (textFrom_carries start).bind fun _ _ _ => .get (.pureAt fun hr _ => by
    rw [(hr rfl).spanFrom, shift_typeSyntax, shift_string])

theorem suffixAt_carries (start : Span) (t : TypeSyntax) :
    Parser.Carries w true true s (suffixAt start t)
      (suffixAt (shift w.distance start) (shift w.distance t)) := by
  refine (typeSuffix?_carries t).bind fun shape? _ _ => ?_
  cases shape? with
  | none => exact .pure rfl
  | some shape => exact .andThen (typeFrom_carries start shape) fun _ _ _ => .pure rfl

theorem typeWith_carries {type type' : Parser TypeSyntax}
    (h : ∀ s, Parser.Carries w true true s type type') :
    Parser.Carries w true true s (typeWith type) (typeWith type') :=
  .get (.congr ((typeBaseWith_carries h).bind fun shape _ _ => .andThen (typeFrom_carries _ shape)
    fun t _ _ => loopOrFail_carries (fun t _ _ => suffixAt_carries s.peek.span t) t)
    fun _ hb => by rw [hb.peek, span_shift])

/-- More depth than is needed does not matter. -/
theorem typeWithin_carries {n m : Nat} (h : n ≤ m) :
    Parser.Carries w true true s (typeWithin n) (typeWithin m) := by
  induction n generalizing m s with
  | zero => exact stall_carries
  | succ n ih =>
    obtain ⟨m, rfl⟩ : ∃ m', m = m' + 1 := ⟨m - 1, by omega⟩
    exact typeWith_carries fun s => ih (by omega)

/-- What is read with a bound on the depth that the tokens to come give. -/
theorem withRounds {α : Type} [Shift α] {p : Nat → Parser α}
    (h : ∀ n m, n ≤ m → Parser.Carries w r k s (p n) (p m)) :
    Parser.Carries w r k s (do p (← rounds)) (do p (← rounds)) := by
  have := h (s.after.length + 1) ((s.within w).after.length + 1) (by
    rw [length_after_within]
    omega)
  exact ⟨this.onward, this.keeps, this.same⟩

theorem withRoundsRead {α : Type} [Shift α] {p : Nat → Reader α}
    (h : ∀ n m, n ≤ m → Reader.Carries w r k s (p n) (p m)) :
    Reader.Carries w r k s (do p (← rounds)) (do p (← rounds)) := by
  have := h (s.after.length + 1) ((s.within w).after.length + 1) (by
    rw [length_after_within]
    omega)
  exact ⟨this.onward, this.keeps, this.same⟩

theorem type_carries : Parser.Carries w true k s type type :=
  .weaken (withRounds fun _ _ => typeWithin_carries)

theorem name_carries : Parser.Carries w true k s name name :=
  .weaken (withRounds fun _ _ hn => nameWith_carries fun _ => typeWithin_carries hn)

theorem typeArguments_carries : Parser.Carries w true k s typeArguments typeArguments :=
  .weaken (withRounds fun _ _ hn => typeArgumentsWith_carries fun _ => typeWithin_carries hn)

theorem type?_run {x : Except ParseError TypeSyntax} (h : type.run.run s = (x, s')) :
    type?.run s = (x.toOption, if x.isOk then s' else s'.returnTo s) := by
  rw [type?, Reader.run_bind, Reader.run_get, Reader.run_bind, h]
  cases x <;> rfl

/-- A type that is looked for is found or missed in the longer text as well. -/
theorem type?_carries : Reader.Carries w true true s type? type? := by
  obtain ⟨ho, hk, hs⟩ := type_carries (w := w) (k := true) (s := s)
  rcases hx : type.run.run s with ⟨e | t, s'⟩
  · have hp := type?_run hx
    rw [hx] at ho hk hs
    refine ⟨hp ▸ ho.returnTo, ?_, ?_⟩
    · rw [hp]
      exact fun _ hb => hb.same ho.eof_eq rfl
    · rw [hp]
      intro hquiet hr hb _
      have hb : s.Bounded w := hb.same ho.eof_eq.symm rfl
      exact type?_run (hs hquiet hr (hk rfl hb) (.inl rfl))
  · have hp := type?_run hx
    rw [hx] at ho hk hs
    refine ⟨hp ▸ ho, hp ▸ hk, ?_⟩
    rw [hp]
    intro hquiet hr hb _
    exact type?_run (hs hquiet hr hb (.inl rfl))

/-! ## Looking ahead -/

theorem isTypeArgumentPart_endsDeclaration {kind : TokenKind} (h : isTypeArgumentPart kind = true) :
    kind.endsDeclaration = false := by
  cases kind with
  | punct p => cases p <;> first | rfl | cases h
  | _ => rfl

theorem closingAngle?_shift (depth : Nat) {ts us : List Token}
    (h : us = [] ∨ ∃ t ∈ ts, t.kind.endsDeclaration = true) :
    closingAngle? depth (shift d ts ++ us) = closingAngle? depth ts := by
  induction ts generalizing depth with
  | nil =>
    rw [h.resolve_right (by simp)]
    rfl
  | cons t ts ih =>
    have later (hk : t.kind.endsDeclaration = false) :
        us = [] ∨ ∃ t ∈ ts, t.kind.endsDeclaration = true := by
      refine h.imp_right fun ⟨u, hu, hstop⟩ => ?_
      rcases List.mem_cons.1 hu with rfl | hu
      · rw [hk] at hstop
        cases hstop
      · exact ⟨u, hu, hstop⟩
    rw [shift_cons, List.cons_append]
    by_cases hless : t.kind = .punct .less
    · rw [closingAngle?_less hless, closingAngle?_less (t := shift d t) hless,
        ih _ (later (hless ▸ rfl))]
    by_cases hgreater : t.kind = .punct .greater
    · cases depth with
      | zero => rw [closingAngle?_last hgreater, closingAngle?_last (t := shift d t) hgreater]
      | succ depth =>
        rw [closingAngle?_greater hgreater, closingAngle?_greater (t := shift d t) hgreater,
          ih _ (later (hgreater ▸ rfl))]
    by_cases hpart : isTypeArgumentPart t.kind = true
    · rw [closingAngle?_part hpart, closingAngle?_part (t := shift d t) hpart,
        ih _ (later (isTypeArgumentPart_endsDeclaration hpart))]
    · cases depth <;> simp [closingAngle?, hless, hgreater, hpart]

theorem typeArgumentsLength?_within (hb : s.Bounded w) :
    typeArgumentsLength? (s.within w).after = typeArgumentsLength? s.after := by
  have h : w.after = [] ∨ ∃ t ∈ s.after, t.kind.endsDeclaration = true := by
    cases hb with
    | stopped ht hk => exact .inr ⟨_, List.mem_of_getLast? ht, hk⟩
    | ended hw => exact .inl hw
  rw [within]
  cases ha : s.after with
  | nil =>
    rw [h.resolve_right (by simp [ha])]
    rfl
  | cons t ts =>
    rw [shift_cons, List.cons_append, typeArgumentsLength?, typeArgumentsLength?, kind_shift]
    by_cases hless : t.kind = .punct .less
    · rw [if_pos hless, if_pos hless, closingAngle?_shift 0 (h.imp_right ?_)]
      rintro ⟨u, hu, hk⟩
      rw [ha] at hu
      rcases List.mem_cons.1 hu with rfl | hu
      · rw [hless] at hk
        cases hk
      · exact ⟨u, hu, hk⟩
    · rw [if_neg hless, if_neg hless]

/-- The tokens of type arguments end no declaration. -/
theorem closingAngle?_endsDeclaration {depth n : Nat} {ts : List Token}
    (h : closingAngle? depth ts = some n) : ∀ t ∈ ts.take n, t.kind.endsDeclaration = false := by
  have later {t : Token} {ts : List Token} {n? : Option Nat} {n : Nat}
      (hk : t.kind.endsDeclaration = false) (h : n?.map (· + 1) = some n)
      (ih : ∀ m, n? = some m → ∀ t ∈ ts.take m, t.kind.endsDeclaration = false) :
      ∀ u ∈ (t :: ts).take n, u.kind.endsDeclaration = false := by
    obtain ⟨m, hm, rfl⟩ := Option.map_eq_some_iff.1 h
    exact List.forall_mem_cons.2 ⟨hk, ih m hm⟩
  fun_induction closingAngle? depth ts generalizing n with
  | case1 => cases h
  | case2 _ _ _ hk ih => exact later (hk ▸ rfl) h fun _ => ih
  | case3 _ _ _ hk =>
    cases h
    exact List.forall_mem_singleton.2 (hk ▸ rfl)
  | case4 _ _ _ hk _ ih => exact later (hk ▸ rfl) h fun _ => ih
  | case5 _ _ _ _ _ hk ih => exact later (isTypeArgumentPart_endsDeclaration hk) h fun _ => ih
  | case6 => cases h

theorem typeArgumentsLength?_endsDeclaration {n : Nat} {ts : List Token}
    (h : typeArgumentsLength? ts = some n) : ∀ t ∈ ts.take n, t.kind.endsDeclaration = false := by
  unfold typeArgumentsLength? at h
  split at h
  · cases h
  split at h
  · rename_i hless
    obtain ⟨m, hm, rfl⟩ := Option.map_eq_some_iff.1 h
    exact List.forall_mem_cons.2 ⟨hless ▸ rfl, closingAngle?_endsDeclaration hm⟩
  · cases h

/-- The token behind type arguments is found in the longer text. -/
theorem peekAt_typeArguments (hb : s.Bounded w) {n : Nat} (h : typeArgumentsLength? s.after = some n) :
    (s.within w).peekAt n = shift w.distance (s.peekAt n) :=
  hb.peekAt_of fun _ _ hi ht => typeArgumentsLength?_endsDeclaration h _
    (List.mem_of_getElem? ((List.getElem?_take_of_lt hi).trans ht))

/-! ## Expressions -/

theorem followsName_within (s : ParserState) (w : Frame) (start : Nat) :
    followsName (s.within w) (start + w.before.length) = followsName s start := by
  rw [followsName, followsName, place_within]
  cases hs : s.before with
  | nil =>
    have : ¬ start + w.before.length < s.place + w.before.length := by
      rw [place, hs, List.length_nil]
      omega
    have : ¬ start < s.place := by omega
    simp [*]
  | cons t ts => simp [within, hs]

theorem genericArguments?_within (hb : s.Bounded w) (start : Nat) :
    genericArguments? (s.within w) (start + w.before.length) = genericArguments? s start := by
  rw [genericArguments?, genericArguments?, followsName_within, typeArgumentsLength?_within hb]
  split
  · cases hn : typeArgumentsLength? s.after with
    | none => rfl
    | some n => rw [Option.filter, Option.filter, peekAt_typeArguments hb hn, kind_shift]
  · rfl

theorem expressionStep_carries (terminators : List TokenKind) (start : Nat) :
    Reader.Carries w r false s (expressionStep terminators start)
      (expressionStep terminators (start + w.before.length)) := by
  refine .get (.ite (fun hb => by rw [hb.peek, kind_shift]) (fun _ => .pure rfl) fun _ =>
    .congr ?_ fun _ hb => by rw [genericArguments?_within hb])
  dsimp only
  split
  · exact (advanceBy_carries _).bind fun _ _ _ => .pure rfl
  · exact skipGroup_carries.bind fun _ _ _ => .pure rfl

theorem areSideBySide_shift (t u : Token) : areSideBySide (shift d t) (shift d u) = areSideBySide t u :=
  rfl

theorem secondOperand?_shift (t : Token) (depth : Nat) (ts : List Token) :
    secondOperand? (shift d t) depth (shift d ts) = shift d (secondOperand? t depth ts) := by
  induction ts generalizing t depth with
  | nil => rfl
  | cons u us ih =>
    rw [shift_cons, secondOperand?, secondOperand?, areSideBySide_shift, kind_shift, ih]
    split <;> rfl

theorem malformed?_shift (ts : List Token) : malformed? (shift d ts) = shift d (malformed? ts) := by
  cases ts with
  | nil => rfl
  | cons t ts =>
    have hlast : (shift d ts).getLast?.getD (shift d t) = shift d (ts.getLast?.getD t) := by
      rw [show (shift d ts).getLast? = ts.getLast?.map (shift d) from List.getLast?_map,
        Option.getD_map]
    simp only [shift_cons, malformed?, hlast, kind_shift, secondOperand?_shift]
    split
    · rfl
    · split <;> rfl

theorem expressionTokens_carries (terminators : List TokenKind) (start : Nat) :
    Reader.Carries w r false s (expressionTokens terminators start)
      (expressionTokens terminators (start + w.before.length)) :=
  loop_carries (fun _ _ _ => (expressionStep_carries terminators start).mono fun _ _ => ⟨⟩) ()

theorem expression_carries (terminators : List TokenKind) :
    Parser.Carries w true false s (expression terminators) (expression terminators) := by
  refine .get (.congr (.andThen (expressionTokens_carries terminators s.place) fun _ later _ => .get ?_)
    fun _ hb => by rw [hb.peek, span_shift, place_within])
  refine .ite (fun _ => ?_) (fun _ => failAt_carries _ _) fun _ => ?_
  · rw [place_within, Nat.add_right_cancel_iff]
  · rw [takenSince_within, malformed?_shift]
    cases malformed? (later.takenSince s.place) with
    | some t => exact .throw nofun
    | none =>
      exact .congr (.andThen (textFrom_carries _) fun text _ _ => .pure rfl) fun hr _ => by
        rw [shift_none, (hr rfl).spanFrom]

end CommandModules.Parser

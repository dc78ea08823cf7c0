/-
  Command modules — reading types and expressions sees no places.

  * `typeWithin_alike`: types, by induction on the depth of types inside types;
  * `typeArgumentsLength?_alike`, `malformed?_alike`: what is looked for ahead and
    behind is found in the same place;
  * `expression_alike`: expressions.
-/
import CommandModules.Proofs.Alike.Basic

namespace CommandModules.Parser

/-! ## Names and types -/

theorem nameAlias_alike : Parser.Alike nameAlias nameAlias := by
  refine .get fun s t h => .ite ?_ ?_ (.pure rfl)
  · rw [h.isAt, h.peekAt_kind]
  · exact ident_alike.bind fun a b hab => (Parser.Alike.lift advance_alike).discard.bind
      fun _ _ _ => .pure (by rw [erase_some, erase_some, hab])

section
variable {type type' : Parser TypeSyntax} (h : Parser.Alike type type')
include h

theorem typeArgumentsWith_alike :
    Parser.Alike (typeArgumentsWith type) (typeArgumentsWith type') := by
  refine (expectMark_alike _).discard.bind fun _ _ _ => .get fun s t hs => ?_
  refine .join ?_ (.pure rfl) (commaSeparated_alike h) fun as bs hab => ?_
  · rw [hs.isAtMark]
  · exact (expectMark_alike _).discard.bind fun _ _ _ => .pure hab

theorem nameSegmentWith_alike :
    Parser.Alike (nameSegmentWith type) (nameSegmentWith type') := by
  refine ident_alike.bind fun a b hab => .get fun s t hs => ?_
  refine .join ?_ (typeArgumentsWith_alike h) (.pure rfl) fun as bs hab' => .pure (by simp [*])
  rw [hs.isAtMark]

theorem segmentAndDot_alike {as bs : List NameSegment} (hab : erase as = erase bs) :
    Parser.Alike (segmentAndDot type as) (segmentAndDot type' bs) := by
  refine (nameSegmentWith_alike h).bind fun a b hab' => .get fun s t hs => .ite ?_ ?_ ?_
  · rw [hs.isAtMark, hs.peekAt_kind]
  · exact (Parser.Alike.lift advance_alike).discard.bind fun _ _ _ => .pure (by simp [*])
  · exact .pure (by simp [*])

theorem nameWith_alike : Parser.Alike (nameWith type) (nameWith type') := by
  refine .get fun s t hs => nameAlias_alike.bind fun a b hab => ?_
  refine (loopOrFail_alike (fun _ _ => segmentAndDot_alike h) rfl).bind fun as bs hab' => ?_
  exact .andThen (textFrom_alike _ _) fun _ _ _ => .get fun _ _ _ => .pure (by simp [*])

theorem tupleElementWith_alike :
    Parser.Alike (tupleElementWith type) (tupleElementWith type') := by
  refine h.bind fun a b hab => .get fun s t hs => ?_
  refine .join ?_ (ident_alike.map fun a b hab => by rw [erase_some, erase_some, hab])
    (.pure rfl) fun as bs hab' => .pure (by simp [*])
  rw [hs.isAt]

theorem tupleWith_alike : Parser.Alike (tupleWith type) (tupleWith type') := by
  refine (expectMark_alike _).discard.bind fun _ _ _ => ?_
  refine (commaSeparated_alike (tupleElementWith_alike h)).bind fun as bs hab => ?_
  refine (expectMark_alike _).discard.bind fun _ _ _ => ?_
  refine .ite ?_ (.get fun s t hs => .bind (.throw rfl) fun _ _ _ => .pure hab) (.pure hab)
  rw [← length_erase as, hab, length_erase]

theorem typeBaseWith_alike : Parser.Alike (typeBaseWith type) (typeBaseWith type') := by
  refine .get fun s t hs => .ite ?_ ?_ <| .ite ?_ ?_ <| .ite ?_ ?_ (failAt_alike _ _)
  · rw [hs.peek_kind]
  · refine (Parser.Alike.lift advance_alike).discard.bind fun _ _ _ => .pure ?_
    rw [hs.peek_lexeme]
  · rw [hs.peek_kind]
  · exact (tupleWith_alike h).bind fun _ _ _ => .pure (by simp [*])
  · rw [hs.peek_kind]
  · exact (nameWith_alike h).bind fun _ _ _ => .pure (by simp [*])

end

theorem isAtRank_alike {s t : ParserState} (h : s.Alike t) : isAtRank s = isAtRank t := by
  rw [isAtRank, isAtRank, h.isAtMark, h.peekAt_kind]

/-- As many tokens of some kinds come next in both states. -/
theorem takeWhile_alike {s t : ParserState} (h : s.Alike t) (p : TokenKind → Bool) :
    (s.after.takeWhile fun u => p u.kind).length = (t.after.takeWhile fun u => p u.kind).length := by
  have he (ts : List Token) : ((erase ts).takeWhile fun u => p u.kind).length =
      (ts.takeWhile fun u => p u.kind).length := by
    rw [show erase ts = ts.map erase from rfl, List.takeWhile_map, List.length_map]
    rfl
  rw [← he, h.after_eq, he]

theorem rank_alike : Parser.Alike rank rank := by
  refine (Parser.Alike.lift advance_alike).discard.bind fun _ _ _ => .get fun s t hs => ?_
  have := takeWhile_alike hs (· == .punct .comma)
  dsimp only
  rw [this]
  exact .andThen (advanceBy_alike _) fun _ _ _ =>
    (expectMark_alike _).discard.bind fun _ _ _ => .pure rfl

theorem typeSuffix?_alike {t t' : TypeSyntax} (h : erase t = erase t') :
    Parser.Alike (typeSuffix? t) (typeSuffix? t') := by
  refine .get fun s s' hs => .ite ?_ ?_ <| .ite ?_ ?_ <| .ite ?_ ?_ (.pure rfl)
  · rw [hs.isAtMark]
  · exact (Parser.Alike.lift advance_alike).discard.bind fun _ _ _ => .pure (by simp [*])
  · rw [hs.isAtMark]
  · exact (Parser.Alike.lift advance_alike).discard.bind fun _ _ _ => .pure (by simp [*])
  · rw [isAtRank_alike hs]
  · refine rank_alike.bind fun n m hnm => .pure ?_
    rw [erase_nat, erase_nat] at hnm
    simp [*]

theorem typeFrom_alike {start start' : Span} {shape shape' : TypeShape}
    (h : erase shape = erase shape') :
    Reader.Alike (typeFrom start shape) (typeFrom start' shape') :=
  (textFrom_alike _ _).bind fun _ _ _ => .get fun _ _ _ => .pure (by simp [*])

theorem suffixAt_alike {start start' : Span} {t t' : TypeSyntax} (h : erase t = erase t') :
    Parser.Alike (suffixAt start t) (suffixAt start' t') := by
  refine (typeSuffix?_alike h).bind fun shape? shape?' hshape => ?_
  cases shape? <;> cases shape?' <;>
    simp only [erase_none, erase_some, reduceCtorEq, Option.some.injEq] at hshape
  · exact .pure (by simp [*])
  · exact .andThen (typeFrom_alike hshape) fun _ _ _ => .pure (by simp [*])

theorem typeWith_alike {type type' : Parser TypeSyntax} (h : Parser.Alike type type') :
    Parser.Alike (typeWith type) (typeWith type') :=
  .get fun _ _ _ => (typeBaseWith_alike h).bind fun _ _ hshape =>
    .andThen (typeFrom_alike hshape) fun _ _ ht => loopOrFail_alike (fun _ _ => suffixAt_alike) ht

theorem typeWithin_alike (depth : Nat) : Parser.Alike (typeWithin depth) (typeWithin depth) := by
  induction depth with
  | zero => exact stall_alike
  | succ depth ih => exact typeWith_alike ih

theorem type_alike : Parser.Alike type type :=
  .andThen rounds_alike fun n m h => by
    obtain rfl : n = m := h
    exact typeWithin_alike n

theorem name_alike : Parser.Alike name name :=
  .andThen rounds_alike fun n m h => by
    obtain rfl : n = m := h
    exact nameWith_alike (typeWithin_alike n)

theorem typeArguments_alike : Parser.Alike typeArguments typeArguments :=
  .andThen rounds_alike fun n m h => by
    obtain rfl : n = m := h
    exact typeArgumentsWith_alike (typeWithin_alike n)

theorem type?_alike : Reader.Alike type? type? := by
  refine .get fun s t hs => Reader.Alike.bind type_alike fun r r' hr => ?_
  obtain ⟨a, b, rfl, rfl, hab⟩ | ⟨e, e', rfl, rfl, -⟩ := Except.cases_of_erase hr
  · exact .pure (by rw [erase_some, erase_some, hab])
  · exact (Reader.Alike.change fun _ _ h => h.returnTo hs).bind fun _ _ _ => .pure rfl

/-! ## Looking ahead -/

theorem closingAngle?_erase (depth : Nat) (ts : List Token) :
    closingAngle? depth (erase ts) = closingAngle? depth ts := by
  induction ts generalizing depth with
  | nil => rfl
  | cons t ts ih => cases depth <;> simp only [erase_cons, closingAngle?, kind_erase, ih]

theorem typeArgumentsLength?_erase (ts : List Token) :
    typeArgumentsLength? (erase ts) = typeArgumentsLength? ts := by
  cases ts with
  | nil => rfl
  | cons => simp only [erase_cons, typeArgumentsLength?, kind_erase, closingAngle?_erase]

theorem typeArgumentsLength?_alike {s t : ParserState} (h : s.Alike t) :
    typeArgumentsLength? s.after = typeArgumentsLength? t.after := by
  rw [← typeArgumentsLength?_erase, h.after_eq, typeArgumentsLength?_erase]

/-! ## Expressions -/

theorem followsName_alike {s t : ParserState} (h : s.Alike t) (start : Nat) :
    followsName s start = followsName t start := by
  have he (s : ParserState) : (erase s.before).head?.map Token.kind = s.before.head?.map Token.kind := by
    cases s.before <;> rfl
  rw [followsName, followsName, ← he, ← he, h.before_eq, h.place_eq]

theorem genericArguments?_alike {s t : ParserState} (h : s.Alike t) (start : Nat) :
    genericArguments? s start = genericArguments? t start := by
  simp only [genericArguments?, followsName_alike h, typeArgumentsLength?_alike h, h.peekAt_kind]

theorem expressionStep_alike (terminators : List TokenKind) (start : Nat) :
    Reader.Alike (expressionStep terminators start) (expressionStep terminators start) := by
  refine .get fun s t h => .ite ?_ (.pure rfl) ?_
  · rw [h.peek_kind]
  · rw [genericArguments?_alike h]
    dsimp only
    split
    · exact (advanceBy_alike _).bind fun _ _ _ => .pure rfl
    · exact skipGroup_alike.bind fun _ _ _ => .pure rfl

theorem areSideBySide_erase (t u : Token) : areSideBySide (erase t) (erase u) = areSideBySide t u :=
  rfl

theorem secondOperand?_erase (t : Token) (depth : Nat) (ts : List Token) :
    secondOperand? (erase t) depth (erase ts) = erase (secondOperand? t depth ts) := by
  induction ts generalizing t depth with
  | nil => rfl
  | cons u us ih =>
    rw [erase_cons, secondOperand?, secondOperand?, areSideBySide_erase, kind_erase, ih]
    split <;> rfl

theorem malformed?_erase (ts : List Token) : malformed? (erase ts) = erase (malformed? ts) := by
  cases ts with
  | nil => rfl
  | cons t ts =>
    have hlast : (erase ts).getLast?.getD (erase t) = erase (ts.getLast?.getD t) := by
      rw [show (erase ts).getLast? = ts.getLast?.map erase from List.getLast?_map, Option.getD_map]
    simp only [erase_cons, malformed?, hlast, kind_erase, secondOperand?_erase]
    split
    · rfl
    · split <;> rfl

theorem expression_alike (terminators : List TokenKind) :
    Parser.Alike (expression terminators) (expression terminators) := by
  refine .get fun s t h => ?_
  rw [h.place_eq]
  refine .andThen (loop_alike (fun _ _ _ => expressionStep_alike _ _) rfl) fun _ _ _ => ?_
  refine .get fun s' t' h' => .ite ?_ (failAt_alike _ _) ?_
  · rw [h'.place_eq]
  · have hm : erase (malformed? (s'.takenSince t.place)) = erase (malformed? (t'.takenSince t.place)) := by
      rw [← malformed?_erase, h'.takenSince, malformed?_erase]
    revert hm
    cases malformed? (s'.takenSince t.place) <;> cases malformed? (t'.takenSince t.place) <;>
      intro hm <;> simp only [erase_none, erase_some, reduceCtorEq, Option.some.injEq] at hm
    · exact .andThen (textFrom_alike _ _) fun _ _ _ => .pure rfl
    · refine .throw ?_
      simp only [ParseError.expected, kind_eq_of_erase hm, erase_parseError]

end CommandModules.Parser

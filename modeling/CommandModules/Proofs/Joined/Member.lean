/-
  Command modules — attributes, modifiers and members in a longer text.

  * `attributeSection_closes`: an attribute section may be the last entry of a text;
  * `declaresMember_carries`: a word is told to be a modifier or a name as before, for a type that
    is looked for behind it is found or missed in the longer text as well;
  * `memberAfter_carries`: members that are no types; behind them stands a brace of their type.
-/
import CommandModules.Proofs.Joined.Type
import CommandModules.Proofs.Joined.Closing

namespace CommandModules.Parser

open ParserState

variable {w : Frame} {r : Bool} {s : ParserState} {d : Distance}

/-! ## Attributes -/

theorem isAtArgumentName_within (hb : s.Bounded w) {mark : Punct}
    (hm : (TokenKind.punct mark).endsDeclaration = false) :
    isAtArgumentName (s.within w) mark = isAtArgumentName s mark := by
  rw [isAtArgumentName, isAtArgumentName, Bool.and_assoc, Bool.and_assoc]
  refine hb.isAt_and rfl fun hk h => ?_
  rw [h, kind_shift]
  cases hat : (s.peekAt 1).kind == .punct mark with
  | false => rfl
  | true =>
    have hk' := endsDeclaration_of_eq (beq_iff_eq.1 hat) hm
    rw [hb.peekAt_two hk hk', kind_shift]

theorem argumentName?_carries {mark : Punct}
    (hm : (TokenKind.punct mark).endsDeclaration = false) :
    Reader.Carries w r false s (argumentName? mark) (argumentName? mark) := by
  refine .get (.ite (fun hb => by rw [isAtArgumentName_within hb hm]) (fun _ => ?_) fun _ => .pure rfl)
  exact word_carries.bind fun _ _ _ => advance_carries.discard.bind fun _ _ _ => .pure rfl

theorem attributeArgument_carries :
    Reader.Carries w true false s attributeArgument attributeArgument := by
  refine .get (.congr ((argumentName?_carries rfl).bind fun nameEquals? _ _ => ?_)
    fun _ hb => by rw [hb.peek, span_shift, place_within])
  refine .join (fun _ => by rw [isSome_shift]) (fun _ => .pure rfl)
    (fun _ => argumentName?_carries rfl) fun nameColon? _ _ => ?_
  refine (orReport_carries (expression_carries _)).bind fun _ s' _ => .get (.pureAt fun hr _ => ?_)
  rw [place_within, (hr rfl).spanFrom]
  by_cases hp : s'.place = s.place
  · rw [if_pos hp, if_pos (by rw [hp])]
    rfl
  · rw [if_neg hp, if_neg (by omega)]
    rfl

theorem attributeArguments_carries :
    Parser.Carries w true false s attributeArguments attributeArguments := by
  refine .get (.congr ((expectMark_carries _).discard.bind fun _ _ _ => .get ?_)
    fun _ hb => by rw [hb.peek, span_shift])
  refine .join (fun hb => by rw [hb.isAtMark]) (fun _ => .pure rfl)
    (fun _ => commaSeparated_carries fun _ _ => .lift attributeArgument_carries) fun items _ _ => ?_
  refine (expectMark_carries _).discard.bind fun _ _ _ => .pureSpan fun _ => rfl

theorem attribute_carries : Parser.Carries w true false s attribute_ attribute_ := by
  refine .get (.congr (name_carries.bind fun name _ _ => .get ?_)
    fun _ hb => by rw [hb.peek, span_shift])
  refine .join (fun hb => by rw [hb.isAtMark]) (fun _ => attributeArguments_carries.map fun _ => rfl)
    (fun _ => .pure rfl) fun _ _ _ => .pureSpan fun _ => rfl

theorem attributeAndComma_carries (as : List Attribute) :
    Parser.Carries w true false s (attributeAndComma as)
      (attributeAndComma (shift w.distance as)) :=
  .get (.ite (fun hb => by rw [hb.isAtMark]) (fun _ => .pure rfl)
    fun _ => itemAndComma_carries attribute_carries as)

theorem attributeTarget?_carries : Parser.Carries w r false s attributeTarget? attributeTarget? := by
  refine .get (.ite (fun hb => ?_) (fun _ => ?_) fun _ => .pure rfl)
  · rw [hb.peek, kind_shift, hb.and_next (fun hk => ?_) fun _ h => by rw [h, kind_shift]]
    cases hs : s.peek.kind with
    | punct => simp [hs, TokenKind.isIdentifier, TokenKind.isKeyword] at hk
    | _ => rfl
  · exact .andThen word_carries fun _ _ _ => (Parser.Carries.lift advance_carries).discard.bind
      fun _ _ _ => .pure rfl

theorem attributeSection_closes :
    Closes (fun _ => True) w r true s attributeSection attributeSection := by
  refine .get (.congr (expectMark_readyCloses _ fun _ _ => ?_) fun _ hb => by rw [hb.peek, span_shift])
  refine attributeTarget?_carries.thenCloses fun target? _ _ => ?_
  refine (loopOrFail_carries (fun as _ _ => attributeAndComma_carries as) []).thenCloses
    fun attributes _ _ => ?_
  exact (discard_expectMark_closes _).andThen fun _ _ _ => .pureSpan fun _ => rfl

theorem attributeSections_carries :
    Parser.Carries w r false s attributeSections attributeSections :=
  whileAt_carries (fun _ hb => hb.isAtMark _)
    fun _ _ _ => attributeSection_closes.carries

/-! ## Modifiers -/

/-- The type that is looked for begins behind a word, on which it can rely. -/
theorem declaresMember_carries (h : s.isAt .identifier = true) :
    Reader.Carries w r false s declaresMember declaresMember := by
  have run (s : ParserState) : declaresMember.run s =
      ((type?.run s.advance).1.isSome && ((type?.run s.advance).2.isAt .identifier ||
        (type?.run s.advance).2.isAt (.keyword .this) ||
        (type?.run s.advance).2.isAt (.keyword .operator)), (type?.run s.advance).2.returnTo s) := rfl
  have hk := endsDeclaration_of_isAt h rfl
  have type := type?_carries (w := w) (s := s.advance)
  have ho := (onward_advance s).trans type.onward
  refine ⟨run s ▸ ho.returnTo, nofun, ?_⟩
  rw [run s]
  intro hq _ hb _
  have hs : s.Bounded w := hb.same ho.eof_eq.symm rfl
  have hready : s.advance.Ready w :=
    .inl (before_advance_ne_nil (hs.after_ne_nil (by rw [beq_iff_eq.1 h]; exact nofun)))
  have hbehind := type.keeps rfl (hs.advance hk)
  have hquiet : s.advance.Quiet (type?.run s.advance).2 :=
    (onward_advance s).quiet_right type.onward ⟨hq.1, hq.2⟩
  rw [run, advance_within hs, type.same hquiet (fun _ => hready) hbehind ⟨⟩, isSome_shift,
    hbehind.isAt, hbehind.isAt, hbehind.isAt]
  rfl

theorem isContextualModifier_carries :
    Reader.Carries w r false s isContextualModifier isContextualModifier := by
  refine .get (.ite (fun hb => by rw [hb.isAt, hb.peek, lexeme_shift]) (fun hc => ?_) fun _ => .pure rfl)
  have hat := (Bool.and_eq_true_iff.1 hc).1
  refine .ite (fun hb => ?_) (fun _ => .pure rfl) fun _ => declaresMember_carries hat
  rw [hb.peekAt_one (endsDeclaration_of_isAt hat rfl)]
  rfl

theorem isAtRefModifier_within (hb : s.Bounded w) :
    isAtRefModifier (s.within w) = isAtRefModifier s :=
  hb.isAt_and rfl fun _ h => by rw [h]; rfl

theorem isAtModifier_carries : Reader.Carries w r false s isAtModifier isAtModifier := by
  refine .get (.ite (fun hb => ?_) (fun _ => .pure rfl) fun _ => isContextualModifier_carries)
  rw [hb.peek, isAtRefModifier_within hb, kind_shift]

theorem addModifier_shift (m : WrittenModifiers) (i : Ident) :
    addModifier (shift d m) (shift d i) = shift d (addModifier m i) := by
  have hwords (m : WrittenModifiers) : (shift d m).words ++ [shift d i] = shift d (m.words ++ [i]) := by
    rw [shift_append]
    rfl
  unfold addModifier
  rw [show (shift d i).name = i.name from rfl, hwords]
  split <;> rfl

theorem modifierAfter_carries (m : WrittenModifiers) :
    Reader.Carries w r false s (modifierAfter m) (modifierAfter (shift w.distance m)) := by
  refine isAtModifier_carries.bind fun b _ _ => .ite (fun _ => Iff.rfl) (fun _ => ?_) fun _ => .pure rfl
  refine word_carries.bind fun i _ _ => .after (fun _ => Iff.rfl) (fun _ => report_carries _)
    fun _ _ => .pure ?_
  rw [addModifier_shift, shift_next]

theorem modifiers_carries : Reader.Carries w r false s modifiers modifiers :=
  loop_carries (fun m _ _ => (modifierAfter_carries m).mono fun _ _ => ⟨⟩) ⟨.none, []⟩

/-! ## Parameters -/

theorem isAtParameterModifier_within (hb : s.Bounded w) :
    isAtParameterModifier (s.within w) = isAtParameterModifier s := by
  unfold isAtParameterModifier
  rw [hb.peek, kind_shift, lexeme_shift]
  split
  case h_7 h =>
    have hk := endsDeclaration_of_eq h rfl
    dsimp only
    rw [hb.peekAt_one hk, kind_shift]
    cases hnext : (s.peekAt 1).kind.isIdentifier || (s.peekAt 1).kind.isPredefinedType with
    | false => rw [Bool.false_and, Bool.false_and]
    | true =>
      have hk' : (s.peekAt 1).kind.endsDeclaration = false := by
        cases hs : (s.peekAt 1).kind with
        | punct => simp [hs, TokenKind.isIdentifier, TokenKind.isPredefinedType] at hnext
        | _ => rfl
      rw [hb.peekAt_two hk hk', kind_shift]
  all_goals rfl

theorem foldl_addModifier_shift (is : List Ident) (m : WrittenModifiers) :
    (shift d is).foldl addModifier (shift d m) = shift d (is.foldl addModifier m) := by
  induction is generalizing m with
  | nil => rfl
  | cons i is ih => rw [shift_cons, List.foldl_cons, List.foldl_cons, addModifier_shift, ih]

theorem parameterModifiers_carries :
    Parser.Carries w r false s parameterModifiers parameterModifiers :=
  (whileAt_carries (fun _ => isAtParameterModifier_within) fun _ _ _ => .lift word_carries).bind
    fun is _ _ => .pure (foldl_addModifier_shift is ⟨.none, []⟩)

theorem initializer?_carries : Parser.Carries w true false s initializer? initializer? :=
  .andThen (eatMark_carries _) fun _ _ _ => .ite (fun _ => Iff.rfl)
    (fun _ => (expression_carries _).map fun _ => rfl) fun _ => .pure rfl

theorem parameter_carries : Parser.Carries w true false s parameter parameter := by
  refine .get (.congr ?_ fun _ hb => by rw [hb.peek, span_shift])
  refine attributeSections_carries.anywhere.bind fun _ _ _ => parameterModifiers_carries.bind
    fun _ _ _ => type_carries.bind fun _ _ _ => ident_carries.bind fun _ _ _ =>
    initializer?_carries.bind fun _ _ _ => .pureSpan fun _ => rfl

theorem parametersBetween_carries (opener closer : Punct) :
    Parser.Carries w true false s (parametersBetween opener closer)
      (parametersBetween opener closer) := by
  refine .get (.ite (fun hb => by rw [hb.isAtMark]) (fun _ => ?_) fun _ => failAt_carries _ _)
  refine (Parser.Carries.lift advance_carries).discard.bind fun _ _ _ => .get ?_
  refine .join (fun hb => by rw [hb.isAtMark]) (fun _ => .pure rfl)
    (fun _ => commaSeparated_carries fun _ _ => parameter_carries) fun _ _ _ => ?_
  exact (expectMark_carries _).discard.bind fun _ _ _ => .pure rfl

theorem parameters_carries : Parser.Carries w true false s parameters parameters :=
  parametersBetween_carries _ _

/-! ## Parts of members -/

theorem head_carries : Parser.Carries w r false s head head := by
  refine .get (.congr (attributeSections_carries.anywhere.bind fun _ _ _ => ?_)
    fun _ hb => by rw [hb.peek, span_shift])
  exact .andThen modifiers_carries fun _ _ _ => .pure rfl

theorem expressionThenSemicolon_carries :
    Parser.Carries w true false s expressionThenSemicolon expressionThenSemicolon :=
  (expression_carries _).bind fun _ _ _ => (expectMark_carries _).discard.bind fun _ _ _ => .pure rfl

theorem body_carries : Parser.Carries w true false s body body := by
  refine .get (.congr ?_ fun _ hb => by rw [hb.isAtMark, hb.peek, span_shift])
  refine .ite (fun _ => Iff.rfl) (fun _ => ?_) fun _ => .andThen (eatMark_carries _) fun _ _ _ =>
    .ite (fun _ => Iff.rfl) (fun _ => ?_) fun _ => .andThen (eatMark_carries _) fun _ _ _ =>
    .ite (fun _ => Iff.rfl) (fun _ => .pure rfl) fun _ => failAt_carries _ _
  · exact .andThen skipGroup_carries fun _ _ _ => .pureSpan fun _ => rfl
  · exact expressionThenSemicolon_carries.bind fun _ _ _ => .pure rfl

theorem typeParameter_carries : Parser.Carries w true false s typeParameter typeParameter := by
  refine .get (.congr (attributeSections_carries.anywhere.bind fun _ _ _ => .get ?_)
    fun _ hb => by rw [hb.peek, span_shift])
  refine .join (fun hb => by rw [hb.peek, kind_shift])
    (fun _ => (Parser.Carries.lift word_carries).map fun _ => rfl) (fun _ => .pure rfl) fun _ _ _ => ?_
  refine ident_carries.bind fun _ _ _ => .pureSpan fun _ => rfl

theorem typeParameters_carries : Parser.Carries w true false s typeParameters typeParameters :=
  .andThen (eatMark_carries _) fun _ _ _ => .ite (fun _ => Iff.rfl)
    (fun _ => (commaSeparated_carries fun _ _ => typeParameter_carries).bind fun _ _ _ =>
      (expectMark_carries _).discard.bind fun _ _ _ => .pure rfl) fun _ => .pure rfl

theorem isAtConstraintEnd_within (hb : s.Bounded w) :
    isAtConstraintEnd (s.within w) = isAtConstraintEnd s := by
  simp only [isAtConstraintEnd, hb.isAtMark, hb.isAtEof, hb.peek, isContextual_shift]

theorem constraintStep_carries : Reader.Carries w r false s constraintStep constraintStep :=
  .get (.ite (fun hb => by rw [isAtConstraintEnd_within hb]) (fun _ => .pure rfl)
    fun _ => skipGroup_carries.bind fun _ _ _ => .pure rfl)

theorem constraintTokens_carries :
    Reader.Carries w r false s constraintTokens constraintTokens :=
  loop_carries (fun _ _ _ => constraintStep_carries.mono fun _ _ => ⟨⟩) ()

theorem constraintClause_carries :
    Parser.Carries w true false s constraintClause constraintClause := by
  refine .get (.congr ?_ fun _ hb => by rw [hb.peek, span_shift])
  refine (Parser.Carries.lift advance_carries).discard.bind fun _ _ _ => ident_carries.bind
    fun _ _ _ => (expectMark_carries _).discard.bind fun _ s' _ => .get (.congr ?_
      fun _ hb => by rw [hb.peek, span_shift])
  refine .andThen constraintTokens_carries fun _ later _ => .get (.ite (fun _ => ?_)
    (fun _ => failAt_carries _ _) fun _ => ?_)
  · rw [place_within, place_within, Nat.add_right_cancel_iff]
  · exact .congr (.andThen (textFrom_carries _) fun _ _ _ => .pure rfl) fun hr _ => by
      rw [(hr rfl).spanFrom]

theorem constraintClauses_carries :
    Parser.Carries w true false s constraintClauses constraintClauses :=
  whileAt_carries (fun _ hb => by rw [hb.peek, isContextual_shift])
    fun _ _ _ => constraintClause_carries

theorem accessor_carries : Parser.Carries w true false s accessor accessor :=
  head_carries.bind fun _ _ _ => ident_carries.bind fun _ _ _ => body_carries.bind fun _ _ _ =>
    .pureSpan fun _ => rfl

theorem accessorsOrExpression_carries :
    Parser.Carries w true false s accessorsOrExpression accessorsOrExpression := by
  refine .andThen (eatMark_carries _) fun _ _ _ => .ite (fun _ => Iff.rfl) (fun _ => ?_) fun _ => ?_
  · exact expressionThenSemicolon_carries.bind fun _ _ _ => .pure rfl
  · refine (expectMark_carries _).discard.bind fun _ _ _ => ?_
    refine (whileAt_carries (fun _ hb => ?_) fun _ _ _ => accessor_carries).bind fun _ _ _ =>
      (expectMark_carries _).discard.bind fun _ _ _ => .pure rfl
    rw [hb.isAtMark, hb.isAtEof]

theorem memberNameStep_carries (start : Span) (q : Qualifier) :
    Parser.Carries w true false s (memberNameStep start q)
      (memberNameStep (shift w.distance start) (shift w.distance q)) := by
  refine ident_carries.bind fun ident s' _ => .get ?_
  have hsegments : (shift w.distance q).segments = shift w.distance q.segments := rfl
  have hstop : (shift w.distance q).stop = q.stop + w.distance.bytes := rfl
  rw [hsegments, hstop, isEmpty_shift, offset_shift]
  cases hn : typeArgumentsLength? s'.after
  case' none =>
    refine .congr ?_ fun _ hb => by rw [hb.isAtMark, typeArgumentsLength?_within hb, hn]
  case' some n =>
    refine .congr ?_ fun _ hb => by
      conv_lhs =>
        rw [hb.isAtMark, typeArgumentsLength?_within hb, hn]
        simp only [peekAt_typeArguments hb hn, kind_shift]
  all_goals
    refine .ite (fun _ => Iff.rfl) (fun _ => ?_) fun _ =>
      .ite (fun _ => Iff.rfl) (fun _ => .pure rfl) fun _ => ?_
    · refine .join (fun _ => Iff.rfl) (fun _ => typeArguments_carries) (fun _ => .pure rfl)
        fun args _ _ => .get (.congr ?_ fun hr hb => by rw [(hr rfl).previousSpan hb, stop_shift])
      exact (Parser.Carries.lift advance_carries).discard.bind fun _ _ _ => .pure (by
        simp only [shift_next, shift_qualifier, shift_append, shift_cons, shift_nil,
          shift_nameSegment])
    · refine .andThen (textBetween_carries ..) fun text _ _ => .pure ?_
      rw [Nat.add_sub_add_right, shift_done, shift_pair, shift_some, shift_name]
      rfl

theorem memberName_carries : Parser.Carries w true false s memberName memberName :=
  .get (.congr (loopOrFail_carries (fun q _ _ => memberNameStep_carries _ q) _)
    fun _ hb => by rw [hb.peek, span_shift]; rfl)

theorem declaratorAfter_carries (vs : List Variable) (name : Ident) :
    Parser.Carries w true false s (declaratorAfter vs name)
      (declaratorAfter (shift w.distance vs) (shift w.distance name)) := by
  refine .get (.after (fun hb => by rw [hb.isAtMark]) (fun _ => .lift skipGroup_carries) fun _ _ => ?_)
  refine initializer?_carries.bind fun _ _ _ => .get (.congr ?_ fun hr _ => by
    rw [show (shift w.distance name).span = shift w.distance name.span from rfl,
      (hr rfl).spanFrom])
  refine .andThen (eatMark_carries _) fun _ _ _ => .ite (fun _ => Iff.rfl)
    (fun _ => ident_carries.bind fun _ _ _ => .pure ?_) fun _ => .pure ?_
  all_goals
    simp only [shift_next, shift_done, shift_pair, shift_append]
    rfl

theorem declarators_carries (name : Ident) :
    Parser.Carries w true false s (declarators name) (declarators (shift w.distance name)) :=
  (loopOrFail_carries (fun x _ _ => declaratorAfter_carries x.1 x.2) ([], name)).bind
    fun _ _ _ => (expectMark_carries _).discard.bind fun _ _ _ => .pure rfl

/-! ## Members -/

section
variable (head : Head)

theorem delegate_closes :
    Closes (fun _ => True) w r true s (delegate head) (delegate (shift w.distance head)) :=
  expect_readyCloses (keyword_ne_eof _) fun _ _ => type_carries.thenCloses fun _ _ _ =>
    ident_carries.thenCloses fun _ _ _ => typeParameters_carries.thenCloses fun _ _ _ =>
      parameters_carries.thenCloses fun _ _ _ => constraintClauses_carries.thenCloses fun _ _ _ =>
        (discard_expectMark_closes _).andThen fun _ _ _ => .pureSpan fun _ => rfl

theorem specialFrom_carries (kind : SpecialKind) (ps : List Parameter) :
    Parser.Carries w true false s (specialFrom head kind ps)
      (specialFrom (shift w.distance head) kind (shift w.distance ps)) :=
  .pureNode fun _ => by rw [shift_memberSpecial]; rfl

theorem special_carries (kind : SpecialKind) :
    Parser.Carries w true false s (special head kind) (special (shift w.distance head) kind) :=
  parameters_carries.bind fun ps _ _ => body_carries.discard.bind fun _ _ _ =>
    specialFrom_carries head kind ps

theorem destructor_carries :
    Parser.Carries w true false s (destructor head) (destructor (shift w.distance head)) :=
  (expectMark_carries _).discard.bind fun _ _ _ => ident_carries.discard.bind fun _ _ _ =>
    special_carries head _

theorem conversionOperator_carries :
    Parser.Carries w true false s (conversionOperator head)
      (conversionOperator (shift w.distance head)) :=
  (Parser.Carries.lift advance_carries).discard.bind fun _ _ _ =>
    (expect_carries _).discard.bind fun _ _ _ => type_carries.discard.bind fun _ _ _ =>
      special_carries head _

/-- The parameters of an operator are found where they were: tokens remain behind what is passed
    over. -/
theorem operator_carries :
    Parser.Carries w true false s (operator head) (operator (shift w.distance head)) := by
  let p (t : Token) : Bool := t.kind != .punct .leftParen
  have hle : (s.after.takeWhile p).length ≤ s.after.length := (List.takeWhile_prefix _).length_le
  have run : (advanceBy (s.after.takeWhile p).length).run s =
      ((), ParserState.advanceBy (s.after.takeWhile p).length s) := by
    show (if _ then _ else _ : Reader Unit).run s = _
    rw [if_pos hle]
    rfl
  have passes : Reader.Carries w true false s (advanceBy (s.after.takeWhile p).length)
      (advanceBy ((s.within w).after.takeWhile p).length) := by
    have carries := advanceBy_carries (w := w) (r := true) (s := s) (s.after.takeWhile p).length
    refine ⟨carries.onward, carries.keeps, fun hq hr hb _ => ?_⟩
    rw [length_takeWhile_within (fun _ => rfl)]
    · exact carries.same hq hr hb ⟨⟩
    · refine or_iff_not_imp_left.2 fun hall => hb.eq_nil ?_
      obtain ⟨ts, hlen, hts, -⟩ := (advanceBy_moves hle).tokens_eq
      have := congrArg List.length hts
      rw [List.length_append, hlen] at this
      rw [run, ← List.length_eq_zero_iff]
      dsimp only
      omega
  exact .get (.andThen passes fun _ _ _ => special_carries head _)

theorem indexer_carries :
    Parser.Carries w true false s (indexer head) (indexer (shift w.distance head)) :=
  (expect_carries _).discard.bind fun _ _ _ => (parametersBetween_carries _ _).bind fun ps _ _ =>
    accessorsOrExpression_carries.discard.bind fun _ _ _ => specialFrom_carries head _ ps

theorem event_carries :
    Parser.Carries w true false s (event head) (event (shift w.distance head)) := by
  refine (expect_carries _).discard.bind fun _ _ _ => type_carries.bind fun type _ _ => ?_
  have rest (x : List Variable × List Accessor) (s : ParserState) : Parser.Carries w true false s
      (do return Member.event ⟨head.attributes, head.modifiers, type, x.1, x.2,
        (← get).spanFrom head.start⟩)
      (do return Member.event ⟨shift w.distance head.attributes, shift w.distance head.modifiers,
        shift w.distance type, shift w.distance x.1, shift w.distance x.2,
        (← get).spanFrom (shift w.distance head.start)⟩) :=
    .pureNode fun _ => by rw [shift_memberEvent]; rfl
  refine memberName_carries.bind fun x _ _ => .get (.ite (fun hb => by rw [hb.isAtMark])
    (fun _ => ?_) fun _ => ?_)
  · exact accessorsOrExpression_carries.bind fun as _ _ => .bind (.pure rfl) fun y _ _ => rest y _
  · exact (declarators_carries _).bind fun vs _ _ => .bind (.pure rfl) fun y _ _ => rest y _

theorem constructor_carries :
    Parser.Carries w true false s (constructor head) (constructor (shift w.distance head)) := by
  refine ident_carries.bind fun _ _ _ => parameters_carries.bind fun _ _ _ => ?_
  refine .andThen (eatMark_carries _) fun _ _ _ => .join (fun _ => Iff.rfl)
    (fun _ => (expression_carries _).map fun _ => rfl) (fun _ => .pure rfl) fun _ _ _ => ?_
  refine body_carries.bind fun _ _ _ => .pureNode fun _ => by rw [shift_memberConstructor]; rfl

theorem method_carries (returnType : TypeSyntax) (interface? : Option Name) (name : Ident) :
    Parser.Carries w true false s (method head returnType interface? name)
      (method (shift w.distance head) (shift w.distance returnType) (shift w.distance interface?)
        (shift w.distance name)) := by
  refine typeParameters_carries.bind fun _ _ _ => parameters_carries.bind fun _ _ _ =>
    constraintClauses_carries.bind fun _ _ _ => body_carries.bind fun _ _ _ =>
      .pureNode fun _ => by rw [shift_memberMethod]; rfl

theorem property_carries (type : TypeSyntax) (interface? : Option Name) (name : Ident) :
    Parser.Carries w true false s (property head type interface? name)
      (property (shift w.distance head) (shift w.distance type) (shift w.distance interface?)
        (shift w.distance name)) := by
  refine accessorsOrExpression_carries.bind fun x _ _ => ?_
  have rest (e? : Option ExprSyntax) (s : ParserState) : Parser.Carries w true false s
      (do return Member.property ⟨head.attributes, head.modifiers, type, interface?, name, x.1, x.2,
        e?, (← get).spanFrom head.start⟩)
      (do return Member.property ⟨shift w.distance head.attributes, shift w.distance head.modifiers,
        shift w.distance type, shift w.distance interface?, shift w.distance name,
        shift w.distance x.1, shift w.distance x.2, shift w.distance e?,
        (← get).spanFrom (shift w.distance head.start)⟩) :=
    .pureNode fun _ => by rw [shift_memberProperty]; rfl
  refine .ite (fun _ => ?_) (fun _ => .andThen (eatMark_carries _) fun _ _ _ => ?_)
    fun _ => .bind (.pure rfl) fun e? _ _ => rest e? _
  · rw [isNone_shift]
  · exact .join (fun _ => Iff.rfl) (fun _ => expressionThenSemicolon_carries.map fun _ => rfl)
      (fun _ => .pure rfl) fun e? _ _ => rest e? _

theorem field_carries (type : TypeSyntax) (name : Ident) :
    Parser.Carries w true false s (field head type name)
      (field (shift w.distance head) (shift w.distance type) (shift w.distance name)) := by
  refine (declarators_carries name).bind fun _ _ _ => .pureNode fun _ => by rw [shift_memberField]; rfl

theorem typedMember_carries (type : TypeSyntax) :
    Parser.Carries w true false s (typedMember head type)
      (typedMember (shift w.distance head) (shift w.distance type)) := by
  refine .andThen (eatWord_carries _) fun _ _ _ => .ite (fun _ => Iff.rfl)
    (fun _ => operator_carries head) fun _ => .get (.ite (fun hb => by rw [hb.isAt])
      (fun _ => indexer_carries head) fun _ => ?_)
  refine memberName_carries.bind fun x _ _ => .get ?_
  exact .ite (fun hb => by rw [hb.isAtMark, hb.isAtMark])
      (fun _ => method_carries head type x.1 x.2) fun _ =>
    .ite (fun hb => by rw [hb.isAtMark, hb.isAtMark])
      (fun _ => property_carries head type x.1 x.2) fun _ =>
    .ite (fun hb => by simp only [hb.isAtMark, isNone_shift])
      (fun _ => field_carries head type x.2) fun _ => failAt_carries _ _

theorem memberAfter_carries :
    Parser.Carries w true false s (memberAfter head) (memberAfter (shift w.distance head)) := by
  have typed : Parser.Carries w true false s (do typedMember head (← type))
      (do typedMember (shift w.distance head) (← type)) :=
    type_carries.bind fun type _ _ => typedMember_carries head type
  refine .get (.congr ?_ fun _ hb => by rw [hb.peek, kind_shift])
  split
  case h_1 => exact (delegate_closes head).carries.bind fun _ _ _ => .pure (by simp)
  case h_2 => exact destructor_carries head
  case h_3 => exact event_carries head
  case h_4 | h_5 => exact conversionOperator_carries head
  case h_6 h =>
    refine .ite (fun hb => ?_) (fun _ => constructor_carries head) fun _ => typed
    rw [hb.peekAt_one (endsDeclaration_of_eq h rfl), kind_shift]
  case h_7 => exact typed

end

theorem enumMember_carries : Parser.Carries w true false s enumMember enumMember := by
  refine .get (.congr ?_ fun _ hb => by rw [hb.peek, span_shift])
  refine attributeSections_carries.anywhere.bind fun _ _ _ => ident_carries.bind fun _ _ _ =>
    initializer?_carries.bind fun _ _ _ => .pureSpan fun _ => rfl

end CommandModules.Parser

/-
  Command modules — reading attributes, modifiers and members sees no places.

  * `isAtModifier_alike`: words are told to be modifiers or names alike;
  * `memberName_alike`: so are the qualifiers of members, whose text is cut out
    by place;
  * `memberAfter_alike`: members that are no types are read alike.
-/
import CommandModules.Proofs.Alike.Type

namespace CommandModules.Parser

open ParserState (Alike)

/-! ## Attributes -/

theorem argumentName?_alike (separator : Punct) :
    Reader.Alike (argumentName? separator) (argumentName? separator) := by
  refine .get fun s t h => .ite ?_ ?_ (.pure rfl)
  · simp only [isAtArgumentName, h.isAt, h.peekAt_kind]
  · exact word_alike.bind fun _ _ _ => advance_alike.discard.bind fun _ _ _ => .pure (by simp [*])

theorem attributeArgument_alike : Reader.Alike attributeArgument attributeArgument := by
  refine .get fun s t h => (argumentName?_alike _).bind fun a? b? hab => ?_
  refine .join ?_ (.pure rfl) (argumentName?_alike _) fun _ _ _ => ?_
  · rw [← isSome_erase a?, hab, isSome_erase]
  · exact (orReport_alike (expression_alike _)).bind fun _ _ _ => .get fun _ _ _ =>
      .pure (by simp [*])

theorem attributeArguments_alike : Parser.Alike attributeArguments attributeArguments := by
  refine .get fun _ _ _ => (expectMark_alike _).discard.bind fun _ _ _ => .get fun s t h => ?_
  refine .join ?_ (.pure rfl) (commaSeparated_alike (.lift attributeArgument_alike)) fun _ _ _ => ?_
  · rw [h.isAtMark]
  · exact (expectMark_alike _).discard.bind fun _ _ _ => .get fun _ _ _ => .pure (by simp [*])

theorem attribute_alike : Parser.Alike attribute_ attribute_ := by
  refine .get fun _ _ _ => name_alike.bind fun _ _ _ => .get fun s t h => ?_
  refine .join ?_ (attributeArguments_alike.map fun _ _ h => by rw [erase_some, erase_some, h])
    (.pure rfl) fun _ _ _ => .get fun _ _ _ => .pure (by simp [*])
  rw [h.isAtMark]

theorem attributeAndComma_alike {as bs : List Attribute} (h : erase as = erase bs) :
    Parser.Alike (attributeAndComma as) (attributeAndComma bs) := by
  refine .get fun s t hs => .ite ?_ (.pure (by simp [*])) (itemAndComma_alike attribute_alike h)
  rw [hs.isAtMark]

theorem attributeTarget?_alike : Parser.Alike attributeTarget? attributeTarget? := by
  refine .get fun s t h => .ite ?_ ?_ (.pure rfl)
  · rw [h.peek_kind, h.peekAt_kind]
  · exact .andThen word_alike fun _ _ _ => (Parser.Alike.lift advance_alike).discard.bind
      fun _ _ _ => .pure (by simp [*])

theorem attributeSection_alike : Parser.Alike attributeSection attributeSection :=
  .get fun _ _ _ => (expectMark_alike _).discard.bind fun _ _ _ =>
    attributeTarget?_alike.bind fun _ _ _ =>
      (loopOrFail_alike (fun _ _ => attributeAndComma_alike) rfl).bind fun _ _ _ =>
        (expectMark_alike _).discard.bind fun _ _ _ => .get fun _ _ _ => .pure (by simp [*])

theorem attributeSections_alike : Parser.Alike attributeSections attributeSections :=
  whileAt_alike (fun _ _ h => h.isAtMark _) attributeSection_alike

/-! ## Modifiers -/

theorem declaresMember_alike : Reader.Alike declaresMember declaresMember := by
  refine .get fun s t hs => advance_alike.discard.bind fun _ _ _ => ?_
  refine type?_alike.bind fun a? b? hab => .get fun s' t' h => ?_
  refine (Reader.Alike.change fun _ _ h => h.returnTo hs).bind fun _ _ _ => .pure ?_
  rw [← isSome_erase a?, hab, isSome_erase, h.isAt, h.isAt, h.isAt]

theorem isContextualModifier_alike : Reader.Alike isContextualModifier isContextualModifier := by
  refine .get fun s t h => .ite ?_ (.ite ?_ (.pure rfl) declaresMember_alike) (.pure rfl)
  · rw [h.isAt, h.peek_lexeme]
  · simp only [continuesModifiers, h.peekAt_kind, lexeme_eq_of_erase (h.peekAt_eq 1)]

theorem isAtModifier_alike : Reader.Alike isAtModifier isAtModifier := by
  refine .get fun s t h => .ite ?_ (.pure rfl) isContextualModifier_alike
  simp only [isAtRefModifier, h.isAt, h.peek_kind, h.peekAt_kind, h.peekAt_isContextual]

section
variable {m m' : WrittenModifiers} (hm : erase m = erase m') {w w' : Ident} (hw : erase w = erase w')
include hm hw

theorem addModifier_erase : erase (addModifier m w) = erase (addModifier m' w') := by
  obtain ⟨hflags, hwords⟩ := WrittenModifiers.mk.inj hm
  have hname : w.name = w'.name := (Ident.mk.inj hw).1
  unfold addModifier
  rw [hname]
  split <;> simp [*]

theorem isRepeated_erase : isRepeated m w = isRepeated m' w' := by
  have hflags : m.flags = m'.flags := (WrittenModifiers.mk.inj hm).1
  have hname : w.name = w'.name := (Ident.mk.inj hw).1
  rw [isRepeated, isRepeated, hflags, hname]

end

theorem modifierAfter_alike {m m' : WrittenModifiers} (h : erase m = erase m') :
    Reader.Alike (modifierAfter m) (modifierAfter m') := by
  refine isAtModifier_alike.bind fun b b' hb => .ite ?_ ?_ (.pure (by simp [*]))
  · obtain rfl : b = b' := hb
    rfl
  · refine word_alike.bind fun w w' hw => .after ?_ (report_alike ?_) (.pure ?_)
    · rw [isRepeated_erase h hw]
    · have hname : w.name = w'.name := (Ident.mk.inj hw).1
      simp only [repeated, erase_parseError, hname]
    · rw [erase_next, erase_next, addModifier_erase h hw]

theorem modifiers_alike : Reader.Alike modifiers modifiers :=
  loop_alike (fun _ _ => modifierAfter_alike) rfl

/-! ## Parameters -/

theorem isAtParameterModifier_alike {s t : ParserState} (h : s.Alike t) :
    isAtParameterModifier s = isAtParameterModifier t := by
  simp only [isAtParameterModifier, h.peek_kind, h.peek_lexeme, h.peekAt_kind]

theorem foldl_addModifier_erase {ws ws' : List Ident} (hws : erase ws = erase ws')
    {m m' : WrittenModifiers} (hm : erase m = erase m') :
    erase (ws.foldl addModifier m) = erase (ws'.foldl addModifier m') := by
  induction ws generalizing ws' m m' with
  | nil => cases ws' <;> simp_all
  | cons w ws ih =>
    cases ws' with
    | nil => cases hws
    | cons w' ws' =>
      obtain ⟨hw, hws⟩ := List.cons.inj hws
      exact ih hws (addModifier_erase hm hw)

theorem parameterModifiers_alike : Parser.Alike parameterModifiers parameterModifiers :=
  (whileAt_alike (fun _ _ => isAtParameterModifier_alike) (.lift word_alike)).bind
    fun _ _ h => .pure (foldl_addModifier_erase h rfl)

theorem initializer?_alike : Parser.Alike initializer? initializer? := by
  refine .andThen (eatMark_alike _) fun b b' hb => .ite ?_ ?_ (.pure rfl)
  · obtain rfl : b = b' := hb
    rfl
  · exact (expression_alike _).map fun _ _ h => by rw [erase_some, erase_some, h]

theorem parameter_alike : Parser.Alike parameter parameter :=
  .get fun _ _ _ => attributeSections_alike.bind fun _ _ _ =>
    parameterModifiers_alike.bind fun _ _ _ => type_alike.bind fun _ _ _ =>
      ident_alike.bind fun _ _ _ => initializer?_alike.bind fun _ _ _ =>
        .get fun _ _ _ => .pure (by simp only [erase_parameter, *])

theorem parametersBetween_alike (opener closer : Punct) :
    Parser.Alike (parametersBetween opener closer) (parametersBetween opener closer) := by
  refine .get fun s t h => .ite ?_ ?_ (failAt_alike _ _)
  · rw [h.isAtMark]
  · refine (Parser.Alike.lift advance_alike).discard.bind fun _ _ _ => .get fun s' t' h' => ?_
    refine .join ?_ (.pure rfl) (commaSeparated_alike parameter_alike) fun _ _ _ => ?_
    · rw [h'.isAtMark]
    · exact (expectMark_alike _).discard.bind fun _ _ _ => .pure (by simp [*])

theorem parameters_alike : Parser.Alike parameters parameters :=
  parametersBetween_alike _ _

/-! ## Parts of members -/

instance : Erase Head where
  erase h := ⟨default, erase h.attributes, erase h.modifiers⟩

instance : Erase Qualifier where
  erase q := ⟨erase q.segments, 0⟩

@[simp] theorem erase_head (start : Span) (attributes : List AttributeSection)
    (modifiers : WrittenModifiers) :
    erase (⟨start, attributes, modifiers⟩ : Head) =
      ⟨default, erase attributes, erase modifiers⟩ := rfl

@[simp] theorem erase_qualifier (segments : List NameSegment) (stop : Nat) :
    erase (⟨segments, stop⟩ : Qualifier) = ⟨erase segments, 0⟩ := rfl

theorem head_alike : Parser.Alike head head :=
  .get fun _ _ _ => attributeSections_alike.bind fun _ _ _ =>
    .andThen modifiers_alike fun _ _ _ => .pure (by simp [*])

theorem expressionThenSemicolon_alike :
    Parser.Alike expressionThenSemicolon expressionThenSemicolon :=
  (expression_alike _).bind fun _ _ h => (expectMark_alike _).discard.bind fun _ _ _ => .pure h

theorem body_alike : Parser.Alike body body := by
  refine .get fun s t h => .ite ?_ ?_ <| .andThen (eatMark_alike _) fun b b' hb => .ite ?_ ?_ <|
    .andThen (eatMark_alike _) fun c c' hc => .ite ?_ (.pure rfl) (failAt_alike _ _)
  · rw [h.isAtMark]
  · exact .andThen skipGroup_alike fun _ _ _ => .get fun _ _ _ => .pure rfl
  · obtain rfl : b = b' := hb
    rfl
  · exact expressionThenSemicolon_alike.bind fun _ _ _ => .pure (by simp [*])
  · obtain rfl : c = c' := hc
    rfl

theorem typeParameter_alike : Parser.Alike typeParameter typeParameter := by
  refine .get fun _ _ _ => attributeSections_alike.bind fun _ _ _ => .get fun s t h => ?_
  refine .join ?_ (.map (.lift word_alike) fun _ _ h => by rw [erase_some, erase_some, h])
    (.pure rfl) fun _ _ _ => ?_
  · rw [h.peek_kind]
  · exact ident_alike.bind fun _ _ _ => .get fun _ _ _ => .pure (by simp only [erase_typeParameter, *])

theorem typeParameters_alike : Parser.Alike typeParameters typeParameters := by
  refine .andThen (eatMark_alike _) fun b b' hb => .ite ?_ ?_ (.pure rfl)
  · obtain rfl : b = b' := hb
    rfl
  · exact (commaSeparated_alike typeParameter_alike).bind fun _ _ h =>
      (expectMark_alike _).discard.bind fun _ _ _ => .pure h

theorem isAtConstraintEnd_alike {s t : ParserState} (h : s.Alike t) :
    isAtConstraintEnd s = isAtConstraintEnd t := by
  simp only [isAtConstraintEnd, h.isAtMark, h.isAtEof, h.peek_isContextual]

theorem constraintTokens_alike : Reader.Alike constraintTokens constraintTokens := by
  refine loop_alike (fun _ _ _ => .get fun s t h => .ite ?_ (.pure rfl) ?_) rfl
  · rw [isAtConstraintEnd_alike h]
  · exact skipGroup_alike.bind fun _ _ _ => .pure rfl

theorem constraintClause_alike : Parser.Alike constraintClause constraintClause := by
  refine .get fun _ _ _ => (Parser.Alike.lift advance_alike).discard.bind fun _ _ _ => ?_
  refine ident_alike.bind fun _ _ _ => (expectMark_alike _).discard.bind fun _ _ _ => ?_
  refine .get fun s t h => .andThen constraintTokens_alike fun _ _ _ => .get fun s' t' h' => ?_
  refine .ite ?_ (failAt_alike _ _) (.andThen (textFrom_alike _ _) fun _ _ _ => .pure (by simp [*]))
  rw [h.place_eq, h'.place_eq]

theorem constraintClauses_alike : Parser.Alike constraintClauses constraintClauses :=
  whileAt_alike (fun _ _ h => h.peek_isContextual _) constraintClause_alike

theorem accessor_alike : Parser.Alike accessor accessor := by
  refine head_alike.bind fun head head' hh => ident_alike.bind fun _ _ _ =>
    body_alike.bind fun _ _ _ => .get fun _ _ _ => .pure ?_
  obtain ⟨-, ha, hm⟩ := Head.mk.inj hh
  simp only [erase_accessor, *]

theorem accessorsOrExpression_alike :
    Parser.Alike accessorsOrExpression accessorsOrExpression := by
  refine .andThen (eatMark_alike _) fun b b' hb => .ite ?_ ?_ ?_
  · obtain rfl : b = b' := hb
    rfl
  · exact expressionThenSemicolon_alike.bind fun _ _ _ => .pure (by simp [*])
  · refine (expectMark_alike _).discard.bind fun _ _ _ => ?_
    refine (whileAt_alike (fun s t h => ?_) accessor_alike).bind fun _ _ _ =>
      (expectMark_alike _).discard.bind fun _ _ _ => .pure (by simp [*])
    rw [h.isAtMark, h.isAtEof]

theorem memberNameStep_alike {start start' : Span} {q q' : Qualifier} (h : erase q = erase q') :
    Parser.Alike (memberNameStep start q) (memberNameStep start' q') := by
  obtain ⟨hsegments, -⟩ := Qualifier.mk.inj h
  refine ident_alike.bind fun ident ident' hident => .get fun s t hs => ?_
  rw [typeArgumentsLength?_alike hs]
  simp only [hs.isAtMark, hs.peekAt_kind]
  refine .ite Iff.rfl (.join Iff.rfl typeArguments_alike (.pure rfl) fun _ _ _ => ?_) <|
    .ite ?_ (.pure (by simp [*])) ?_
  · exact .get fun _ _ _ => (Parser.Alike.lift advance_alike).discard.bind fun _ _ _ =>
      .pure (by simp [*])
  · rw [← isEmpty_erase q.segments, hsegments, isEmpty_erase]
  · exact .andThen (textBetween_alike _ _ _ _) fun _ _ _ => .pure (by simp [*])

theorem memberName_alike : Parser.Alike memberName memberName :=
  .get fun _ _ _ => loopOrFail_alike (fun _ _ => memberNameStep_alike) rfl

theorem declaratorAfter_alike {vs vs' : List Variable} (hvs : erase vs = erase vs')
    {name name' : Ident} (hname : erase name = erase name') :
    Parser.Alike (declaratorAfter vs name) (declaratorAfter vs' name') := by
  refine .get fun s t h => .after ?_ (.lift skipGroup_alike) ?_
  · rw [h.isAtMark]
  · refine initializer?_alike.bind fun _ _ _ => .get fun _ _ _ => ?_
    refine .andThen (eatMark_alike _) fun b b' hb => .ite ?_ ?_ ?_
    · obtain rfl : b = b' := hb
      rfl
    · exact ident_alike.bind fun _ _ _ => .pure (by simp [*])
    · exact .pure (by simp [*])

theorem declarators_alike {name name' : Ident} (h : erase name = erase name') :
    Parser.Alike (declarators name) (declarators name') := by
  refine (loopOrFail_alike (fun x y hxy => ?_) (x := ([], name)) (y := ([], name')) ?_).bind
    fun _ _ h => (expectMark_alike _).discard.bind fun _ _ _ => .pure h
  · obtain ⟨hvs, hname⟩ := Prod.mk.inj hxy
    exact declaratorAfter_alike hvs hname
  · rw [erase_pair, erase_pair, h]

/-! ## Members -/

section
variable {head head' : Head} (h : erase head = erase head')
include h

theorem Head.attributes_eq : erase head.attributes = erase head'.attributes :=
  (Head.mk.inj h).2.1

theorem Head.modifiers_eq : erase head.modifiers = erase head'.modifiers :=
  (Head.mk.inj h).2.2

theorem delegate_alike : Parser.Alike (delegate head) (delegate head') :=
  (expect_alike _).discard.bind fun _ _ _ => type_alike.bind fun _ _ _ =>
    ident_alike.bind fun _ _ _ => typeParameters_alike.bind fun _ _ _ =>
      parameters_alike.bind fun _ _ _ => constraintClauses_alike.bind fun _ _ _ =>
        (expectMark_alike _).discard.bind fun _ _ _ => .get fun _ _ _ => .pure (by
          simp only [erase_delegate, Head.attributes_eq h, Head.modifiers_eq h, *])

theorem specialFrom_alike (kind : SpecialKind) {ps ps' : List Parameter}
    (hps : erase ps = erase ps') :
    Parser.Alike (specialFrom head kind ps) (specialFrom head' kind ps') :=
  .get fun _ _ _ => .pure (by
    simp only [erase_memberSpecial, erase_specialMember, Head.attributes_eq h,
      Head.modifiers_eq h, hps])

theorem special_alike (kind : SpecialKind) : Parser.Alike (special head kind) (special head' kind) :=
  parameters_alike.bind fun _ _ hps => body_alike.discard.bind fun _ _ _ =>
    specialFrom_alike h kind hps

theorem destructor_alike : Parser.Alike (destructor head) (destructor head') :=
  (expectMark_alike _).discard.bind fun _ _ _ => ident_alike.discard.bind fun _ _ _ =>
    special_alike h _

theorem conversionOperator_alike :
    Parser.Alike (conversionOperator head) (conversionOperator head') :=
  (Parser.Alike.lift advance_alike).discard.bind fun _ _ _ =>
    (expect_alike _).discard.bind fun _ _ _ => type_alike.discard.bind fun _ _ _ =>
      special_alike h _

theorem operator_alike : Parser.Alike (operator head) (operator head') := by
  refine .get fun s t hs => ?_
  have := takeWhile_alike hs (· != .punct .leftParen)
  rw [this]
  exact .andThen (advanceBy_alike _) fun _ _ _ => special_alike h _

theorem indexer_alike : Parser.Alike (indexer head) (indexer head') :=
  (expect_alike _).discard.bind fun _ _ _ => (parametersBetween_alike _ _).bind fun _ _ hps =>
    accessorsOrExpression_alike.discard.bind fun _ _ _ => specialFrom_alike h _ hps

theorem event_alike : Parser.Alike (event head) (event head') := by
  refine (expect_alike _).discard.bind fun _ _ _ => type_alike.bind fun _ _ _ => ?_
  refine memberName_alike.bind fun x x' hx => .get fun s t hs => ?_
  obtain ⟨-, hname⟩ := Prod.mk.inj hx
  have event {y y' : List Variable × List Accessor} (hy : erase y = erase y') :
      erase y.1 = erase y'.1 ∧ erase y.2 = erase y'.2 := Prod.mk.inj hy
  refine .ite ?_ ?_ ?_
  · rw [hs.isAtMark]
  · refine accessorsOrExpression_alike.bind fun as as' has => ?_
    obtain ⟨has, -⟩ := Prod.mk.inj has
    refine .bind (.pure (by simp [*])) fun y y' hy => .get fun _ _ _ => .pure ?_
    simp only [erase_memberEvent, erase_event, Head.attributes_eq h, Head.modifiers_eq h, event hy, *]
  · refine (declarators_alike hname).bind fun _ _ _ => ?_
    refine .bind (.pure (by simp [*])) fun y y' hy => .get fun _ _ _ => .pure ?_
    simp only [erase_memberEvent, erase_event, Head.attributes_eq h, Head.modifiers_eq h, event hy, *]

theorem constructor_alike : Parser.Alike (constructor head) (constructor head') := by
  refine ident_alike.bind fun _ _ _ => parameters_alike.bind fun _ _ _ => ?_
  refine .andThen (eatMark_alike _) fun b b' hb => .join ?_
    ((expression_alike _).map fun _ _ h => by rw [erase_some, erase_some, h]) (.pure rfl)
    fun _ _ _ => body_alike.bind fun _ _ _ => .get fun _ _ _ => .pure (by
      simp only [erase_memberConstructor, erase_constructor, Head.attributes_eq h,
        Head.modifiers_eq h, *])
  obtain rfl : b = b' := hb
  rfl

theorem method_alike {type type' : TypeSyntax} (htype : erase type = erase type')
    {interface? interface?' : Option Name} (hinterface : erase interface? = erase interface?')
    {name name' : Ident} (hname : erase name = erase name') :
    Parser.Alike (method head type interface? name) (method head' type' interface?' name') :=
  typeParameters_alike.bind fun _ _ _ => parameters_alike.bind fun _ _ _ =>
    constraintClauses_alike.bind fun _ _ _ => body_alike.bind fun _ _ _ =>
      .get fun _ _ _ => .pure (by
        simp only [erase_memberMethod, erase_method, Head.attributes_eq h, Head.modifiers_eq h, *])

theorem property_alike {type type' : TypeSyntax} (htype : erase type = erase type')
    {interface? interface?' : Option Name} (hinterface : erase interface? = erase interface?')
    {name name' : Ident} (hname : erase name = erase name') :
    Parser.Alike (property head type interface? name) (property head' type' interface?' name') := by
  refine accessorsOrExpression_alike.bind fun x x' hx => ?_
  obtain ⟨haccessors, hexpression⟩ := Prod.mk.inj hx
  have property {e? e?' : Option ExprSyntax} (he : erase e? = erase e?') :
      Parser.Alike
        (do return Member.property ⟨head.attributes, head.modifiers, type, interface?, name, x.1,
          x.2, e?, (← get).spanFrom head.start⟩)
        (do return Member.property ⟨head'.attributes, head'.modifiers, type', interface?', name',
          x'.1, x'.2, e?', (← get).spanFrom head'.start⟩) :=
    .get fun _ _ _ => .pure (by
      simp only [erase_memberProperty, erase_property, Head.attributes_eq h, Head.modifiers_eq h, *])
  refine .ite ?_ ?_ (.bind (.pure rfl) fun _ _ he => property he)
  · rw [← isNone_erase x.2, hexpression, isNone_erase]
  · refine .andThen (eatMark_alike _) fun b b' hb => .join ?_
      (expressionThenSemicolon_alike.map fun _ _ h => by rw [erase_some, erase_some, h]) (.pure rfl)
      fun _ _ he => property he
    obtain rfl : b = b' := hb
    rfl

theorem field_alike {type type' : TypeSyntax} (htype : erase type = erase type')
    {name name' : Ident} (hname : erase name = erase name') :
    Parser.Alike (field head type name) (field head' type' name') :=
  (declarators_alike hname).bind fun _ _ _ => .get fun _ _ _ => .pure (by
    simp only [erase_memberField, erase_field, Head.attributes_eq h, Head.modifiers_eq h, *])

theorem typedMember_alike {type type' : TypeSyntax} (htype : erase type = erase type') :
    Parser.Alike (typedMember head type) (typedMember head' type') := by
  refine .andThen (eatWord_alike _) fun b b' hb => .ite ?_ (operator_alike h) <|
    .get fun s t hs => .ite ?_ (indexer_alike h) ?_
  · obtain rfl : b = b' := hb
    rfl
  · rw [hs.isAt]
  refine memberName_alike.bind fun x x' hx => .get fun s t hs => ?_
  obtain ⟨hinterface, hname⟩ := Prod.mk.inj hx
  refine .ite ?_ (method_alike h htype hinterface hname) <|
    .ite ?_ (property_alike h htype hinterface hname) <|
    .ite ?_ (field_alike h htype hname) (failAt_alike _ _)
  · rw [hs.isAtMark, hs.isAtMark]
  · rw [hs.isAtMark, hs.isAtMark]
  · simp only [hs.isAtMark]
    rw [← isNone_erase x.1, hinterface, isNone_erase]

theorem memberAfter_alike : Parser.Alike (memberAfter head) (memberAfter head') := by
  refine .get fun s t hs => ?_
  have typed : Parser.Alike (do typedMember head (← type)) (do typedMember head' (← type)) :=
    type_alike.bind fun _ _ => typedMember_alike h
  rw [hs.peek_kind]
  split
  case h_1 => exact (delegate_alike h).bind fun _ _ _ => .pure (by simp [*])
  case h_2 => exact destructor_alike h
  case h_3 => exact event_alike h
  case h_4 | h_5 => exact conversionOperator_alike h
  case h_6 =>
    refine .ite ?_ (constructor_alike h) typed
    rw [hs.peekAt_kind]
  case h_7 => exact typed

end

theorem enumMember_alike : Parser.Alike enumMember enumMember :=
  .get fun _ _ _ => attributeSections_alike.bind fun _ _ _ => ident_alike.bind fun _ _ _ =>
    initializer?_alike.bind fun _ _ _ => .get fun _ _ _ => .pure (by simp only [erase_enumMember, *])

end CommandModules.Parser

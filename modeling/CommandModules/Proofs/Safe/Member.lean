/-
  Command modules — reading attributes, modifiers and members is safe.

  * `attributeSection_safe`: a section of attributes consumes a token and stands
    in the text;
  * `isAtModifier_safe`: telling modifiers from names consumes nothing;
  * `memberName_safe`: the text of what qualifies the name of a member can be cut
    out, for it ends behind the place where the name begins;
  * `memberAfter_safe`: reading a member that is no type is safe;
  * `Member.IsWorded`: the types and delegates that are read have words as names.
-/
import CommandModules.Proofs.Safe.Type
import CommandModules.Syntax.Parser.Member

namespace CommandModules

/-- The names of the types and delegates in the member are words. -/
inductive Member.IsWorded : Member → Prop
  | type {t : TypeDeclaration} : IsWord t.name.name .identifier → (∀ m ∈ t.members, m.IsWorded) →
      IsWorded (.type t)
  | delegate {d : Delegate} : IsWord d.name.name .identifier → IsWorded (.delegate d)
  | other {m : Member} : (∀ t, m ≠ .type t) → (∀ d, m ≠ .delegate d) → IsWorded m

namespace Parser

open ParserState

variable {source : List Char} {s : ParserState}

/-! ## Attributes -/

theorem argumentName?_safe {separator : Punct} :
    Reader.Safe source s (argumentName? separator) fun _ _ => True := by
  refine .get fun _ => ?_
  split
  · exact word_safe.bind fun _ _ _ _ _ => advance_passes.discard.bind fun _ _ _ _ _ => .pure ⟨⟩
  · exact .pure ⟨⟩

theorem attributeArgument_safe : Reader.Safe source s attributeArgument fun _ _ => True := by
  refine .get fun _ => argumentName?_safe.bind fun _ _ _ _ _ => ?_
  refine .join (R := fun _ _ => True) (fun _ => .pure ⟨⟩) (fun _ => argumentName?_safe)
    fun _ _ _ _ _ => ?_
  exact (orReport_safe expression_safe).bind fun _ _ _ _ _ => .get fun _ => .pure ⟨⟩

theorem attributeArguments_safe : Parser.Safe source s attributeArguments fun _ _ => True := by
  refine .get fun _ => expectMark_safe.discard.bind fun _ _ _ _ _ => .get fun _ => ?_
  refine .join (R := fun _ _ => True) (fun _ => .pure ⟨⟩) (fun _ => ?_) fun _ _ _ _ _ => ?_
  · exact commaSeparated_safe fun _ _ _ => .lift attributeArgument_safe
  · exact expectMark_safe.discard.bind fun _ _ _ _ _ => .get fun _ => .pure ⟨⟩

theorem attribute_safe : Parser.Safe source s attribute_ fun _ _ => True := by
  refine .get fun _ => name_safe.bind fun _ _ _ _ _ => .get fun _ => ?_
  refine .join (R := fun _ _ => True) (fun _ => ?_) (fun _ => .pure ⟨⟩)
    fun _ _ _ _ _ => .get fun _ => .pure ⟨⟩
  exact .map attributeArguments_safe

theorem attributeAndComma_safe {as : List Attribute} :
    Parser.Safe source s (attributeAndComma as) Round.Consumes := by
  refine .get fun _ => ?_
  split
  · exact .pure ⟨⟩
  · exact itemAndComma_safe attribute_safe

theorem attributeTarget?_safe : Parser.Safe source s attributeTarget? fun _ _ => True := by
  refine .get fun _ => ?_
  split
  · refine .andThen word_safe fun _ _ _ _ _ => ?_
    exact (Parser.Safe.lift advance_passes).discard.bind fun _ _ _ _ _ => .pure ⟨⟩
  · exact .pure ⟨⟩

theorem attributeSection_safe : Parser.Safe source s attributeSection fun a k =>
    a.span.Inside source ∧ 0 < k := by
  refine .get fun hg => expectMark_safe.discard.bind fun _ _ _ _ _ => ?_
  refine attributeTarget?_safe.bind fun _ _ _ _ _ => ?_
  refine (Parser.Safe.loop_consumes fun _ _ _ _ => attributeAndComma_safe).bind fun _ _ _ _ _ => ?_
  refine expectMark_safe.discard.bind fun _ _ _ _ _ => .get fun hg' => .pure ?_
  exact ⟨hg'.spanFrom_inside hg.peek_inside, by omega⟩

theorem attributeSections_safe : Parser.Safe source s attributeSections fun _ _ => True :=
  whileAt_safe fun _ _ _ _ _ => attributeSection_safe.mono fun _ _ h => h.2

/-! ## Modifiers -/

theorem declaresMember_safe : Reader.Safe source s declaresMember fun _ k => k = 0 := by
  intro hg
  have h : Reader.Safe source s (do discard advance; type?) fun _ _ => True :=
    advance_passes.discard.bind fun _ _ _ _ _ => type?_safe
  obtain ⟨k, hk, -⟩ := h hg
  exact ⟨0, hk.returnTo, rfl⟩

theorem isContextualModifier_safe : Reader.Safe source s isContextualModifier fun b k =>
    k = 0 ∧ (b = true → s.peek.kind ≠ .eof) := by
  refine .get fun _ => ?_
  split
  · rename_i hc
    have hne : s.peek.kind ≠ .eof := peek_ne_eof (Bool.and_eq_true_iff.1 hc).1 nofun
    dsimp only
    split
    · exact .pure ⟨rfl, fun _ => hne⟩
    · exact declaresMember_safe.mono fun _ _ hk => ⟨hk, fun _ => hne⟩
  · exact .pure ⟨rfl, nofun⟩

/-- Telling whether a modifier stands here consumes nothing. -/
theorem isAtModifier_safe : Reader.Safe source s isAtModifier fun b k =>
    k = 0 ∧ (b = true → s.peek.kind ≠ .eof) := by
  refine .get fun _ => ?_
  split
  · rename_i hc
    refine .pure ⟨rfl, fun _ heof => ?_⟩
    simp [heof, TokenKind.isModifier, isAtRefModifier, isAt] at hc
  · exact isContextualModifier_safe

theorem modifierAfter_safe {m : WrittenModifiers} :
    Reader.Safe source s (modifierAfter m) Round.Consumes := by
  refine isAtModifier_safe.bind fun b _ s₁ h₁ hb => ?_
  obtain ⟨rfl, hb⟩ := hb
  split
  · refine (word_consumes (h₁.peek_eq ▸ hb ‹_›)).bind fun w _ _ _ hw => ?_
    refine .after (R := fun _ => True) (fun _ => report_safe hw.1) (fun _ => ⟨⟩) fun _ _ _ _ => ?_
    exact .pure ⟨⟨⟩, by omega⟩
  · exact .pure ⟨⟩

theorem modifiers_safe : Reader.Safe source s modifiers fun _ _ => True :=
  .loop_consumes fun _ _ _ _ => modifierAfter_safe

/-! ## Parameters -/

theorem isAtParameterModifier_ne_eof (h : isAtParameterModifier s = true) : s.peek.kind ≠ .eof := by
  intro heof
  simp [isAtParameterModifier, heof] at h

theorem parameterModifiers_safe : Parser.Safe source s parameterModifiers fun _ _ => True := by
  refine .bind (whileAt_safe fun _ _ _ _ h => ?_) fun _ _ _ _ _ => .pure ⟨⟩
  exact .lift ((word_consumes (isAtParameterModifier_ne_eof h)).mono fun _ _ hw => hw.2)

theorem initializer?_safe : Parser.Safe source s initializer? fun _ _ => True := by
  refine .andThen eatMark_safe fun _ _ _ _ _ => ?_
  split
  · exact .map expression_safe
  · exact .pure ⟨⟩

theorem parameter_safe : Parser.Safe source s parameter fun _ _ => True :=
  .get fun _ => attributeSections_safe.bind fun _ _ _ _ _ =>
    parameterModifiers_safe.bind fun _ _ _ _ _ => type_safe.bind fun _ _ _ _ _ =>
      ident_safe.bind fun _ _ _ _ _ => initializer?_safe.bind fun _ _ _ _ _ =>
        .get fun _ => .pure ⟨⟩

theorem parametersBetween_safe {opener closer : Punct} :
    Parser.Safe source s (parametersBetween opener closer) fun _ _ => True := by
  refine .get fun _ => ?_
  split
  · refine (Parser.Safe.lift advance_passes).discard.bind fun _ _ _ _ _ => .get fun _ => ?_
    refine .join (R := fun _ _ => True) (fun _ => .pure ⟨⟩)
      (fun _ => commaSeparated_safe fun _ _ _ => parameter_safe) fun _ _ _ _ _ => ?_
    exact expectMark_safe.discard.bind fun _ _ _ _ _ => .pure ⟨⟩
  · exact failAt_safe

theorem parameters_safe : Parser.Safe source s parameters fun _ _ => True :=
  parametersBetween_safe

/-! ## Parts of members -/

theorem head_safe : Parser.Safe source s head fun _ _ => True :=
  .get fun _ => attributeSections_safe.bind fun _ _ _ _ _ =>
    .andThen modifiers_safe fun _ _ _ _ _ => .pure ⟨⟩

theorem expressionThenSemicolon_safe :
    Parser.Safe source s expressionThenSemicolon fun _ _ => True :=
  expression_safe.bind fun _ _ _ _ _ => expectMark_safe.discard.bind fun _ _ _ _ _ => .pure ⟨⟩

theorem body_safe : Parser.Safe source s body fun _ _ => True := by
  refine .get fun _ => ?_
  split
  · exact .andThen skipGroup_safe fun _ _ _ _ _ => .get fun _ => .pure ⟨⟩
  refine .andThen eatMark_safe fun _ _ _ _ _ => ?_
  split
  · exact expressionThenSemicolon_safe.bind fun _ _ _ _ _ => .pure ⟨⟩
  refine .andThen eatMark_safe fun _ _ _ _ _ => ?_
  split
  · exact .pure ⟨⟩
  · exact failAt_safe

theorem typeParameter_safe : Parser.Safe source s typeParameter fun _ _ => True := by
  refine .get fun _ => attributeSections_safe.bind fun _ _ _ _ _ => .get fun _ => ?_
  refine .join (R := fun _ _ => True) (fun _ => .map (.lift (word_safe.mono fun _ _ _ => ⟨⟩)))
    (fun _ => .pure ⟨⟩) fun _ _ _ _ _ => ?_
  exact ident_safe.bind fun _ _ _ _ _ => .get fun _ => .pure ⟨⟩

theorem typeParameters_safe : Parser.Safe source s typeParameters fun _ _ => True := by
  refine .andThen eatMark_safe fun _ _ _ _ _ => ?_
  split
  · refine (commaSeparated_safe fun _ _ _ => typeParameter_safe).bind fun _ _ _ _ _ => ?_
    exact expectMark_safe.discard.bind fun _ _ _ _ _ => .pure ⟨⟩
  · exact .pure ⟨⟩

theorem constraintStep_safe : Reader.Safe source s constraintStep Round.Consumes := by
  refine .get fun hg => ?_
  split
  · exact .pure ⟨⟩
  · rename_i hc
    have hne : s.after ≠ [] := hg.after_ne_nil fun h => hc (by
      simp [isAtConstraintEnd, isAtEof, isAt, h])
    exact skipGroup_safe.bind fun _ _ _ _ hk => .pure ⟨⟨⟩, by have := hk hne; omega⟩

theorem constraintClause_safe (h : s.peek.isContextual "where" = true) :
    Parser.Safe source s constraintClause fun _ k => 0 < k := by
  have hne : s.peek.kind ≠ .eof := fun heof => by simp [Token.isContextual, heof] at h
  refine .get fun _ => (Parser.Safe.lift (advance_consumes hne)).discard.bind fun _ _ _ _ _ => ?_
  refine ident_safe.bind fun _ _ _ _ _ => expectMark_safe.discard.bind fun _ _ _ _ _ => ?_
  refine .get fun hg => ?_
  refine .andThen (.loop_consumes fun _ _ _ _ => constraintStep_safe) fun _ _ _ _ _ => .get fun _ => ?_
  split
  · exact failAt_safe
  · exact .andThen (textFrom_safe hg.peek_inside) fun _ _ _ _ _ => .pure (by omega)

theorem constraintClauses_safe : Parser.Safe source s constraintClauses fun _ _ => True :=
  whileAt_safe fun _ _ _ _ h => constraintClause_safe h

theorem accessor_safe : Parser.Safe source s accessor fun _ k => 0 < k :=
  head_safe.bind fun _ _ _ _ _ => ident_safe.bind fun _ _ _ _ _ =>
    body_safe.bind fun _ _ _ _ _ => .get fun _ => .pure (by omega)

theorem accessorsOrExpression_safe :
    Parser.Safe source s accessorsOrExpression fun _ _ => True := by
  refine .andThen eatMark_safe fun _ _ _ _ _ => ?_
  split
  · exact expressionThenSemicolon_safe.bind fun _ _ _ _ _ => .pure ⟨⟩
  · refine expectMark_safe.discard.bind fun _ _ _ _ _ => ?_
    refine (whileAt_safe fun _ _ _ _ _ => accessor_safe).bind fun _ _ _ _ _ => ?_
    exact expectMark_safe.discard.bind fun _ _ _ _ _ => .pure ⟨⟩

/-- Does a qualifier that begins at `start` end in the text, and not before it
    begins? -/
def Qualifier.EndsIn (source : List Char) (start : Span) (q : Qualifier) : Prop :=
  Boundary source q.stop ∧ start.offset ≤ q.stop

theorem memberNameStep_safe {s₀ : ParserState} (hg : s₀.Good source) {k : Nat} (h : Moves k s₀ s)
    {q : Qualifier} (hq : q.EndsIn source s₀.peek.span) :
    Parser.Safe source s (memberNameStep s₀.peek.span q)
      (Round.Holds (fun q _ => q.EndsIn source s₀.peek.span) (fun _ k => 0 < k) k) := by
  refine ident_safe.bind fun _ _ s₁ h₁ hi => .get fun _ => .ite (fun _ => ?_) fun _ => ?_
  · refine .join (R := fun _ _ => True) (fun _ => typeArguments_safe) (fun _ => .pure ⟨⟩)
      fun _ _ s₂ h₂ _ => .get fun hg₂ => ?_
    refine (Parser.Safe.lift advance_passes).discard.bind fun _ _ _ _ _ => .pure ⟨⟨?_, ?_⟩, ?_⟩
    · exact hg₂.previous_inside.2
    · exact hg.offset_le_stop ((h.trans h₁).trans h₂) (by omega)
    · omega
  have hpos := hi.2
  refine .ite (fun _ => .pure (show 0 < k + (_ + 0) by omega)) fun _ => ?_
  · obtain ⟨hstop, hle⟩ := hq
    refine .andThen (textBetween_safe hg.peek_inside.1 hstop hle) fun _ m _ _ _ => .pure ?_
    exact show 0 < k + (_ + (m + 0)) by omega

theorem memberName_safe : Parser.Safe source s memberName fun _ k => 0 < k :=
  .get fun hg => .loop ⟨hg.peek_inside.1, Nat.le_refl _⟩ fun _ _ _ hk hq =>
    memberNameStep_safe hg hk hq

theorem declaratorAfter_safe {vs : List Variable} {name : Ident} :
    Parser.Safe source s (declaratorAfter vs name) Round.Consumes := by
  refine .get fun _ => .after (R := fun _ => True)
    (fun _ => .lift (skipGroup_safe.mono fun _ _ _ => ⟨⟩)) (fun _ => ⟨⟩) fun _ _ _ _ => ?_
  refine initializer?_safe.bind fun _ _ _ _ _ => .get fun _ => ?_
  refine .andThen eatMark_safe fun _ _ _ _ _ => ?_
  split
  · exact ident_safe.bind fun _ _ _ _ _ => .pure ⟨⟨⟩, by omega⟩
  · exact .pure ⟨⟩

theorem declarators_safe {name : Ident} : Parser.Safe source s (declarators name) fun _ _ => True :=
  (Parser.Safe.loop_consumes fun _ _ _ _ => declaratorAfter_safe).bind fun _ _ _ _ _ =>
    expectMark_safe.discard.bind fun _ _ _ _ _ => .pure ⟨⟩

/-! ## Members -/

section
variable {head : Head}

theorem delegate_safe : Parser.Safe source s (delegate head) fun d k =>
    IsWord d.name.name .identifier ∧ 0 < k :=
  expectWord_safe.discard.bind fun _ _ _ _ _ => type_safe.bind fun _ _ _ _ _ =>
    ident_safe.bind fun _ _ _ _ hi => typeParameters_safe.bind fun _ _ _ _ _ =>
      parameters_safe.bind fun _ _ _ _ _ => constraintClauses_safe.bind fun _ _ _ _ _ =>
        expectMark_safe.discard.bind fun _ _ _ _ _ => .get fun _ => .pure ⟨hi.1, by omega⟩

theorem specialFrom_safe {kind : SpecialKind} {parameters : List Parameter} :
    Parser.Safe source s (specialFrom head kind parameters) fun m _ => m.IsWorded :=
  .get fun _ => .pure (.other nofun nofun)

theorem special_safe {kind : SpecialKind} :
    Parser.Safe source s (special head kind) fun m _ => m.IsWorded :=
  parameters_safe.bind fun _ _ _ _ _ => body_safe.discard.bind fun _ _ _ _ _ => specialFrom_safe

theorem destructor_safe : Parser.Safe source s (destructor head) fun m k => m.IsWorded ∧ 0 < k :=
  expectMark_safe.discard.bind fun _ _ _ _ _ =>
    (ident_safe.mono fun _ _ hi => hi.2).discard.bind fun _ _ _ _ _ =>
      special_safe.mono fun _ _ hm => ⟨hm, by omega⟩

theorem conversionOperator_safe :
    Parser.Safe source s (conversionOperator head) fun m k => m.IsWorded ∧ 0 < k :=
  (Parser.Safe.lift advance_passes).discard.bind fun _ _ _ _ _ =>
    expectWord_safe.discard.bind fun _ _ _ _ _ =>
      type_safe.discard.bind fun _ _ _ _ _ => special_safe.mono fun _ _ hm => ⟨hm, by omega⟩

theorem operator_safe : Parser.Safe source s (operator head) fun m _ => m.IsWorded :=
  .get fun _ => .andThen (advanceBy_safe (List.takeWhile_prefix _).length_le)
    fun _ _ _ _ _ => special_safe

theorem indexer_safe : Parser.Safe source s (indexer head) fun m k => m.IsWorded ∧ 0 < k :=
  expectWord_safe.discard.bind fun _ _ _ _ _ => parametersBetween_safe.bind fun _ _ _ _ _ =>
    accessorsOrExpression_safe.discard.bind fun _ _ _ _ _ =>
      specialFrom_safe.mono fun _ _ hm => ⟨hm, by omega⟩

theorem event_safe : Parser.Safe source s (event head) fun m k => m.IsWorded ∧ 0 < k := by
  refine expectWord_safe.discard.bind fun _ _ _ _ _ => type_safe.bind fun _ _ _ _ _ => ?_
  refine memberName_safe.bind fun _ _ _ _ _ => .get fun _ => ?_
  dsimp only
  split
  · refine accessorsOrExpression_safe.bind fun _ _ _ _ _ => ?_
    exact .bind (R := fun _ _ => True) (.pure ⟨⟩) fun _ _ _ _ _ => .get fun _ =>
      .pure ⟨.other nofun nofun, by omega⟩
  · refine declarators_safe.bind fun _ _ _ _ _ => ?_
    exact .bind (R := fun _ _ => True) (.pure ⟨⟩) fun _ _ _ _ _ => .get fun _ =>
      .pure ⟨.other nofun nofun, by omega⟩

theorem constructor_safe :
    Parser.Safe source s (constructor head) fun m k => m.IsWorded ∧ 0 < k := by
  refine ident_safe.bind fun _ _ _ _ _ => parameters_safe.bind fun _ _ _ _ _ => ?_
  refine .andThen eatMark_safe fun _ _ _ _ _ => ?_
  refine .join (R := fun _ _ => True) (fun _ => .map expression_safe) (fun _ => .pure ⟨⟩)
    fun _ _ _ _ _ => ?_
  exact body_safe.bind fun _ _ _ _ _ => .get fun _ => .pure ⟨.other nofun nofun, by omega⟩

theorem method_safe {returnType : TypeSyntax} {explicitInterface? : Option Name} {name : Ident} :
    Parser.Safe source s (method head returnType explicitInterface? name) fun m _ => m.IsWorded :=
  typeParameters_safe.bind fun _ _ _ _ _ => parameters_safe.bind fun _ _ _ _ _ =>
    constraintClauses_safe.bind fun _ _ _ _ _ => body_safe.bind fun _ _ _ _ _ =>
      .get fun _ => .pure (.other nofun nofun)

theorem property_safe {type : TypeSyntax} {explicitInterface? : Option Name} {name : Ident} :
    Parser.Safe source s (property head type explicitInterface? name) fun m _ => m.IsWorded := by
  refine accessorsOrExpression_safe.bind fun _ _ _ _ _ => ?_
  dsimp only
  split
  · refine .andThen eatMark_safe fun _ _ _ _ _ => ?_
    refine .join (R := fun _ _ => True) (fun _ => .map expressionThenSemicolon_safe)
      (fun _ => .pure ⟨⟩)
      fun _ _ _ _ _ => .get fun _ => .pure (.other nofun nofun)
  · exact .bind (R := fun _ _ => True) (.pure ⟨⟩) fun _ _ _ _ _ => .get fun _ => .pure (.other nofun nofun)

theorem field_safe {type : TypeSyntax} {name : Ident} :
    Parser.Safe source s (field head type name) fun m _ => m.IsWorded :=
  declarators_safe.bind fun _ _ _ _ _ => .get fun _ => .pure (.other nofun nofun)

theorem typedMember_safe {type : TypeSyntax} :
    Parser.Safe source s (typedMember head type) fun m k => m.IsWorded ∧ 0 < k := by
  refine .andThen eatWord_safe fun _ _ _ _ hk => ?_
  split
  · have hpos := hk ‹_›
    exact operator_safe.mono fun _ _ hm => ⟨hm, by omega⟩
  refine .get fun _ => ?_
  split
  · exact indexer_safe.mono fun _ _ hm => ⟨hm.1, by omega⟩
  refine memberName_safe.bind fun _ _ _ _ _ => .get fun _ => ?_
  split
  · exact method_safe.mono fun _ _ hm => ⟨hm, by omega⟩
  split
  · exact property_safe.mono fun _ _ hm => ⟨hm, by omega⟩
  split
  · exact field_safe.mono fun _ _ hm => ⟨hm, by omega⟩
  · exact failAt_safe

theorem memberAfter_safe : Parser.Safe source s (memberAfter head) fun m k => m.IsWorded ∧ 0 < k := by
  refine .get fun _ => ?_
  split
  case h_1 => exact delegate_safe.bind fun _ _ _ _ hd => .pure ⟨.delegate hd.1, by omega⟩
  case h_2 => exact destructor_safe
  case h_3 => exact event_safe
  case h_4 | h_5 => exact conversionOperator_safe
  case h_6 =>
    split
    · exact constructor_safe
    · exact type_safe.bind fun _ _ _ _ _ => typedMember_safe.mono fun _ _ hm => ⟨hm.1, by omega⟩
  case h_7 => exact type_safe.bind fun _ _ _ _ _ => typedMember_safe.mono fun _ _ hm => ⟨hm.1, by omega⟩

end

theorem enumMember_safe : Parser.Safe source s enumMember fun _ _ => True :=
  .get fun _ => attributeSections_safe.bind fun _ _ _ _ _ => ident_safe.bind fun _ _ _ _ _ =>
    initializer?_safe.bind fun _ _ _ _ _ => .get fun _ => .pure ⟨⟩

end Parser

end CommandModules

/-
  Command modules — modifiers, parameters and members leave no mark open.

  * `constraintClause_turns`: what a constraint clause passes over is a passage of the
    tokens;
  * `operator_turns`: and so is what is between the word `operator` and the parameters;
  * `memberName_turns`: the token behind type arguments that qualify a name is a dot, for
    they have the length that was seen ahead;
  * `memberAfter_turns`: a member that is no type leaves no mark open.
-/
import CommandModules.Proofs.Balance.Type

namespace CommandModules

open ParserState

namespace Parser

variable {source : List Char} {s : ParserState} {marks : List Punct}

/-! ## Modifiers and parameters -/

theorem isWord_of_isChain {u : Token} {ts : List Token} (h : (ts ++ [u]).IsChain CanModify) :
    ∀ t ∈ ts, t.kind.isWord = true := by
  induction ts with
  | nil => simp
  | cons t ts ih =>
    obtain ⟨hhead, hchain⟩ := List.isChain_cons.1 (List.cons_append ▸ h)
    obtain ⟨v, hv⟩ : ∃ v, (ts ++ [u]).head? = some v :=
      Option.isSome_iff_exists.1 (List.isSome_head?.2 (by simp))
    exact List.forall_mem_cons.2 ⟨(hhead v hv).isWord, ih hchain⟩

theorem modifiers_turns : Reader.Turns source s modifiers marks marks :=
  .of_nested (modifiers_gives.mono fun _ _ _ hm =>
    .of_forall fun t ht => isFlat_of_isWord (isWord_of_isChain hm.canModify t ht))

theorem head_turns : Parser.Turns source s head marks marks :=
  .get fun _ => attributeSections_turns.bind fun _ _ _ _ =>
    .andThen modifiers_turns fun _ _ _ _ => .pure

theorem isAtParameterModifier_isFlat (h : isAtParameterModifier s = true) :
    s.peek.isFlat = true := by
  refine Token.isFlat_of_kind fun p hp => ?_
  simp [isAtParameterModifier, hp] at h

theorem parameterModifiers_turns : Parser.Turns source s parameterModifiers marks marks := by
  refine .bind (whileAt_turns (fun _ _ _ _ h => ?_) fun _ _ _ h => ?_) fun _ _ _ _ => .pure
  · exact .lift ((word_consumes (isAtParameterModifier_ne_eof h)).mono fun _ _ hw => hw.2)
  · exact .lift (word_turns (isAtParameterModifier_isFlat h))

theorem parameter_turns : Parser.Turns source s parameter marks marks :=
  .get fun _ => attributeSections_turns.bind fun _ _ _ _ =>
    parameterModifiers_turns.bind fun _ _ _ _ => type_turns.bind fun _ _ _ _ =>
      ident_turns.bind fun _ _ _ _ => initializer?_turns.bind fun _ _ _ _ =>
        .get fun _ => .pure

theorem parametersBetween_turns {opener closer : Punct} (ho : opener.isOpener = true)
    (hc : opener.closer = closer) :
    Parser.Turns source s (parametersBetween opener closer) marks marks := by
  refine .get fun _ => ?_
  split
  · refine (Parser.Turns.lift (advance_opens ‹_› ho)).discard.bind fun _ _ _ _ => .get fun _ => ?_
    refine .join (fun _ => .pure) (fun _ => ?_) fun _ _ _ _ =>
      (expectMark_closes hc).discard.bind fun _ _ _ _ => .pure
    exact commaSeparated_turns (fun _ _ _ => parameter_safe) fun _ _ _ => parameter_turns
  · exact failAt_turns

theorem parameters_turns : Parser.Turns source s parameters marks marks :=
  parametersBetween_turns (by decide) rfl

/-! ## Parts of members -/

theorem expressionThenSemicolon_turns :
    Parser.Turns source s expressionThenSemicolon marks marks :=
  expression_turns.bind fun _ _ _ _ =>
    (expectMark_turns (by decide)).discard.bind fun _ _ _ _ => .pure

theorem body_turns : Parser.Turns source s body marks marks := by
  refine .get fun _ => ?_
  split
  · exact .andThen (skipGroup_turns_at ‹_› (by decide)) fun _ _ _ _ => .get fun _ => .pure
  · refine .andThen (eatMark_turns (by decide)) fun _ _ _ _ => ?_
    split
    · exact expressionThenSemicolon_turns.bind fun _ _ _ _ => .pure
    · refine .andThen (eatMark_turns (by decide)) fun _ _ _ _ => ?_
      split
      · exact .pure
      · exact failAt_turns

theorem typeParameter_turns : Parser.Turns source s typeParameter marks marks := by
  refine .get fun _ => attributeSections_turns.bind fun _ _ s₁ _ => .get fun _ => ?_
  refine .join (fun hk => .map (.lift (word_turns ?_))) (fun _ => .pure)
    fun _ _ _ _ => ident_turns.bind fun _ _ _ _ => .get fun _ => .pure
  rcases hk with hk | hk <;> simp [Token.isFlat, hk]

theorem typeParameters_turns : Parser.Turns source s typeParameters marks marks := by
  refine .andThen (eatMark_turns (by decide)) fun _ _ _ _ => ?_
  split
  · refine (commaSeparated_turns (fun _ _ _ => typeParameter_safe)
      fun _ _ _ => typeParameter_turns).bind fun _ _ _ _ => ?_
    exact (expectMark_turns (by decide)).discard.bind fun _ _ _ _ => .pure
  · exact .pure

/-! ## Constraint clauses -/

/-- A constraint clause goes on to the token that ends it. -/
theorem constraintTokens_gives : Reader.Gives source s constraintTokens fun _ ts _ =>
    ts = upTo endsConstraint [] s.after := by
  refine .loop (I := fun _ ts s' => ts ++ upTo endsConstraint [] s'.after =
    upTo endsConstraint [] s.after) (fun _ _ _ _ => constraintStep_safe) rfl
    fun _ ts s' _ => .get fun _ _ => ?_
  split
  · rename_i hend
    refine .pure fun hI => ?_
    have hnone : upTo endsConstraint [] s'.after = [] := upTo_of_stop hend
    rwa [hnone] at hI
  · rename_i hend
    have hgo : endsConstraint s'.peek = false := Bool.eq_false_iff.2 hend
    refine (skipGroup_upTo hgo).bind fun _ us s'' _ => .pure fun hu hI => ?_
    rw [List.append_nil]
    exact (List.append_assoc ..).trans (hu ▸ hI)

/-- What is behind the colon of a constraint clause is a passage of the tokens. -/
theorem constraintClause_turns (h : s.peek.isContextual "where" = true) :
    Parser.Turns source s constraintClause marks marks := fun ht => by
  have hword : s.peek.kind = .identifier := beq_iff_eq.1 (Bool.and_eq_true_iff.1 h).1
  refine Parser.Gives.mono (R := fun _ ts _ => Nested ts) ?_ fun _ _ _ hts => hts.openBehind
  refine .get fun _ _ => (Parser.Gives.lift (advance_takes_one (by simp [hword]))).discard.bind
    fun _ ts s₁ h₁ => ident_gives.bind fun _ us s₂ h₂ => expectMark_gives.discard.bind
      fun _ vs s₃ h₃ => .get fun hg₃ _ => .andThen constraintTokens_gives fun _ ws _ _ =>
        .get fun _ _ => ?_
  split
  · exact failAt_gives
  refine .andThen (.of_safe (textFrom_safe hg₃.peek_inside)) fun _ xs _ _ =>
    .pure fun hx hw hv hu hts => ?_
  obtain rfl : xs = [] := List.eq_nil_of_length_eq_zero hx
  have hnested : Nested (upTo endsConstraint [] s₃.after) := by
    obtain ⟨i, rfl, hi⟩ := hu.2
    obtain ⟨c, rfl, hc⟩ := hv
    have hpassage := ht.nested_after
    rw [h₁.after_eq, hts, h₂.after_eq, h₃.after_eq] at hpassage
    rwa [List.singleton_append, passage_constraint h (by simp [startsConstraint, hi, hc])]
      at hpassage
  simp only [List.append_nil, hts, hw]
  exact .cons (isFlat_of_isWord (by simp [hword, TokenKind.isWord, TokenKind.isIdentifier]))
    ((hu.2.nested (by simp)).append ((hv.nested_mark (by decide)).append hnested))

theorem constraintClauses_turns : Parser.Turns source s constraintClauses marks marks :=
  whileAt_turns (fun _ _ _ _ h => constraintClause_safe h) fun _ _ _ h => constraintClause_turns h

/-! ## Names and variables of members -/

theorem accessor_turns : Parser.Turns source s accessor marks marks :=
  head_turns.bind fun _ _ _ _ => ident_turns.bind fun _ _ _ _ =>
    body_turns.bind fun _ _ _ _ => .get fun _ => .pure

theorem accessorsOrExpression_turns :
    Parser.Turns source s accessorsOrExpression marks marks := by
  refine .andThen (eatMark_turns (by decide)) fun _ _ _ _ => ?_
  split
  · exact expressionThenSemicolon_turns.bind fun _ _ _ _ => .pure
  refine (expectMark_opens (by decide)).discard.bind fun _ _ _ _ => ?_
  refine (whileAt_turns (fun _ _ _ _ _ => accessor_safe) fun _ _ _ _ => accessor_turns).bind
    fun _ _ _ _ => ?_
  exact (expectMark_closes (o := .leftBrace) rfl).discard.bind fun _ _ _ _ => .pure

/-- The token behind those that were taken. -/
theorem peekAt_length {ts : List Token} {s' : ParserState} (h : Takes ts s s') :
    s.peekAt ts.length = s'.peek := by
  rw [peekAt, h.after_eq, List.getElem?_append_right (Nat.le_refl _), Nat.sub_self, peek,
    h.moves.eof_eq, List.head?_eq_getElem?]

/-- Behind type arguments that qualify a name stands the dot that was seen ahead. -/
theorem memberNameStep_turns {s₀ : ParserState} (hg : s₀.Good source) {q : Qualifier}
    (hq : q.EndsIn source s₀.peek.span) :
    Parser.Turns source s (memberNameStep s₀.peek.span q) marks marks := by
  refine .of_nested ?_
  refine ident_gives.bind fun _ ts s₁ h₁ => .get fun _ _ => .ite (fun hc => ?_) fun _ => ?_
  · have plain (hdot : s₁.isAtMark .dot = true) {β : Type} {f : ParserState → β} :
        Parser.Gives source s₁ (do let s ← get; discard (liftM advance); return f s) fun _ us _ =>
          Nested us := by
      refine .get fun _ _ => (Parser.Gives.lift advance_takes_most).discard.bind
        fun _ vs _ _ => .pure fun hv => ?_
      exact List.append_nil _ ▸ nested_of_most hv (by simp [Token.isFlat, beq_iff_eq.1 hdot]; decide)
    dsimp only
    split
    · rename_i n hn
      split
      · rename_i hargs
        refine typeArguments_gives.bind fun _ us s₂ h₂ => .get fun _ _ => ?_
        refine (Parser.Gives.lift advance_takes_most).discard.bind fun _ vs _ _ =>
          .pure fun hv hu hi => ?_
        obtain rfl : n = us.length := by
          rw [h₂.after_eq, hu.2 s₂.after] at hn
          exact (Option.some_inj.1 hn).symm
        have hdot : s₂.peek.kind = .punct .dot := peekAt_length h₂ ▸ beq_iff_eq.1 hargs
        rw [List.append_nil]
        exact (hi.2.nested (by simp)).append (hu.1.nested.append
          (nested_of_most hv (by simp [Token.isFlat, hdot]; decide)))
      · rename_i hargs
        rw [pure_bind]
        exact (plain (by simpa [hn, hargs] using hc)).mono fun _ _ _ hv hi =>
          (hi.2.nested (by simp)).append hv
    · rename_i hn
      rw [if_neg (by simp), pure_bind]
      exact (plain (by simpa [hn] using hc)).mono fun _ _ _ hv hi => (hi.2.nested (by simp)).append hv
  · refine .ite (fun _ => .pure fun hi => ?_) fun _ => ?_
    · exact List.append_nil _ ▸ hi.2.nested (by simp)
    · refine .andThen (.of_safe (textBetween_safe hg.peek_inside.1 hq.1 hq.2)) fun _ us _ _ =>
        .pure fun hu hi => ?_
      obtain rfl : us = [] := List.eq_nil_of_length_eq_zero hu
      exact List.append_nil _ ▸ hi.2.nested (by simp)

theorem memberName_turns : Parser.Turns source s memberName marks marks :=
  .get fun hg => .loop_safe ⟨hg.peek_inside.1, Nat.le_refl _⟩
    (fun _ _ _ hk hq => memberNameStep_safe hg hk hq)
    fun _ _ _ _ hq => memberNameStep_turns hg hq

theorem declaratorAfter_turns {vs : List Variable} {name : Ident} :
    Parser.Turns source s (declaratorAfter vs name) marks marks := by
  refine .get fun _ => .after (fun hb => .lift (skipGroup_turns_at hb (by decide))) fun _ _ _ => ?_
  refine initializer?_turns.bind fun _ _ _ _ => .get fun _ => ?_
  refine .andThen (eatMark_turns (by decide)) fun _ _ _ _ => ?_
  split
  · exact ident_turns.bind fun _ _ _ _ => .pure
  · exact .pure

theorem declarators_turns {name : Ident} : Parser.Turns source s (declarators name) marks marks :=
  (Parser.Turns.loop (fun _ _ _ _ => declaratorAfter_safe)
    fun _ _ _ _ => declaratorAfter_turns).bind fun _ _ _ _ =>
      (expectMark_turns (by decide)).discard.bind fun _ _ _ _ => .pure

/-! ## Members -/

section
variable {head : Head}

theorem delegate_turns : Parser.Turns source s (delegate head) marks marks :=
  expectWord_turns.discard.bind fun _ _ _ _ => type_turns.bind fun _ _ _ _ =>
    ident_turns.bind fun _ _ _ _ => typeParameters_turns.bind fun _ _ _ _ =>
      parameters_turns.bind fun _ _ _ _ => constraintClauses_turns.bind fun _ _ _ _ =>
        (expectMark_turns (by decide)).discard.bind fun _ _ _ _ => .get fun _ => .pure

theorem specialFrom_turns {kind : SpecialKind} {parameters : List Parameter} :
    Parser.Turns source s (specialFrom head kind parameters) marks marks :=
  .get fun _ => .pure

theorem special_turns {kind : SpecialKind} :
    Parser.Turns source s (special head kind) marks marks :=
  parameters_turns.bind fun _ _ _ _ => body_turns.discard.bind fun _ _ _ _ => specialFrom_turns

theorem destructor_turns : Parser.Turns source s (destructor head) marks marks :=
  (expectMark_turns (by decide)).discard.bind fun _ _ _ _ =>
    ident_turns.discard.bind fun _ _ _ _ => special_turns

theorem conversionOperator_turns (h : s.peek.isFlat = true) :
    Parser.Turns source s (conversionOperator head) marks marks :=
  (Parser.Turns.lift (advance_turns h)).discard.bind fun _ _ _ _ =>
    expectWord_turns.discard.bind fun _ _ _ _ => type_turns.discard.bind fun _ _ _ _ =>
      special_turns

theorem indexer_turns : Parser.Turns source s (indexer head) marks marks :=
  expectWord_turns.discard.bind fun _ _ _ _ => (parametersBetween_turns (by decide) rfl).bind
    fun _ _ _ _ => accessorsOrExpression_turns.discard.bind fun _ _ _ _ => specialFrom_turns

theorem event_turns : Parser.Turns source s (event head) marks marks := by
  refine expectWord_turns.discard.bind fun _ _ _ _ => type_turns.bind fun _ _ _ _ => ?_
  refine memberName_turns.bind fun _ _ _ _ => .get fun _ => ?_
  dsimp only
  split
  · exact accessorsOrExpression_turns.bind fun _ _ _ _ => .bind .pure fun _ _ _ _ =>
      .get fun _ => .pure
  · exact declarators_turns.bind fun _ _ _ _ => .bind .pure fun _ _ _ _ => .get fun _ => .pure

/-- What is between the word `operator` and the parameters is a passage of the tokens. -/
theorem operator_turns {t : Token} (ht : s.before.head? = some t)
    (hk : t.kind = .keyword .operator) : Parser.Turns source s (operator head) marks marks := by
  refine .get fun _ => .andThen (fun hs => ?_) fun _ _ _ _ => special_turns
  refine (advanceBy_gives (List.takeWhile_prefix _).length_le).mono fun _ ts _ hts => ?_
  have hpassage := hs.nested_before ht
  rw [passage_operator hk, List.prefix_iff_eq_take.1 (List.takeWhile_prefix _)] at hpassage
  exact hts ▸ hpassage.openBehind

theorem constructor_turns : Parser.Turns source s (constructor head) marks marks := by
  refine ident_turns.bind fun _ _ _ _ => parameters_turns.bind fun _ _ _ _ => ?_
  refine .andThen (eatMark_turns (by decide)) fun _ _ _ _ => ?_
  refine .join (fun _ => .map expression_turns) (fun _ => .pure) fun _ _ _ _ => ?_
  exact body_turns.bind fun _ _ _ _ => .get fun _ => .pure

theorem method_turns {returnType : TypeSyntax} {explicitInterface? : Option Name} {name : Ident} :
    Parser.Turns source s (method head returnType explicitInterface? name) marks marks :=
  typeParameters_turns.bind fun _ _ _ _ => parameters_turns.bind fun _ _ _ _ =>
    constraintClauses_turns.bind fun _ _ _ _ => body_turns.bind fun _ _ _ _ =>
      .get fun _ => .pure

theorem property_turns {type : TypeSyntax} {explicitInterface? : Option Name} {name : Ident} :
    Parser.Turns source s (property head type explicitInterface? name) marks marks := by
  refine accessorsOrExpression_turns.bind fun _ _ _ _ => ?_
  dsimp only
  split
  · refine .andThen (eatMark_turns (by decide)) fun _ _ _ _ => ?_
    exact .join (fun _ => .map expressionThenSemicolon_turns) (fun _ => .pure)
      fun _ _ _ _ => .get fun _ => .pure
  · exact .bind .pure fun _ _ _ _ => .get fun _ => .pure

theorem field_turns {type : TypeSyntax} {name : Ident} :
    Parser.Turns source s (field head type name) marks marks :=
  declarators_turns.bind fun _ _ _ _ => .get fun _ => .pure

theorem typedMember_turns {type : TypeSyntax} :
    Parser.Turns source s (typedMember head type) marks marks := by
  refine .bind_safe (.lift eatWord_takes) (.lift eatWord_turns) fun _ ts s₁ h₁ hb => ?_
  split
  · obtain ⟨hlen, hword⟩ := hb ‹_›
    obtain ⟨t, rfl⟩ := List.length_eq_one_iff.1 hlen
    refine operator_turns (by simp [h₁.before_eq]) (t := t) ?_
    simpa [isAt, peek, h₁.after_eq] using hword
  refine .get fun _ => ?_
  split
  · exact indexer_turns
  refine memberName_turns.bind fun _ _ _ _ => .get fun _ => ?_
  split
  · exact method_turns
  split
  · exact property_turns
  split
  · exact field_turns
  · exact failAt_turns

/-- **A member that is no type leaves no mark open.** -/
theorem memberAfter_turns : Parser.Turns source s (memberAfter head) marks marks := by
  refine .get fun _ => ?_
  split
  case h_1 => exact delegate_turns.bind fun _ _ _ _ => .pure
  case h_2 => exact destructor_turns
  case h_3 => exact event_turns
  case h_4 hk | h_5 hk => exact conversionOperator_turns (by simp [Token.isFlat, hk])
  case h_6 =>
    split
    · exact constructor_turns
    · exact type_turns.bind fun _ _ _ _ => typedMember_turns
  case h_7 => exact type_turns.bind fun _ _ _ _ => typedMember_turns

theorem enumMember_turns : Parser.Turns source s enumMember marks marks :=
  .get fun _ => attributeSections_turns.bind fun _ _ _ _ => ident_turns.bind fun _ _ _ _ =>
    initializer?_turns.bind fun _ _ _ _ => .get fun _ => .pure

end

end Parser

end CommandModules

/-
  Command modules — expressions and attributes leave no mark open.

  * `expressionStep_turns`: a step through an expression passes over a group, or over type
    arguments, which are a passage of the tokens;
  * `attributeSections_turns`: attributes leave no mark open.
-/
import CommandModules.Proofs.Balance.Rules

namespace CommandModules.Parser

open ParserState

variable {source : List Char} {s : ParserState} {marks : List Punct}

/-! ## Types -/

theorem type_turns : Parser.Turns source s type marks marks :=
  .of_nested (type_gives.mono fun _ _ _ ht => ht.1.nested)

theorem name_turns : Parser.Turns source s name marks marks :=
  .of_nested (name_gives.mono fun _ _ _ ht => ht.nested)

/-! ## Expressions -/

/-- What an expression takes for type arguments is a passage of the tokens. -/
theorem genericArguments?_nested {start k : Nat} (ht : s.IsTidy)
    (h : genericArguments? s start = some k) : Nested (s.after.take k) := by
  unfold genericArguments? at h
  split at h
  · rename_i hname
    obtain ⟨hk, hf⟩ := Option.filter_eq_some_iff.1 h
    obtain ⟨t, hbefore, hkind⟩ := Option.map_eq_some_iff.1
      (beq_iff_eq.1 (Bool.and_eq_true_iff.1 hname).2)
    rw [← passage_arguments hkind hk fun u hu => ?_]
    · exact ht.nested_before hbefore
    · simpa [peekAt, Option.mem_def.1 hu] using hf
  · cases h

theorem expressionStep_turns {terminators : List TokenKind} {start : Nat} :
    Reader.Turns source s (expressionStep terminators start) marks marks := by
  refine .get fun _ => ?_
  split
  · exact .pure
  · rename_i hc
    dsimp only
    split
    · rename_i k hk
      refine .bind (fun ht => ?_) fun _ _ _ _ => .pure
      refine (advanceBy_gives (genericArguments?_le hk).2).mono fun _ ts _ hts => ?_
      rw [hts]
      exact (genericArguments?_nested ht hk).openBehind
    · refine (skipGroup_turns fun p hp => ?_).bind fun _ _ _ _ => .pure
      by_contra hcl
      exact hc (by simp [hp, endsExpression, hcl])

theorem expression_turns {terminators : List TokenKind} :
    Parser.Turns source s (expression terminators) marks marks := by
  refine .get fun hg => .andThen
    (.loop (fun _ _ _ _ => expressionStep_safe) fun _ _ _ _ => expressionStep_turns)
    fun _ _ _ _ => .get fun _ => ?_
  split
  · exact failAt_turns
  split
  · exact .throw
  · exact .andThen (.of_still (textFrom_safe hg.peek_inside)) fun _ _ _ _ => .pure

theorem initializer?_turns : Parser.Turns source s initializer? marks marks := by
  refine .andThen (eatMark_turns (by decide)) fun _ _ _ _ => ?_
  split
  · exact .map expression_turns
  · exact .pure

/-! ## Attributes -/

/-- A word and the mark behind it. -/
theorem argumentName?_turns {separator : Punct}
    (hm : separator.isOpener = false ∧ separator.isCloser = false) :
    Reader.Turns source s (argumentName? separator) marks marks := by
  refine .get fun _ => ?_
  split
  · rename_i hc
    obtain ⟨hc, -⟩ := Bool.and_eq_true_iff.1 hc
    obtain ⟨hword, hmark⟩ := Bool.and_eq_true_iff.1 hc
    refine readAndAdvance_turns ((word_gives (peek_ne_eof hword nofun)).mono fun _ _ _ hw => ?_)
      (isFlat_of_isAt hword nofun) (by simp [Token.isFlat, beq_iff_eq.1 hmark, hm])
    simp [hw.2]
  · exact .pure

theorem attributeArgument_turns : Reader.Turns source s attributeArgument marks marks := by
  refine .get fun _ => (argumentName?_turns (by decide)).bind fun _ _ _ _ => ?_
  refine .join (fun _ => .pure) (fun _ => argumentName?_turns (by decide)) fun _ _ _ _ => ?_
  exact (orReport_turns expression_safe expression_turns).bind fun _ _ _ _ => .get fun _ => .pure

theorem attributeArguments_turns : Parser.Turns source s attributeArguments marks marks := by
  refine .get fun _ => (expectMark_opens (by decide)).discard.bind fun _ _ _ _ => .get fun _ => ?_
  refine .join (fun _ => .pure) (fun _ => ?_) fun _ _ _ _ =>
    (expectMark_closes (o := .leftParen) rfl).discard.bind fun _ _ _ _ => .get fun _ => .pure
  exact commaSeparated_turns (fun _ _ _ => .lift attributeArgument_safe)
    fun _ _ _ => .lift attributeArgument_turns

theorem attribute_turns : Parser.Turns source s attribute_ marks marks := by
  refine .get fun _ => name_turns.bind fun _ _ _ _ => .get fun _ => ?_
  exact .join (fun _ => .map attributeArguments_turns) (fun _ => .pure)
    fun _ _ _ _ => .get fun _ => .pure

theorem attributeAndComma_turns {as : List Attribute} :
    Parser.Turns source s (attributeAndComma as) marks marks := by
  refine .get fun _ => ?_
  split
  · exact .pure
  · exact itemAndComma_turns attribute_turns

theorem attributeTarget?_turns : Parser.Turns source s attributeTarget? marks marks := by
  refine .get fun _ => ?_
  split
  · rename_i hc
    obtain ⟨hword, hmark⟩ := Bool.and_eq_true_iff.1 hc
    have hne : s.peek.kind ≠ .eof := fun he => by
      simp [he, TokenKind.isIdentifier, TokenKind.isKeyword] at hword
    refine parseAndAdvance_turns (.lift ((word_gives hne).mono fun _ _ _ hw => ?_))
      (isFlat_of_isWord hword) (by simp [Token.isFlat, beq_iff_eq.1 hmark]; decide)
    simp [hw.2]
  · exact .pure

theorem attributeSection_turns : Parser.Turns source s attributeSection marks marks := by
  refine .get fun _ => (expectMark_opens (by decide)).discard.bind fun _ _ _ _ => ?_
  refine attributeTarget?_turns.bind fun _ _ _ _ => ?_
  refine Parser.Turns.bind (.loop (fun _ _ _ _ => attributeAndComma_safe)
    fun _ _ _ _ => attributeAndComma_turns) fun _ _ _ _ => ?_
  exact (expectMark_closes (o := .leftBracket) rfl).discard.bind fun _ _ _ _ => .get fun _ => .pure

theorem attributeSections_turns : Parser.Turns source s attributeSections marks marks :=
  whileAt_turns (fun _ _ _ _ _ => attributeSection_safe.mono fun _ _ h => h.2)
    fun _ _ _ _ => attributeSection_turns

end CommandModules.Parser

/-
  Command modules — attributes before known tokens.

  * `expression_value`: a literal or an identifier before a comma or a parenthesis is read as
    an expression;
  * `attributeSections_reads`: attributes that are written out are read back.
-/
import CommandModules.Proofs.Alike.Basic
import CommandModules.Proofs.Printed.Declaration
import CommandModules.Proofs.Shown.Type

namespace CommandModules

open ParserState

namespace Parser

variable {source : List Char} {s : ParserState} {t u v : Token} {ts rest : List Token}

/-! ## Values -/

theorem skipGroup_accepts (hs : s.Shows (t :: rest)) (ht : ∀ p, t.kind ≠ .punct p) :
    Reader.Accepts source s skipGroup fun _ s' => s'.Shows rest := by
  refine .of_safe skipGroup_safe fun _ => ?_
  have htake := Group.take_erase s.eof [] s.after
  have hbehind : Group.openBehind t [] = ([], []) := by
    unfold Group.openBehind
    split
    · exact absurd ‹_› (ht _)
    · rfl
  rw [hs, Group.take, if_pos (by rw [hbehind]), hbehind] at htake
  obtain ⟨-, hrest, herr⟩ := Group.mk.inj htake
  have herr := List.map_eq_nil_iff.1 herr.symm
  show s.skipGroup.errors = s.errors ∧ s.skipGroup.Shows rest
  exact ⟨by simp [ParserState.skipGroup, herr], hrest.symm⟩

/-- The token is a literal or an identifier. -/
def IsValueToken (t : Token) : Prop :=
  t.kind.isLiteral = true ∨ t.kind = .identifier

theorem IsValueToken.ne_punct (h : IsValueToken t) (p : Punct) : t.kind ≠ .punct p := by
  rcases h with h | h <;> rintro hk <;> rw [hk] at h <;> cases h

theorem expressionTokens_value (hs : s.Shows (t :: v :: rest)) (ht : IsValueToken t)
    (hv : v = markToken .comma ∨ v = markToken .rightParen) :
    Reader.Accepts source s (expressionTokens [.punct .comma] s.place) fun _ s' =>
      s'.Shows (v :: rest) := by
  refine .loop (I := fun _ s' => s' = s ∨ s'.Shows (v :: rest)) (.inl rfl) fun _ s' hI =>
    .get fun _ => ?_
  rcases hI with rfl | hs'
  · have hk := hs.peek_kind
    have hends : endsExpression t.kind = false := by
      rcases ht with h | h
      · cases hkind : t.kind <;> simp_all [endsExpression, TokenKind.isLiteral]
      · simp [h, endsExpression]
    have hcomma : t.kind ≠ .punct .comma := ht.ne_punct .comma
    rw [if_neg (by simp [hk, hends, hcomma])]
    have hargs : genericArguments? s' s'.place = none := by
      simp [genericArguments?, followsName]
    rw [hargs]
    refine (skipGroup_accepts hs ht.ne_punct).bind fun _ s₁ h₁ => .pure ⟨.inr h₁, ?_⟩
    rw [h₁.length_after, hs.length_after]
    simp
  · rw [if_pos]
    · exact .pure hs'
    · rcases hv with rfl | rfl <;> simp [hs'.peek_kind, markToken, endsExpression, Punct.isCloser]

/-- **A literal or an identifier is an expression** before a comma or a parenthesis. -/
theorem expression_value (hs : s.Shows (t :: v :: rest)) (ht : IsValueToken t)
    (hv : v = markToken .comma ∨ v = markToken .rightParen) :
    Parser.Accepts source s (expression [.punct .comma]) fun _ s' => s'.Shows (v :: rest) := by
  refine .get fun hg => (Parser.Passes.lift (expressionTokens_value hs ht hv)).bind_moves
    fun _ k s₁ hk h₁ => .get fun _ => ?_
  have hlen := hk.length_after
  rw [h₁.length_after, hs.length_after, List.length_cons, List.length_cons, List.length_cons] at hlen
  obtain rfl : k = 1 := by omega
  rw [if_neg (by rw [hk.place_eq]; omega)]
  -- the one token that was taken is not malformed
  have hgood : malformed? (s₁.takenSince s.place) = none := by
    obtain ⟨us, hus, hafter, hbefore⟩ := hk.tokens_eq
    obtain ⟨t', rfl⟩ := List.length_eq_one_iff.1 hus
    have htaken : s₁.takenSince s.place = [t'] := by
      rw [takenSince, hk.place_eq, Nat.add_sub_cancel_left, hbefore]
      rfl
    have hkind : t'.kind = t.kind := by
      have := hs.peek_kind
      rw [← this, ParserState.peek, hafter]
      rfl
    rw [htaken]
    rcases ht with h | h
    · cases hl : t.kind <;>
        simp_all [malformed?, cannotStart, cannotEnd, secondOperand?, TokenKind.isLiteral]
    · simp [malformed?, cannotStart, cannotEnd, secondOperand?, hkind, h]
  rw [hgood]
  exact .andThen (textFrom_accepts hg.peek_inside) fun _ s₂ h₂ => .pure (h₂ ▸ h₁)

/-! ## Arguments -/

theorem orReport_accepts {α : Type} {p : Parser α} {R : α → ParserState → Prop}
    (h : Parser.Accepts source s p R) :
    Reader.Accepts source s (orReport p) fun a? s' => ∃ a, a? = some a ∧ R a s' :=
  h.run.bind fun r s' hr => by
    obtain ⟨a, rfl, ha⟩ := hr
    exact .pure ⟨a, rfl, ha⟩

theorem argumentName?_declines {separator : Punct} (h : (s.peekAt 1).kind ≠ .punct separator) :
    Reader.Accepts source s (argumentName? separator) fun i? s' => i? = none ∧ s' = s := by
  refine .get fun _ => ?_
  rw [if_neg (by simp [isAtArgumentName, h])]
  exact .pure ⟨rfl, rfl⟩

theorem attributeArgument_reads {a : AttributeArgument} (ha : a.IsPrintable)
    (hv : v = markToken .comma ∨ v = markToken .rightParen)
    (hs : s.Shows (a.tokens ++ v :: rest)) :
    Reader.Accepts source s attributeArgument fun x s' =>
      erase x = erase a ∧ s'.Shows (v :: rest) := by
  obtain ⟨nameEquals?, nameColon?, expression?, span⟩ := a
  obtain ⟨hname, rfl, e, rfl, t, hspelt, htext, -, ht⟩ := ha
  have hs : s.Shows ((nameEquals?.toList.flatMap fun i => [i.token, markToken .equal]) ++
      t :: v :: rest) := by
    simpa [AttributeArgument.tokens, htext, Spells.tokensOf_eq hspelt] using hs
  have hvalue {s' : ParserState} (hs' : s'.Shows (t :: v :: rest)) :=
    @orReport_accepts source s' _ _ _ (expression_value hs' ht hv)
  refine .get fun _ => ?_
  cases nameEquals? with
  | none =>
    have hs : s.Shows (t :: v :: rest) := hs
    have hnext {p : Punct} (hp : p ≠ .comma ∧ p ≠ .rightParen) : (s.peekAt 1).kind ≠ .punct p := by
      rw [hs.peekAt_kind (n := 1) rfl]
      rcases hv with rfl | rfl <;> simp [markToken, hp.1.symm, hp.2.symm]
    refine (argumentName?_declines (hnext (p := .equal) (by decide))).bind fun i? s₁ h₁ => ?_
    obtain ⟨rfl, rfl⟩ := h₁
    refine (argumentName?_declines (hnext (p := .colon) (by decide))).bind fun i? s₂ h₂ => ?_
    obtain ⟨rfl, rfl⟩ := h₂
    refine (hvalue hs).bind fun x? s₃ h₃ => .get fun _ => .pure ?_
    obtain ⟨x, rfl, h₃⟩ := h₃
    exact ⟨by simp, h₃⟩
  | some i =>
    have hs : s.Shows (i.token :: markToken .equal :: t :: v :: rest) := hs
    have hread : Reader.Accepts source s (argumentName? .equal) fun j? s' =>
        erase j? = some (erase i) ∧ s'.Shows (t :: v :: rest) := by
      refine .get fun _ => ?_
      have hne : t.kind ≠ .punct .equal := IsValueToken.ne_punct ht .equal
      rw [if_pos (by simp [isAtArgumentName, isAt, hs.peek_kind, hs.peekAt_kind (n := 1) rfl,
        hs.peekAt_kind (n := 2) rfl, hne, Ident.token, wordToken, markToken])]
      refine (word_accepts hs).bind fun j s₁ h₁ => ?_
      exact (advance_shows h₁.2).discard.bind fun _ s₂ h₂ =>
        .pure ⟨congrArg some (erase_ident_eq h₁.1), h₂⟩
    refine hread.bind fun j? s₁ h₁ => ?_
    obtain ⟨hj, h₁⟩ := h₁
    rw [if_pos (by rw [← isSome_erase, hj]; rfl)]
    refine Reader.Passes.bind (R := fun k? s' => k? = none ∧ s' = s₁) (.pure ⟨rfl, rfl⟩)
      fun k? s₂ h₂ => ?_
    obtain ⟨rfl, rfl⟩ := h₂
    refine (hvalue h₁).bind fun x? s₃ h₃ => .get fun _ => .pure ?_
    obtain ⟨x, rfl, h₃⟩ := h₃
    exact ⟨by simp [hj], h₃⟩

/-! ## Attributes -/

theorem AttributeArgument.IsPrintable.tokens_begin {a : AttributeArgument} (ha : a.IsPrintable) :
    ∃ t ts, a.tokens = t :: ts ∧ IsValueToken t := by
  obtain ⟨nameEquals?, nameColon?, expression?, span⟩ := a
  obtain ⟨hname, rfl, e, rfl, t, hspelt, htext, -, ht⟩ := ha
  cases nameEquals? with
  | none => exact ⟨t, [], by simp [AttributeArgument.tokens, htext, Spells.tokensOf_eq hspelt], ht⟩
  | some i => exact ⟨_, _, rfl, .inr rfl⟩

theorem attributeArguments_reads {list : AttributeArguments} (hlist : ∀ i ∈ list.items, i.IsPrintable)
    (hs : s.Shows (parenthesized (list.items.map AttributeArgument.tokens) ++ rest)) :
    Parser.Accepts source s attributeArguments fun x s' =>
      erase x = erase list ∧ s'.Shows rest := by
  obtain ⟨items, span⟩ := list
  have hs : s.Shows (markToken .leftParen :: (separated .comma (items.map AttributeArgument.tokens) ++
      markToken .rightParen :: rest)) := by
    simpa [parenthesized] using hs
  refine .get fun _ => (expect_accepts hs rfl).discard.bind fun _ s₁ h₁ => .get fun _ => ?_
  dsimp only
  by_cases hne : items = []
  · subst hne
    have h₁ : s₁.Shows (markToken .rightParen :: rest) := h₁
    rw [if_pos (isAtMark_iff.2 h₁.peek_kind)]
    refine Parser.Passes.bind (R := fun xs s' => xs = [] ∧ s' = s₁) (.pure ⟨rfl, rfl⟩)
      fun xs s₂ h₂ => ?_
    obtain ⟨rfl, rfl⟩ := h₂
    exact (expect_accepts h₁ rfl).discard.bind fun _ s₃ h₃ => .get fun _ => .pure ⟨rfl, h₃⟩
  · have hk : s₁.peek.kind ≠ .punct .rightParen := by
      obtain ⟨i, is, rfl⟩ := List.exists_cons_of_ne_nil hne
      obtain ⟨t, ts, ht, hvalue⟩ :=
        AttributeArgument.IsPrintable.tokens_begin (hlist i List.mem_cons_self)
      obtain ⟨us, hus⟩ := separated_cons .comma i.tokens (is.map AttributeArgument.tokens)
      rw [List.map_cons, hus, ht] at h₁
      rw [ParserState.Shows.peek_kind h₁]
      exact hvalue.ne_punct _
    rw [if_neg (mt isAtMark_iff.1 hk)]
    refine (commaSeparated_accepts (Q := fun x i => erase x = erase i) h₁ hne (by simp [markToken])
      fun i hi v us s' hv hs' => .lift (attributeArgument_reads (hlist i hi) hv hs')).bind
        fun xs s₂ h₂ => ?_
    exact (expect_accepts h₂.2 rfl).discard.bind fun _ s₃ h₃ => .get fun _ =>
      .pure ⟨by simp [erase_eq_of_forall₂ h₂.1], h₃⟩

theorem attribute_reads {a : Attribute} (ha : a.IsPrintable)
    (hv : v = markToken .comma ∨ v = markToken .rightBracket)
    (hs : s.Shows (a.tokens ++ v :: rest)) :
    Parser.Accepts source s attribute_ fun x s' => erase x = erase a ∧ s'.Shows (v :: rest) := by
  obtain ⟨name, arguments?, span⟩ := a
  obtain ⟨hname, hargs⟩ := ha
  rw [Attribute.tokens, List.append_assoc] at hs
  have hend : EndsName ((arguments?.toList.flatMap fun list =>
      parenthesized (list.items.map AttributeArgument.tokens)) ++ v :: rest) := by
    cases arguments? with
    | none => rcases hv with rfl | rfl <;> exact .cons rfl
    | some list => exact .cons rfl
  refine .get fun _ => (name_reads hname.1 hs hend).bind fun n s₁ h₁ => .get fun _ => ?_
  obtain ⟨hn, h₁⟩ := h₁
  dsimp only
  cases arguments? with
  | none =>
    have h₁ : s₁.Shows (v :: rest) := h₁
    rw [if_neg (mt isAtMark_iff.1 (by rw [h₁.peek_kind]; rcases hv with rfl | rfl <;> simp [markToken]))]
    refine Parser.Passes.bind (R := fun x? s' => x? = none ∧ s' = s₁) (.pure ⟨rfl, rfl⟩)
      fun x? s₂ h₂ => .get fun _ => .pure ?_
    obtain ⟨rfl, rfl⟩ := h₂
    exact ⟨by simp [hn], h₁⟩
  | some list =>
    have h₁ : s₁.Shows (parenthesized (list.items.map AttributeArgument.tokens) ++ v :: rest) := by
      simpa using h₁
    rw [if_pos (isAtMark_iff.2 (ParserState.Shows.peek_kind h₁))]
    refine Parser.Passes.bind (R := fun x? s' => erase x? = some (erase list) ∧ s'.Shows (v :: rest))
      (.map ((attributeArguments_reads (hargs list rfl) h₁).mono fun x s₂ h₂ =>
        ⟨congrArg some h₂.1, h₂.2⟩)) fun x? s₂ h₂ => .get fun _ => .pure ?_
    exact ⟨by simp [hn, h₂.1], h₂.2⟩

theorem Attribute.IsPrintable.tokens_begin {a : Attribute} (ha : a.IsPrintable) :
    ∃ t ts, a.tokens = t :: ts ∧ t.kind = .identifier := by
  obtain ⟨t, ts, ht, hk⟩ := ha.name.1.tokens_begin
  exact ⟨t, _, by rw [Attribute.tokens, ht]; rfl, hk⟩

theorem attributeTarget?_declines (h : (s.peek.kind.isIdentifier || s.peek.kind.isKeyword) = false ∨
      (s.peekAt 1).kind ≠ .punct .colon) :
    Parser.Accepts source s attributeTarget? fun i? s' => i? = none ∧ s' = s := by
  refine .get fun _ => ?_
  rw [if_neg (by rcases h with h | h <;> simp [h])]
  exact .pure ⟨rfl, rfl⟩

/-- Behind the name of an attribute stands no colon. -/
theorem Attribute.IsPrintable.second_ne_colon {a : Attribute} (ha : a.IsPrintable)
    (hv : v = markToken .comma ∨ v = markToken .rightBracket)
    (ht : (a.tokens ++ v :: rest)[1]? = some t) : t.kind ≠ .punct .colon := by
  rw [Attribute.tokens, List.append_assoc] at ht
  rcases ha.name.1.tokens_second ht with h | h
  · exact fun hk => by simp [Token.endsType, hk] at h
  · cases hargs : a.arguments? with
    | none =>
      rw [hargs] at h
      obtain rfl : v = t := Option.some_inj.1 h
      rcases hv with rfl | rfl <;> simp [markToken]
    | some list =>
      rw [hargs] at h
      obtain rfl : markToken .leftParen = t := Option.some_inj.1 h
      simp [markToken]

/-- **A section of attributes that is written out is read back.** -/
theorem attributeSection_reads {a : AttributeSection} (ha : a.IsPrintable)
    (hs : s.Shows (a.tokens ++ rest)) :
    Parser.Accepts source s attributeSection fun x s' => erase x = erase a ∧ s'.Shows rest := by
  obtain ⟨target?, attributes, span⟩ := a
  obtain ⟨htarget, hattrs⟩ := ha
  obtain rfl : target? = none := htarget
  have hs : s.Shows (markToken .leftBracket :: (separated .comma (attributes.map Attribute.tokens) ++
      markToken .rightBracket :: rest)) := by
    simpa [AttributeSection.tokens] using hs
  refine .get fun _ => (expect_accepts hs rfl).discard.bind fun _ s₁ h₁ => ?_
  have hend {xs : List Attribute} {s₂ : ParserState} (hxs : erase xs = erase attributes)
      (h₂ : s₂.Shows (markToken .rightBracket :: rest)) : Parser.Accepts source s₂
        (do discard (expectMark .rightBracket)
            return ⟨none, xs, (← get).spanFrom s.peek.span⟩ : Parser AttributeSection)
        fun x s' => erase x = erase (⟨none, attributes, span⟩ : AttributeSection) ∧ s'.Shows rest :=
    (expect_accepts h₂ rfl).discard.bind fun _ s₃ h₃ => .get fun _ => .pure ⟨by simp [hxs], h₃⟩
  cases attributes with
  | nil =>
    have h₁ : s₁.Shows (markToken .rightBracket :: rest) := h₁
    have hk : s₁.peek.kind = .punct .rightBracket := h₁.peek_kind
    refine (attributeTarget?_declines (.inl (by rw [hk]; rfl))).bind fun i? s₂ h₂ => ?_
    obtain ⟨rfl, rfl⟩ := h₂
    have hnone : Parser.Accepts source s₂ (loopOrFail attributeAndComma []) fun xs s' =>
        xs = [] ∧ s' = s₂ := by
      refine .loop (I := fun xs s' => xs = [] ∧ s' = s₂) ⟨rfl, rfl⟩ fun xs s' hI => .get fun _ => ?_
      obtain ⟨rfl, rfl⟩ := hI
      rw [if_pos (isAtMark_iff.2 hk)]
      exact .pure ⟨rfl, rfl⟩
    refine hnone.bind fun xs s₃ h₃ => ?_
    obtain ⟨rfl, rfl⟩ := h₃
    exact hend rfl h₁
  | cons a as =>
    obtain ⟨v, us, heq, hv⟩ := separated_append_cons .comma a.tokens (as.map Attribute.tokens)
      (markToken .rightBracket) rest
    refine .good fun hg => ?_
    have htarget : (s₁.peekAt 1).kind ≠ .punct .colon :=
      ParserState.Shows.peekAt_of (p := (· ≠ .punct .colon)) h₁ hg (fun t ht =>
        Attribute.IsPrintable.second_ne_colon (hattrs a List.mem_cons_self) hv (heq ▸ ht))
        (by simp)
    refine (attributeTarget?_declines (.inr htarget)).bind fun i? s₂ h₂ => ?_
    obtain ⟨rfl, rfl⟩ := h₂
    refine (commaLoop_accepts (Q := fun x a => erase x = erase a) h₁ (by simp) (by simp [markToken])
      (fun b hb v us s' hv hs' => attribute_reads (hattrs b hb) hv hs')
      fun b hb xs us s' hs' R hR => .get fun _ => ?_).bind fun xs s₃ h₃ =>
        hend (erase_eq_of_forall₂ h₃.1) h₃.2
    -- no bracket stands where an attribute begins
    obtain ⟨t, ts, ht, hk⟩ := Attribute.IsPrintable.tokens_begin (hattrs b hb)
    rw [ht] at hs'
    rw [if_neg (mt isAtMark_iff.1 (by rw [ParserState.Shows.peek_kind hs', hk]; simp))]
    exact hR

/-- **Attributes that are written out are read back**, before a token that is no bracket. -/
theorem attributeSections_reads {as : List AttributeSection} (has : ∀ a ∈ as, a.IsPrintable)
    (hr : ∀ t, rest.head? = some t → t.kind ≠ .punct .leftBracket)
    (hs : s.Shows (as.flatMap AttributeSection.tokens ++ rest)) :
    Parser.Accepts source s attributeSections fun xs s' => erase xs = erase as ∧ s'.Shows rest := by
  refine (whileAt_accepts (Q := fun x a => erase x = erase a) hs (by simp [AttributeSection.tokens])
    (fun b hb us s' hs' => ?_) (fun s' hg hs' => ?_)
    fun b hb us s' hs' => attributeSection_reads (has b hb) hs').mono fun xs s' h =>
      ⟨erase_eq_of_forall₂ h.1, h.2⟩
  · exact isAtMark_iff.2 (ParserState.Shows.peek_kind hs')
  · have := hs'.peek_of (p := (· ≠ .punct .leftBracket)) hg hr (by simp)
    simpa using mt isAtMark_iff.1 this

end Parser

end CommandModules

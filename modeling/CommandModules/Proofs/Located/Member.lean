/-
  Command modules — where attributes, parameters and members stand.

  * `attributeSection_locates`: a section of attributes stands where it was read, and so do the
    attributes in it and their arguments;
  * `Parser.Head.Stands`: what precedes a declaration stands before its keyword or type;
  * `constraintClause_locates`: the constraints are cut out behind the colon;
  * `memberName_locates`: the text of what qualifies the name of a member is cut out up to the
    last dot;
  * `memberAfter_locates`: a member that is no type stands from its head on.
-/
import CommandModules.Proofs.Located.Type
import CommandModules.Proofs.Safe.Member

namespace CommandModules

theorem TypeSyntax.Stands.node {source : List Char} {ts : List Token} {t : TypeSyntax} {i j : Nat}
    (h : t.Stands source ts i j) : Node.Stands source ts i j (.typeReference t) :=
  .plain h.1 h.2 ⟨⟩ (.nil h.1.lt.le)

/-- The text from a token to the end of a later one is cut from the source. -/
theorem Excerpt.isCut_to {source : List Char} {ts : List Token} {i k stop : Nat} {t u : Token}
    {text : String} (hk : i ≤ k) (hlast : k + 1 < ts.length) (ht : ts[i]? = some t) (hu : ts[k]? = some u)
    (hstop : stop = u.span.stop) (hle : t.span.offset ≤ stop)
    (h : Text.between? t.span.offset stop source = some text.toList) :
    Excerpt.IsCut source ts ⟨text, { t.span with length := stop - t.span.offset }⟩ := by
  have hcovered : t.span.offset + (stop - t.span.offset) = stop := Nat.add_sub_of_le hle
  refine ⟨i, k + 1, hlast, .through hk ht hu rfl (hcovered.trans hstop), ?_⟩
  rw [Span.sliceChars?_eq, Span.stop, hcovered]
  exact h

namespace Parser

open ParserState Text

variable {source : List Char} {ts : List Token} {s : ParserState}

/-! ## Attributes -/

/-- An argument that was never begun reaches into the token that is found in its place. -/
theorem attributeArgument_locates :
    Reader.Locates source ts s attributeArgument fun a j =>
      ∃ b, b ≤ j + 1 ∧ Node.Stands source ts s.place b (.attributeArgument a) := by
  refine .get fun _ hs => .pass argumentName?_safe fun _ _ s₁ h₁ _ => ?_
  refine .join (R := fun _ _ => True) (fun _ => .pure ⟨⟩)
    (fun _ => (Reader.Locates.of_safe argumentName?_safe).mono fun _ _ _ => ⟨⟩)
    fun _ _ s₂ h₂ _ => ?_
  refine (orReport_locates expression_safe expression_locates).bind fun e? _ s₃ h₃ he =>
    .get fun hg hs₃ => .pure ?_
  have h₁₂ := (h₁.trans h₂).place_le
  have h₂₃ := h₃.place_le
  split
  · rename_i hplace
    have hnone : e? = none := Option.eq_none_iff_forall_ne_some.2 fun e h => by
      have := (he e h).2
      omega
    exact ⟨s.place + 1, by omega, .missing (hs ▸ getElem?_place s) hnone rfl⟩
  · refine ⟨s₃.place, Nat.le_succ _, .plain (hg.covers hs₃ (begins_peek hs) (by omega)) ?_ ⟨⟩
      (.nil (by omega))⟩
    cases e? with
    | some e => exact .one (he e rfl).1
    | none => exact .nil

theorem attributeArguments_locates :
    Parser.Locates source ts s attributeArguments fun l j =>
      InTurn (Node.Stands source ts) s.place j (l.items.map .attributeArgument) := by
  refine .get fun _ _ => .pass expectMark_safe.discard fun _ _ s₁ h₁ _ => .get fun _ _ => ?_
  refine .join (R := fun as j => InTurn (fun a b x => Node.Stands source ts a b (.attributeArgument x))
    s₁.place (j + 1) as) (fun _ => .pure (.nil (Nat.le_succ _))) (fun _ => ?_)
    fun as _ s₂ h₂ has => ?_
  · exact commaSeparated_reaches (Nat.le_refl 1) (fun _ _ _ => .lift attributeArgument_safe)
      fun _ _ _ => .lift attributeArgument_locates
  · have hclose : Parser.Safe source s₂ (expectMark .rightParen) fun _ k => k = 1 :=
      expectMark_one.mono fun _ _ h => h.2.2
    refine .pass hclose.discard fun _ _ s₃ h₃ hk => .get fun _ _ => .pure ?_
    have := h₃.place_eq
    exact (has.widen h₁.place_le (by omega)).map

theorem attribute_locates :
    Parser.Locates source ts s attribute_ fun a j => Node.Stands source ts s.place j (.attribute_ a) := by
  refine .get fun _ hs => name_locates.bind fun name _ s₁ h₁ hname => .get fun _ _ => ?_
  refine .join (R := fun args? j => ∀ l, args? = some l →
    InTurn (Node.Stands source ts) s₁.place j (l.items.map .attributeArgument)) (fun _ => ?_)
    (fun _ => .pure nofun) fun args? _ s₂ h₂ hargs => .get fun hg hs₂ => .pure ?_
  · exact .map (attributeArguments_locates.mono fun l j hl _ h => Option.some_inj.1 h ▸ hl)
  · have := h₂.place_le
    refine .plain (hg.covers hs₂ (begins_peek hs) (by omega)) hname.1 ⟨⟩ ?_
    cases args? with
    | none => exact .nil (by omega)
    | some l => exact (hargs l rfl).widen (by omega) (Nat.le_refl _)

theorem attributeAndComma_locates {as : List Attribute} {i : Nat}
    (has : InTurn (fun a b x => Node.Stands source ts a b (.attribute_ x)) i s.place as) :
    Parser.Locates source ts s (attributeAndComma as)
      (Round.Located (fun as j => InTurn (fun a b x => Node.Stands source ts a b (.attribute_ x)) i j as)
        fun as j => InTurn (fun a b x => Node.Stands source ts a b (.attribute_ x)) i j as) := by
  refine .get fun _ _ => .ite (fun _ => .pure has) fun _ => ?_
  exact itemAndComma_reaches (Nat.zero_le 1)
    (attribute_locates.mono fun a j ha => ⟨j, Nat.le_refl j, ha⟩) has

theorem attributeSection_locates :
    Parser.Locates source ts s attributeSection fun a j =>
      Node.Stands source ts s.place j (.attributeSection a) := by
  refine .get fun _ hs => .pass expectMark_safe.discard fun _ _ s₁ h₁ hk => ?_
  refine .pass attributeTarget?_safe fun _ _ s₂ h₂ _ => ?_
  refine (Parser.Locates.loop (I := fun as j =>
      InTurn (fun a b x => Node.Stands source ts a b (.attribute_ x)) s₂.place j as)
    (fun _ _ _ _ _ => attributeAndComma_safe) (.nil (Nat.le_refl _))
    fun _ _ _ _ has => attributeAndComma_locates has).bind fun as _ s₃ h₃ has => ?_
  refine .pass expectMark_safe.discard fun _ _ s₄ h₄ _ => .get fun hg hs₄ => .pure ?_
  have := h₁.place_eq
  have := h₂.place_le
  have := h₃.place_le
  have := h₄.place_le
  exact .plain (hg.covers hs₄ (begins_peek hs) (by omega)) .nil ⟨⟩
    (has.widen (by omega) (by omega)).map

theorem attributeSections_locates :
    Parser.Locates source ts s attributeSections fun as j =>
      InTurn (Node.Stands source ts) s.place j (as.map .attributeSection) :=
  (whileAt_locates (fun _ _ _ _ _ => attributeSection_safe.mono fun _ _ h => h.2)
    fun _ _ _ _ => attributeSection_locates).mono fun _ _ h => h.map

/-! ## Parameters -/

/-- What comes before the expression, and where it is missing. -/
theorem initializer?_locates :
    Parser.Locates source ts s initializer? fun e? _ => AllCut source ts (ExprSyntax.excerpts? e?) := by
  refine .passReader eatMark_safe fun _ _ _ _ _ => .ite (fun _ => ?_) fun _ => .pure .nil
  exact .map (expression_locates.mono fun _ _ he => .one he.1)

theorem parameter_locates :
    Parser.Locates source ts s parameter fun p j => Node.Stands source ts s.place j (.parameter p) := by
  refine .get fun _ hs => attributeSections_locates.bind fun as _ s₁ h₁ has => ?_
  refine .pass parameterModifiers_safe fun _ _ s₂ h₂ _ => type_locates.bind fun t _ s₃ h₃ ht => ?_
  refine .pass ident_safe fun _ _ s₄ h₄ _ => initializer?_locates.bind fun e? _ s₅ h₅ he => ?_
  refine .get fun hg hs₅ => .pure ?_
  have := (h₁.trans h₂).place_le
  have := h₂.place_le
  have := ht.1.lt
  have := (h₄.trans h₅).place_le
  exact .plain (hg.covers hs₅ (begins_peek hs) (by omega)) he ⟨⟩
    (has.append (.one (by omega) ht.node (by omega)))

theorem parametersBetween_locates {opener closer : Punct} :
    Parser.Locates source ts s (parametersBetween opener closer) fun ps j =>
      InTurn (Node.Stands source ts) s.place j (ps.map .parameter) := by
  refine .get fun _ _ => .ite (fun _ => ?_) fun _ => failAt_locates
  refine .pass (Parser.Safe.lift advance_passes).discard fun _ _ s₁ h₁ _ => .get fun _ _ => ?_
  refine .join (R := fun ps j => InTurn (fun a b x => Node.Stands source ts a b (.parameter x))
    s₁.place j ps) (fun _ => .pure (.nil (Nat.le_refl _))) (fun _ => ?_) fun ps _ s₂ h₂ hps => ?_
  · exact commaSeparated_locates (fun _ _ _ => parameter_safe) fun _ _ _ =>
      parameter_locates.mono fun p j hp => ⟨j, Nat.le_refl j, hp⟩
  · exact .pass expectMark_safe.discard fun _ _ s₃ h₃ _ =>
      .pure (hps.widen h₁.place_le h₃.place_le).map

theorem parameters_locates :
    Parser.Locates source ts s parameters fun ps j =>
      InTurn (Node.Stands source ts) s.place j (ps.map .parameter) :=
  parametersBetween_locates

/-! ## Parts of members -/

/-- The head begins with the `i`-th token and ends before the `j`-th. -/
def Head.Stands (source : List Char) (ts : List Token) (i j : Nat) (head : Head) : Prop :=
  Begins ts i head.start ∧ InTurn (Node.Stands source ts) i j (head.attributes.map .attributeSection)

theorem head_locates :
    Parser.Locates source ts s head fun h j => h.Stands source ts s.place j := by
  refine .get fun _ hs => attributeSections_locates.bind fun as _ s₁ h₁ has => ?_
  refine .passReader modifiers_safe fun _ _ s₂ h₂ _ => .pure ⟨begins_peek hs, ?_⟩
  exact has.widen (Nat.le_refl _) h₂.place_le

theorem expressionThenSemicolon_locates :
    Parser.Locates source ts s expressionThenSemicolon fun e _ => e.excerpt.IsCut source ts :=
  expression_locates.bind fun _ _ _ _ he => .pass expectMark_safe.discard fun _ _ _ _ _ => .pure he.1

theorem body_locates :
    Parser.Locates source ts s body fun b _ => AllCut source ts b.excerpts := by
  refine .get fun _ _ => .ite (fun _ => ?_) fun _ => ?_
  · exact .passReader skipGroup_safe fun _ _ _ _ _ => .get fun _ _ => .pure .nil
  refine .passReader eatMark_safe fun _ _ _ _ _ => .ite (fun _ => ?_) fun _ => ?_
  · exact expressionThenSemicolon_locates.bind fun _ _ _ _ he => .pure (.one he)
  refine .passReader eatMark_safe fun _ _ _ _ _ => .ite (fun _ => .pure .nil) fun _ => ?_
  exact failAt_locates

theorem typeParameter_locates :
    Parser.Locates source ts s typeParameter fun p j =>
      Node.Stands source ts s.place j (.typeParameter p) := by
  refine .get fun _ hs => attributeSections_locates.bind fun as _ s₁ h₁ has => .get fun _ _ => ?_
  refine .join (R := fun _ _ => True) (fun _ => ?_) (fun _ => .pure ⟨⟩) fun _ _ s₂ h₂ _ => ?_
  · exact .map ((Parser.Locates.of_safe (.lift word_safe)).mono fun _ _ _ => ⟨⟩)
  refine .pass ident_safe fun _ _ s₃ h₃ hi => .get fun hg hs₃ => .pure ?_
  have := (h₁.trans h₂).place_le
  have := h₂.place_le
  have := h₃.place_eq
  exact .plain (hg.covers hs₃ (begins_peek hs) (by omega)) .nil ⟨⟩ (has.widen (Nat.le_refl _) (by omega))

theorem typeParameters_locates :
    Parser.Locates source ts s typeParameters fun ps j =>
      InTurn (Node.Stands source ts) s.place j (ps.map .typeParameter) := by
  refine .passReader eatMark_safe fun _ _ s₁ h₁ _ => .ite (fun _ => ?_) fun _ => .pure (.nil h₁.place_le)
  refine (commaSeparated_locates (P := fun a b x => Node.Stands source ts a b (.typeParameter x))
    (fun _ _ _ => typeParameter_safe) fun _ _ _ =>
      typeParameter_locates.mono fun p j hp => ⟨j, Nat.le_refl j, hp⟩).bind fun ps _ s₂ h₂ hps => ?_
  exact .pass expectMark_safe.discard fun _ _ s₃ h₃ _ => .pure (hps.widen h₁.place_le h₃.place_le).map

/-- The constraints begin behind the word, the parameter and the colon. -/
theorem constraintClause_locates (h : s.peek.isContextual "where" = true) :
    Parser.Locates source ts s constraintClause fun c j =>
      Node.Stands source ts s.place j (.constraintClause c) := by
  have hne : s.peek.kind ≠ .eof := fun heof => by simp [Token.isContextual, heof] at h
  have hword : Reader.Safe source s advance fun _ k => k = 1 :=
    (advance_one hne).mono fun _ _ h => h.2
  have hcolon {s' : ParserState} : Parser.Safe source s' (expectMark .colon) fun _ k =>
      s'.peek.kind = .punct .colon ∧ k = 1 :=
    expectMark_one.mono fun _ _ h => ⟨h.1 ▸ h.2.1, h.2.2⟩
  refine .get fun _ hs => .pass (Parser.Safe.lift hword).discard fun _ _ s₁ h₁ hk₁ => ?_
  refine .pass ident_one fun p _ s₂ h₂ hk₂ => .pass hcolon.discard fun _ _ s₃ h₃ hk₃ => ?_
  refine .get fun _ hs₃ => .passReader (.loop_consumes fun _ _ _ _ => constraintStep_safe)
    fun _ _ later h₄ _ => ?_
  refine .get fun hg hs₄ => .ite (fun _ => failAt_locates) fun hne => ?_
  have hlt : s₃.place < later.place := Nat.lt_of_le_of_ne h₄.place_le (Ne.symm hne)
  have hplace₂ : s₂.place = s.place + 2 := by
    have := h₁.place_eq
    have := h₂.place_eq
    omega
  have hplace₃ : s₃.place = s.place + 3 := by
    have := h₃.place_eq
    omega
  refine .andThen (textFrom_locates (begins_peek hs₃) hlt) fun text _ s₅ h₅ htext => .pure ?_
  obtain ⟨hplace, hlast, hcovers, htext⟩ := htext
  have hfirst := getElem?_place s₃
  rw [hs₃] at hfirst
  have hspan := hg.covers hs₄ (begins_peek hs) (by omega)
  rw [hplace]
  refine .plain hspan ?_ ⟨⟩ (.nil (by omega))
  have hs₂ := (h₁.trans h₂).tokens.trans hs
  refine ⟨s.place, later.place, s₂.peek, s₃.peek, hlast, hspan, by omega, ?_, hk₃.1, ?_, ?_⟩
  · rw [← hplace₂, ← hs₂]
    exact getElem?_place s₂
  · rw [← hplace₃]
    exact hfirst
  · rw [← hcovers.offset_eq hfirst, ← hcovers.stop_eq hspan, ← Span.sliceChars?_eq]
    exact htext

theorem constraintClauses_locates :
    Parser.Locates source ts s constraintClauses fun cs j =>
      InTurn (Node.Stands source ts) s.place j (cs.map .constraintClause) :=
  (whileAt_locates (fun _ _ _ _ h => constraintClause_safe h)
    fun _ _ _ h => constraintClause_locates h).mono fun _ _ h => h.map

theorem accessor_locates :
    Parser.Locates source ts s accessor fun a j => Node.Stands source ts s.place j (.accessor a) := by
  refine head_locates.bind fun head _ s₁ h₁ hhead => .pass ident_safe fun _ _ s₂ h₂ hi => ?_
  refine body_locates.bind fun b _ s₃ h₃ hb => .get fun hg hs₃ => .pure ?_
  have := h₁.place_le
  have := h₂.place_eq
  have := h₃.place_le
  exact .plain (hg.covers hs₃ hhead.1 (by omega)) hb ⟨⟩ (hhead.2.widen (Nat.le_refl _) (by omega))

theorem accessorsOrExpression_locates :
    Parser.Locates source ts s accessorsOrExpression fun r j =>
      InTurn (Node.Stands source ts) s.place j (r.1.map .accessor) ∧
        AllCut source ts (ExprSyntax.excerpts? r.2) := by
  refine .passReader eatMark_safe fun _ _ s₁ h₁ _ => .ite (fun _ => ?_) fun _ => ?_
  · exact expressionThenSemicolon_locates.bind fun _ _ s₂ h₂ he =>
      .pure ⟨.nil (h₁.trans h₂).place_le, .one he⟩
  refine .pass expectMark_safe.discard fun _ _ s₂ h₂ _ => ?_
  refine (whileAt_locates (P := fun a b x => Node.Stands source ts a b (.accessor x))
    (fun _ _ _ _ _ => accessor_safe) fun _ _ _ _ => accessor_locates).bind fun as _ s₃ h₃ has => ?_
  exact .pass expectMark_safe.discard fun _ _ s₄ h₄ _ =>
    .pure ⟨(has.widen (h₁.trans h₂).place_le h₄.place_le).map, .nil⟩

/-- The segments of a qualifier that begins with the `i`-th token carry texts of the source, and it
    ends where a token ends; without segments it ends where a token begins. -/
def Qualifier.Stands (source : List Char) (ts : List Token) (i : Nat) (q : Qualifier) : Prop :=
  (∀ x ∈ q.segments, AllCut source ts x.excerpts) ∧
    ∃ k t, i ≤ k ∧ ts[k]? = some t ∧
      (q.stop = t.span.stop ∧ k + 1 < ts.length ∨ q.segments = [] ∧ q.stop = t.span.offset)

theorem Qualifier.Stands.endsIn {q : Qualifier} {t : Token} {i : Nat} (h : q.Stands source ts i)
    (hg : s.Good source) (hs : s.tokens = ts) (ht : ts[i]? = some t) : q.EndsIn source t.span := by
  obtain ⟨-, k, u, hk, hu, hstop⟩ := h
  have hin := hg.inside (hs ▸ List.mem_of_getElem? hu)
  have hle := (hg.offset_le hs ht hu hk).1
  rcases hstop with ⟨hstop, -⟩ | ⟨-, hstop⟩
  · exact ⟨hstop ▸ hin.2, hstop ▸ hle.trans (Nat.le_add_right _ _)⟩
  · exact ⟨hstop ▸ hin.1, hstop ▸ hle⟩

theorem memberNameStep_locates {start : Span} {i : Nat} {q : Qualifier} (hb : Begins ts i start)
    (hi : i ≤ s.place) (hq : q.Stands source ts i) :
    Parser.Locates source ts s (memberNameStep start q)
      (Round.Located (fun q _ => q.Stands source ts i) fun r j =>
        AllCut source ts (r.1.toList.flatMap Name.excerpts) ∧
          ∃ a, i ≤ a ∧ a < j ∧ Begins ts a r.2.span) := by
  refine fun hs => Parser.Locates.pass ident_one (fun name _ s₁ h₁ hname => ?_) hs
  have hplace := h₁.place_eq
  have hbegins : Begins ts s.place name.span := hname.1 ▸ begins_peek hs
  refine .get fun hg hs₁ => .ite (fun _ => ?_) fun _ => ?_
  · refine .join (R := fun args _ => AllCut source ts (TypeSyntax.allExcerpts args))
      (fun _ => typeArguments_locates) (fun _ => .pure .nil) fun args _ s₂ h₂ hargs =>
        .get fun _ hs₂ => ?_
    refine .pass (Parser.Safe.lift advance_passes).discard fun _ _ _ _ _ => .pure ⟨?_, ?_⟩
    · exact List.forall_mem_append.2 ⟨hq.1, List.forall_mem_singleton.2 hargs⟩
    · have := h₂.place_le
      obtain ⟨k, t, hk, hlt, ht, hspan⟩ := previousSpan_stands hs₂ (i := i) (by omega)
      have := hs₂ ▸ place_lt s₂
      exact ⟨k, t, hk, ht, .inl ⟨(congrArg Span.stop hspan).symm, by omega⟩⟩
  refine .ite (fun _ => .pure ⟨List.forall_mem_nil _, s.place, hi, by omega, hbegins⟩) fun hne => ?_
  obtain ⟨t, ht, rfl⟩ := hb
  have hends := hq.endsIn hg hs₁ ht
  obtain ⟨hsegments, k, u, hk, hu, hstop⟩ := hq
  obtain ⟨hstop, hlast⟩ := hstop.resolve_right fun h => hne (by rw [h.1]; rfl)
  have hin : t.span.Inside source := hg.inside (hs₁ ▸ List.mem_of_getElem? ht)
  refine .andThen (textBetween_locates hin.1 hends.1 hends.2) fun text _ _ _ htext => .pure ⟨?_, ?_⟩
  · have hcut := Excerpt.isCut_to hk hlast ht hu hstop hends.2 htext.2
    refine AllCut.flatMap (List.forall_mem_singleton.2 ?_)
    rw [Name.excerpts, NameSegment.allExcerpts_eq]
    exact .cons hcut (.flatMap hsegments)
  · exact ⟨s.place, hi, by omega, hbegins⟩

/-- The name itself is a token behind what qualifies it. -/
theorem memberName_locates :
    Parser.Locates source ts s memberName fun r j =>
      AllCut source ts (r.1.toList.flatMap Name.excerpts) ∧
        ∃ a, s.place ≤ a ∧ a < j ∧ Begins ts a r.2.span := by
  refine .get fun hg hs => .loop (I := fun q _ => q.Stands source ts s.place)
    (fun q k s' h' hq => ?_) ?_ fun _ _ _ h' hq =>
      memberNameStep_locates (begins_peek hs) h'.place_le hq
  · have hends := hq.endsIn hg hs (hs ▸ getElem?_place s)
    exact (memberNameStep_safe hg h' hends).mono fun r m hr => by
      cases r
      exacts [⟨⟨⟩, hr.2⟩, ⟨⟩]
  · exact ⟨List.forall_mem_nil _, s.place, s.peek, Nat.le_refl _, hs ▸ getElem?_place s, .inr ⟨rfl, rfl⟩⟩

/-- The name of a variable is consumed before the rest of it is read. -/
theorem declaratorAfter_locates {vs : List Variable} {name : Ident} {i : Nat}
    (h : ∃ a, a < s.place ∧ Begins ts a name.span ∧
      InTurn (fun a b x => Node.Stands source ts a b (.variable_ x)) i a vs) :
    Parser.Locates source ts s (declaratorAfter vs name)
      (Round.Located (fun x j => ∃ a, a < j ∧ Begins ts a x.2.span ∧
          InTurn (fun a b x => Node.Stands source ts a b (.variable_ x)) i a x.1)
        fun vs j => InTurn (fun a b x => Node.Stands source ts a b (.variable_ x)) i j vs) := by
  obtain ⟨a, ha, hb, hvs⟩ := h
  refine .get fun _ _ => .after (K := fun _ => True)
    (fun _ => .lift (skipGroup_safe.mono fun _ _ _ => ⟨⟩)) fun _ s₁ h₁ => ?_
  refine initializer?_locates.bind fun e? _ s₂ h₂ he => .get fun hg hs₂ => ?_
  have := (h₁.trans h₂).place_le
  have hall := hvs.append (.one (Nat.le_refl _)
    (.plain (n := .variable_ ⟨name, e?, s₂.spanFrom name.span⟩) (hg.covers hs₂ hb (by omega)) he ⟨⟩
      (.nil (by omega))) (Nat.le_refl s₂.place))
  refine .passReader eatMark_safe fun _ _ s₃ h₃ _ => .ite (fun _ => ?_) fun _ => ?_
  · refine .pass ident_one fun x _ s₄ h₄ hx => .pure ⟨s₃.place, ?_, ?_, ?_⟩
    · have := h₄.place_eq
      omega
    · rw [hx.1]
      exact begins_peek (h₃.tokens.trans hs₂)
    · exact hall.widen (Nat.le_refl _) h₃.place_le
  · exact .pure (hall.widen (Nat.le_refl _) h₃.place_le)

theorem declarators_locates {name : Ident} {i : Nat} (hi : i < s.place) (hb : Begins ts i name.span) :
    Parser.Locates source ts s (declarators name) fun vs j =>
      InTurn (Node.Stands source ts) i j (vs.map .variable_) := by
  refine (Parser.Locates.loop
    (I := fun x j => ∃ a, a < j ∧ Begins ts a x.2.span ∧
      InTurn (fun a b x => Node.Stands source ts a b (.variable_ x)) i a x.1)
    (fun _ _ _ _ _ => declaratorAfter_safe) ⟨i, hi, hb, .nil (Nat.le_refl i)⟩
    fun _ _ _ _ hx => declaratorAfter_locates hx).bind fun vs _ s₁ h₁ hvs => ?_
  exact .pass expectMark_safe.discard fun _ _ s₂ h₂ _ => .pure (hvs.widen (Nat.le_refl _) h₂.place_le).map

/-! ## Members -/

theorem Head.Stands.widen {head : Head} {i j j' : Nat} (h : head.Stands source ts i j) (hj : j ≤ j') :
    head.Stands source ts i j' :=
  ⟨h.1, h.2.widen (Nat.le_refl i) hj⟩

section
variable {head : Head} {i : Nat}

theorem delegate_locates (hh : head.Stands source ts i s.place) :
    Parser.Locates source ts s (delegate head) fun d j => Node.Stands source ts i j (.delegate d) := by
  refine .pass expectWord_safe.discard fun _ _ s₁ h₁ _ => type_locates.bind fun t _ s₂ h₂ ht => ?_
  refine .pass ident_safe fun _ _ s₃ h₃ _ => typeParameters_locates.bind fun tps _ s₄ h₄ htps => ?_
  refine parameters_locates.bind fun ps _ s₅ h₅ hps => constraintClauses_locates.bind fun cs _ s₆ h₆ hcs => ?_
  refine .pass expectMark_safe.discard fun _ _ s₇ h₇ _ => .get fun hg hs₇ => .pure ?_
  have hlt := ht.1.lt
  have hle := (h₄.trans <| h₅.trans <| h₆.trans h₇).place_le
  have hi := hh.2.le Node.Stands.le
  have := h₁.place_le
  have := h₃.place_le
  refine .plain (hg.covers hs₇ hh.1 (by omega)) .nil ⟨⟩ ?_
  exact (((hh.2.append (.one h₁.place_le ht.node h₃.place_le)).append htps).append hps).append
    (hcs.widen (Nat.le_refl _) h₇.place_le)

theorem specialFrom_locates {kind : SpecialKind} {ps : List Parameter} (hb : Begins ts i head.start)
    (hi : i < s.place) (hc : InTurn (Node.Stands source ts) i s.place
      (head.attributes.map .attributeSection ++ ps.map .parameter)) :
    Parser.Locates source ts s (specialFrom head kind ps) fun m j =>
      Node.Stands source ts i j (.ofMember m) :=
  .get fun hg hs => .pure (.plain (hg.covers hs hb hi) .nil ⟨⟩ hc)

theorem special_locates {kind : SpecialKind} (hi : i < s.place) (hh : head.Stands source ts i s.place) :
    Parser.Locates source ts s (special head kind) fun m j =>
      Node.Stands source ts i j (.ofMember m) := by
  refine parameters_locates.bind fun ps _ s₁ h₁ hps => .pass body_safe.discard fun _ _ s₂ h₂ _ => ?_
  have := (h₁.trans h₂).place_le
  exact specialFrom_locates hh.1 (by omega) (hh.2.append (hps.widen (Nat.le_refl _) h₂.place_le))

theorem destructor_locates (hh : head.Stands source ts i s.place) :
    Parser.Locates source ts s (destructor head) fun m j =>
      Node.Stands source ts i j (.ofMember m) := by
  refine .pass expectMark_safe.discard fun _ _ s₁ h₁ hk => ?_
  refine .pass (ident_safe.mono fun _ _ hi => hi.2).discard fun _ _ s₂ h₂ _ => ?_
  have := hh.2.le Node.Stands.le
  have := h₁.place_eq
  have := h₂.place_le
  exact special_locates (by omega) (hh.widen (by omega))

theorem conversionOperator_locates (hh : head.Stands source ts i s.place) :
    Parser.Locates source ts s (conversionOperator head) fun m j =>
      Node.Stands source ts i j (.ofMember m) := by
  refine .pass (Parser.Safe.lift advance_passes).discard fun _ _ s₁ h₁ _ => ?_
  refine .pass expectWord_safe.discard fun _ _ s₂ h₂ _ => .pass type_safe.discard fun _ _ s₃ h₃ _ => ?_
  have := hh.2.le Node.Stands.le
  have := h₁.place_le
  have := h₂.place_eq
  have := h₃.place_le
  exact special_locates (by omega) (hh.widen (by omega))

theorem operator_locates (hi : i < s.place) (hh : head.Stands source ts i s.place) :
    Parser.Locates source ts s (operator head) fun m j =>
      Node.Stands source ts i j (.ofMember m) := by
  refine .get fun _ _ => .passReader (advanceBy_safe (List.takeWhile_prefix _).length_le)
    fun _ _ s₁ h₁ _ => special_locates ?_ (hh.widen h₁.place_le)
  exact hi.trans_le h₁.place_le

theorem indexer_locates (hi : i < s.place) (hh : head.Stands source ts i s.place) :
    Parser.Locates source ts s (indexer head) fun m j =>
      Node.Stands source ts i j (.ofMember m) := by
  refine .pass expectWord_safe.discard fun _ _ s₁ h₁ _ => ?_
  refine parametersBetween_locates.bind fun ps _ s₂ h₂ hps => ?_
  refine .pass accessorsOrExpression_safe.discard fun _ _ s₃ h₃ _ => ?_
  have := (h₁.trans <| h₂.trans h₃).place_le
  exact specialFrom_locates hh.1 (by omega)
    (hh.2.append (hps.widen h₁.place_le h₃.place_le))

theorem event_locates (hh : head.Stands source ts i s.place) :
    Parser.Locates source ts s (event head) fun m j =>
      Node.Stands source ts i j (.ofMember m) := by
  refine .pass expectWord_safe.discard fun _ _ s₁ h₁ _ => type_locates.bind fun t _ s₂ h₂ ht => ?_
  refine memberName_locates.bind fun name _ s₃ h₃ hname => .get fun _ _ => ?_
  obtain ⟨-, a, hle, hlt, hbegins⟩ := hname
  have := hh.2.le Node.Stands.le
  have := h₁.place_le
  have := ht.1.lt
  have htype := hh.2.append (.one h₁.place_le ht.node hle)
  -- either way the variables and then the accessors stand behind the name
  have hplain {vs : List Variable} {as : List Accessor} {sp : Span} {j : Nat} (hsp : sp.Covers ts i j)
      (h : InTurn (Node.Stands source ts) a j (vs.map .variable_ ++ as.map .accessor)) :
      Node.Stands source ts i j (.event ⟨head.attributes, head.modifiers, t, vs, as, sp⟩) := by
    refine .plain hsp .nil ⟨⟩ ?_
    rw [Node.children, List.append_assoc]
    exact htype.append h
  dsimp only
  split
  · refine accessorsOrExpression_locates.bind fun r _ s₄ h₄ hr => ?_
    have hvariable : Node.Stands source ts a (a + 1) (.variable_ ⟨name.2, none, name.2.span⟩) := by
      obtain ⟨u, hu, hspan⟩ := hbegins
      exact .plain (.through (Nat.le_refl a) hu hu (congrArg Span.offset hspan.symm)
        (congrArg Span.stop hspan.symm)) .nil ⟨⟩ (.nil (Nat.le_succ a))
    have := h₄.place_le
    refine .bind (R := fun x j => x = ([⟨name.2, none, name.2.span⟩], r.1) ∧ j = s₄.place)
      (.pure ⟨rfl, rfl⟩) fun x _ s₅ h₅ hx => .get fun hg hs₅ => .pure (hplain (hg.covers hs₅ hh.1 ?_) ?_)
    · omega
    · obtain ⟨rfl, hplace⟩ := hx
      exact .cons (Nat.le_refl a) hvariable (hr.1.widen hlt hplace.ge)
  · refine (declarators_locates hlt hbegins).bind fun vs _ s₄ h₄ hvs => ?_
    have := h₄.place_le
    refine .bind (R := fun x j => x = (vs, []) ∧ j = s₄.place) (.pure ⟨rfl, rfl⟩)
      fun x _ s₅ h₅ hx => .get fun hg hs₅ => .pure (hplain (hg.covers hs₅ hh.1 ?_) ?_)
    · omega
    · obtain ⟨rfl, hplace⟩ := hx
      exact hvs.append (.nil hplace.ge)

theorem constructor_locates (hh : head.Stands source ts i s.place) :
    Parser.Locates source ts s (constructor head) fun m j =>
      Node.Stands source ts i j (.ofMember m) := by
  refine .pass ident_safe fun _ _ s₁ h₁ hpos => parameters_locates.bind fun ps _ s₂ h₂ hps => ?_
  refine .passReader eatMark_safe fun _ _ s₃ h₃ _ => ?_
  refine .join (R := fun e? _ => AllCut source ts (ExprSyntax.excerpts? e?)) (fun _ => ?_)
    (fun _ => .pure .nil) fun e? _ s₄ h₄ he => ?_
  · exact .map (expression_locates.mono fun _ _ he => .one he.1)
  refine body_locates.bind fun b _ s₅ h₅ hb => .get fun hg hs₅ => .pure ?_
  have := hh.2.le Node.Stands.le
  have := h₁.place_eq
  have hle := (h₃.trans <| h₄.trans h₅).place_le
  have := h₂.place_le
  exact .plain (hg.covers hs₅ hh.1 (by omega)) (he.append hb) ⟨⟩
    (hh.2.append (hps.widen h₁.place_le hle))

variable {type : TypeSyntax} (hb : Begins ts i head.start) (hi : i < s.place)
  (hc : InTurn (Node.Stands source ts) i s.place
    (head.attributes.map .attributeSection ++ [.typeReference type]))
include hb hi hc

theorem method_locates {interface? : Option Name} {name : Ident}
    (hn : AllCut source ts (interface?.toList.flatMap Name.excerpts)) :
    Parser.Locates source ts s (method head type interface? name) fun m j =>
      Node.Stands source ts i j (.ofMember m) := by
  refine typeParameters_locates.bind fun tps _ s₁ h₁ htps => parameters_locates.bind fun ps _ s₂ h₂ hps => ?_
  refine constraintClauses_locates.bind fun cs _ s₃ h₃ hcs => body_locates.bind fun b _ s₄ h₄ hbody => ?_
  refine .get fun hg hs₄ => .pure ?_
  have := (h₁.trans <| h₂.trans <| h₃.trans h₄).place_le
  exact .plain (hg.covers hs₄ hb (by omega)) (hn.append hbody) ⟨⟩
    (((hc.append htps).append hps).append (hcs.widen (Nat.le_refl _) h₄.place_le))

theorem property_locates {interface? : Option Name} {name : Ident}
    (hn : AllCut source ts (interface?.toList.flatMap Name.excerpts)) :
    Parser.Locates source ts s (property head type interface? name) fun m j =>
      Node.Stands source ts i j (.ofMember m) := by
  refine accessorsOrExpression_locates.bind fun r _ s₁ h₁ hr => ?_
  dsimp only
  have hplain {e? : Option ExprSyntax} {sp : Span} {j : Nat} (hsp : sp.Covers ts i j)
      (hj : s₁.place ≤ j) (he : AllCut source ts (ExprSyntax.excerpts? e?)) :
      Node.Stands source ts i j (.property ⟨head.attributes, head.modifiers, type, interface?, name,
        r.1, r.2, e?, sp⟩) :=
    .plain hsp ((hn.append hr.2).append he) ⟨⟩ (hc.append (hr.1.widen (Nat.le_refl _) hj))
  have := h₁.place_le
  split
  · refine .passReader eatMark_safe fun _ _ s₂ h₂ _ => ?_
    refine .join (R := fun e? _ => AllCut source ts (ExprSyntax.excerpts? e?)) (fun _ => ?_)
      (fun _ => .pure .nil) fun e? _ s₃ h₃ he => .get fun hg hs₃ => .pure ?_
    · exact .map (expressionThenSemicolon_locates.mono fun _ _ he => .one he)
    · have hle := (h₂.trans h₃).place_le
      exact hplain (hg.covers hs₃ hb (by omega)) hle he
  · refine .bind (R := fun e? _ => AllCut source ts (ExprSyntax.excerpts? e?)) (.pure .nil)
      fun e? _ s₂ h₂ he => .get fun hg hs₂ => .pure ?_
    have hle := h₂.place_le
    exact hplain (hg.covers hs₂ hb (by omega)) hle he

omit hi hc in
theorem field_locates {name : Ident} {a : Nat} (ha : a < s.place) (hname : Begins ts a name.span)
    (hc : InTurn (Node.Stands source ts) i a
      (head.attributes.map .attributeSection ++ [.typeReference type])) :
    Parser.Locates source ts s (field head type name) fun m j =>
      Node.Stands source ts i j (.ofMember m) := by
  refine (declarators_locates ha hname).bind fun vs _ s₁ h₁ hvs => .get fun hg hs₁ => .pure ?_
  have := hc.le Node.Stands.le
  have := h₁.place_le
  exact .plain (hg.covers hs₁ hb (by omega)) .nil ⟨⟩ (hc.append hvs)

omit hb hi hc in
/-- A member behind its type stands from its head on. -/
theorem typedMember_locates {a : Nat} (hh : head.Stands source ts i a)
    (ht : type.Stands source ts a s.place) :
    Parser.Locates source ts s (typedMember head type) fun m j =>
      Node.Stands source ts i j (.ofMember m) := by
  have hi := hh.2.le Node.Stands.le
  have hlt := ht.1.lt
  have hc {b : Nat} (hb : s.place ≤ b) := hh.2.append (.one (Nat.le_refl a) ht.node hb)
  refine .passReader eatWord_safe fun _ _ s₁ h₁ _ => ?_
  have := h₁.place_le
  refine .ite (fun _ => operator_locates (by omega) (hh.widen (by omega))) fun _ => .get fun _ _ => ?_
  refine .ite (fun _ => indexer_locates (by omega) (hh.widen (by omega))) fun _ => ?_
  refine memberName_locates.bind fun name _ s₂ h₂ hname => .get fun _ _ => ?_
  obtain ⟨hname, b, hle, hb, hbegins⟩ := hname
  have := h₂.place_le
  split
  · exact method_locates hh.1 (by omega) (hc (by omega)) hname
  split
  · exact property_locates hh.1 (by omega) (hc (by omega)) hname
  split
  · exact field_locates hh.1 hb hbegins (hc (by omega))
  · exact failAt_locates

end

variable {head : Head} {i : Nat}

/-- A member that is no type stands from its head on. -/
theorem memberAfter_locates (hh : head.Stands source ts i s.place) :
    Parser.Locates source ts s (memberAfter head) fun m j =>
      Node.Stands source ts i j (.ofMember m) := by
  have htyped : Parser.Locates source ts s (type >>= typedMember head) fun m j =>
      Node.Stands source ts i j (.ofMember m) :=
    type_locates.bind fun t _ _ _ ht => typedMember_locates hh ht
  refine .get fun _ _ => ?_
  split
  case h_1 => exact (delegate_locates hh).bind fun _ _ _ _ hd => .pure hd
  case h_2 => exact destructor_locates hh
  case h_3 => exact event_locates hh
  case h_4 | h_5 => exact conversionOperator_locates hh
  case h_6 => exact .ite (fun _ => constructor_locates hh) fun _ => htyped
  case h_7 => exact htyped

theorem enumMember_locates :
    Parser.Locates source ts s enumMember fun m j =>
      Node.Stands source ts s.place j (.enumMember m) := by
  refine .get fun _ hs => attributeSections_locates.bind fun as _ s₁ h₁ has => ?_
  refine .pass ident_safe fun _ _ s₂ h₂ hi => initializer?_locates.bind fun e? _ s₃ h₃ he => ?_
  refine .get fun hg hs₃ => .pure ?_
  have := h₁.place_le
  have := h₂.place_eq
  have := h₃.place_le
  exact .plain (hg.covers hs₃ (begins_peek hs) (by omega)) he ⟨⟩ (has.widen (Nat.le_refl _) (by omega))

end Parser

end CommandModules

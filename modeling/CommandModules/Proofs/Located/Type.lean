/-
  Command modules — the texts of names, types and expressions are cut from the source.

  * `TypeSyntax.Stands source ts i j t`: the type stands from the `i`-th token to the `j`-th, and
    its text, like those of the names and types in it, is cut from the source;
  * `typeWith_locates`: a type is read so if the types inside it are, from the states with fewer
    tokens ahead; `type_locates`, `name_locates` and `typeArguments_locates` follow;
  * `expression_locates`: so is the text of an expression.
-/
import CommandModules.Proofs.Located.Rules
import CommandModules.Proofs.Safe.Type

namespace CommandModules

/-- The type stands from the `i`-th token to the `j`-th; its texts are cut from the source. -/
def TypeSyntax.Stands (source : List Char) (ts : List Token) (i j : Nat) (t : TypeSyntax) : Prop :=
  t.span.Covers ts i j ∧ AllCut source ts t.excerpts

namespace Parser

open ParserState

variable {source : List Char} {ts : List Token} {s : ParserState}

/-! ## Names and types -/

section
variable {type : Parser TypeSyntax} {n : Nat}
  (hp : ∀ s', s'.after.length < n → Parser.Safe source s' type fun _ _ => True)
  (h : ∀ s', s'.after.length < n →
    Parser.Locates source ts s' type fun t j => t.Stands source ts s'.place j)
include hp h

theorem typeArgumentsWith_locates (hn : s.after.length ≤ n) :
    Parser.Locates source ts s (typeArgumentsWith type) fun args _ =>
      AllCut source ts (TypeSyntax.allExcerpts args) := by
  refine .pass expectMark_safe.discard fun _ k s₁ h₁ hk => .get fun _ _ => ?_
  have hlen {m : Nat} {s' : ParserState} (h' : Moves m s₁ s') : s'.after.length < n := by
    have := h₁.length_after
    have := h'.length_after
    omega
  refine .join (R := fun args _ => ∀ t ∈ args, AllCut source ts t.excerpts)
    (fun _ => .pure (List.forall_mem_nil _)) (fun _ => ?_) fun args _ _ _ hargs => ?_
  · refine (commaSeparated_locates (fun _ s' h' => hp s' (hlen h')) fun _ s' h' =>
      (h s' (hlen h')).mono fun t j ht => ⟨j, Nat.le_refl j, ht⟩).mono fun args j hargs => ?_
    exact hargs.all fun _ _ _ ht => ht.2
  · refine .pass expectMark_safe.discard fun _ _ _ _ _ => .pure ?_
    rw [TypeSyntax.allExcerpts_eq]
    exact .flatMap hargs

theorem nameSegmentWith_locates (hn : s.after.length ≤ n) :
    Parser.Locates source ts s (nameSegmentWith type) fun segment j =>
      AllCut source ts segment.excerpts ∧ s.place < j := by
  refine .pass ident_safe fun _ _ s₁ h₁ hi => .get fun _ _ => ?_
  have hlen := h₁.length_after
  have hplace := h₁.place_eq
  refine .join (R := fun args _ => AllCut source ts (TypeSyntax.allExcerpts args))
    (fun _ => typeArgumentsWith_locates hp h (by omega)) (fun _ => .pure .nil)
    fun args _ _ h₂ hargs => .pure ⟨hargs, ?_⟩
  have := h₂.place_le
  omega

theorem segmentAndDot_locates (hn : s.after.length ≤ n) {segments : List NameSegment} {i : Nat}
    (hi : i ≤ s.place) (hs : ∀ x ∈ segments, AllCut source ts x.excerpts) :
    Parser.Locates source ts s (segmentAndDot type segments)
      (Round.Located (fun later j => (∀ x ∈ later, AllCut source ts x.excerpts) ∧ i ≤ j)
        fun later j => (∀ x ∈ later, AllCut source ts x.excerpts) ∧ i < j) := by
  refine (nameSegmentWith_locates hp h hn).bind fun segment _ s₁ h₁ hsegment => .get fun _ _ => ?_
  have hall : ∀ x ∈ segments ++ [segment], AllCut source ts x.excerpts :=
    List.forall_mem_append.2 ⟨hs, List.forall_mem_singleton.2 hsegment.1⟩
  have hpos := hsegment.2
  refine .ite (fun _ => ?_) fun _ => .pure ⟨hall, by omega⟩
  refine .pass (Parser.Safe.lift advance_passes).discard fun _ _ s₂ h₂ _ => .pure ⟨hall, ?_⟩
  have := h₂.place_le
  omega

theorem nameWith_locates (hn : s.after.length ≤ n) :
    Parser.Locates source ts s (nameWith type) fun n j =>
      AllCut source ts n.excerpts ∧ s.place < j := by
  refine .get fun _ hs => .pass nameAlias_safe fun _ _ s₁ h₁ _ => ?_
  have hlen {m : Nat} {s' : ParserState} (h' : Moves m s₁ s') : s'.after.length ≤ n := by
    have := h₁.length_after
    have := h'.length_after
    omega
  have hconsumes {segments : List NameSegment} {m : Nat} {s' : ParserState} (h' : Moves m s₁ s') :
      Parser.Safe source s' (segmentAndDot type segments) Round.Consumes :=
    (segmentAndDot_safe hp (hlen h')).mono fun r m hr => by
      cases r
      exacts [⟨⟨⟩, hr.2⟩, ⟨⟩]
  have hsegments : Parser.Locates source ts s₁ (loopOrFail (segmentAndDot type) [])
      fun segments j => (∀ x ∈ segments, AllCut source ts x.excerpts) ∧ s.place < j :=
    .loop (I := fun segments j => (∀ x ∈ segments, AllCut source ts x.excerpts) ∧ s.place ≤ j)
      (fun _ _ _ h' _ => hconsumes h') ⟨List.forall_mem_nil _, h₁.place_le⟩
      fun _ _ s' h' hx => segmentAndDot_locates hp h (hlen h') hx.2 hx.1
  refine hsegments.bind fun segments _ s₂ h₂ hsegments => ?_
  refine .andThen (textFrom_locates (begins_peek hs) hsegments.2) fun text k s₃ h₃ htext =>
    .get fun _ _ => .pure ⟨?_, htext.1 ▸ hsegments.2⟩
  obtain ⟨hplace, htext⟩ := htext
  have := h₃.place_eq
  obtain rfl : k = 0 := by omega
  rw [h₃.spanFrom_eq, Name.excerpts, NameSegment.allExcerpts_eq]
  exact .cons ⟨_, _, htext⟩ (.flatMap hsegments.1)

omit hp in
theorem tupleElementWith_locates (hn : s.after.length < n) :
    Parser.Locates source ts s (tupleElementWith type) fun e _ => AllCut source ts e.excerpts := by
  refine (h s hn).bind fun t _ _ _ ht => .get fun _ _ => ?_
  refine .join (R := fun _ _ => True) (fun _ => ?_) (fun _ => .pure ⟨⟩) fun _ _ _ _ _ => .pure ht.2
  exact .map ((Parser.Locates.of_safe ident_safe).mono fun _ _ _ => ⟨⟩)

theorem tupleWith_locates (hn : s.after.length ≤ n) :
    Parser.Locates source ts s (tupleWith type) fun es j =>
      AllCut source ts (TupleElement.allExcerpts es) ∧ s.place < j := by
  refine .pass expectMark_safe.discard fun _ k s₁ h₁ hk => ?_
  have hplace := h₁.place_eq
  have hlen {m : Nat} {s' : ParserState} (h' : Moves m s₁ s') : s'.after.length < n := by
    have := h₁.length_after
    have := h'.length_after
    omega
  refine (commaSeparated_locates (P := fun _ _ e => AllCut source ts (TupleElement.excerpts e))
    (fun _ s' h' => tupleElementWith_safe hp (hlen h')) fun _ s' h' =>
      (tupleElementWith_locates h (hlen h')).mono fun e j he => ⟨j, Nat.le_refl j, he⟩).bind
    fun es _ s₂ h₂ hes => .pass expectMark_safe.discard fun _ _ s₃ h₃ _ => ?_
  have hall : AllCut source ts (TupleElement.allExcerpts es) := by
    rw [TupleElement.allExcerpts_eq]
    exact .flatMap (hes.all fun _ _ _ he => he)
  have := h₂.place_le
  have := h₃.place_le
  split
  · exact .get fun _ _ => .bind (R := fun _ _ => False) .throw fun _ _ _ _ => False.elim
  · exact .pure ⟨hall, by omega⟩

theorem typeBaseWith_locates (hn : s.after.length ≤ n) :
    Parser.Locates source ts s (typeBaseWith type) fun shape j =>
      AllCut source ts shape.excerpts ∧ s.place < j := by
  refine .get fun _ _ => ?_
  dsimp only
  refine .ite (fun hk => ?_) fun _ => .ite (fun _ => ?_) fun _ => .ite (fun _ => ?_) fun _ => ?_
  · have hne : s.peek.kind ≠ .eof := by
      rintro heof
      simp [heof, TokenKind.isPredefinedType] at hk
    refine .pass (Parser.Safe.lift (advance_consumes hne)).discard fun _ _ s₁ h₁ hpos =>
      .pure ⟨.nil, ?_⟩
    have := h₁.place_eq
    omega
  · exact (tupleWith_locates hp h hn).bind fun _ _ _ _ hes => .pure hes
  · exact (nameWith_locates hp h hn).bind fun _ _ _ _ hn => .pure hn
  · exact failAt_locates

end

/-- A suffix is around the type; where there is none, nothing is consumed. -/
theorem typeSuffix?_locates {t : TypeSyntax} (ht : AllCut source ts t.excerpts) :
    Parser.Locates source ts s (typeSuffix? t) fun shape? j =>
      (∀ shape, shape? = some shape → AllCut source ts shape.excerpts) ∧
        (shape? = none → j = s.place) := by
  have hsome {shape : TypeShape} {j : Nat} (hs : AllCut source ts shape.excerpts) :
      (∀ shape', some shape = some shape' → AllCut source ts shape'.excerpts) ∧
        (some shape = none → j = s.place) := by
    refine ⟨?_, nofun⟩
    rintro _ ⟨⟩
    exact hs
  refine .get fun _ _ => .ite (fun _ => ?_) fun _ => .ite (fun _ => ?_) fun _ => .ite (fun hr => ?_)
    fun _ => .pure ⟨by simp, fun _ => rfl⟩
  · exact .pass (Parser.Safe.lift advance_passes).discard fun _ _ _ _ _ => .pure (hsome ht)
  · exact .pass (Parser.Safe.lift advance_passes).discard fun _ _ _ _ _ => .pure (hsome ht)
  · exact .pass (rank_safe (Bool.and_eq_true_iff.1 hr).1) fun _ _ _ _ _ => .pure (hsome ht)

theorem typeFrom_locates {start : Span} {shape : TypeShape} {i : Nat} (hb : Begins ts i start)
    (hi : i < s.place) (hs : AllCut source ts shape.excerpts) :
    Reader.Locates source ts s (typeFrom start shape) fun t j => t.Stands source ts i j := by
  refine (textFrom_locates hb hi).bind fun text k s₁ h₁ htext => .get fun hg hs₁ => .pure ?_
  obtain ⟨hplace, htext⟩ := htext
  have := h₁.place_eq
  obtain rfl : k = 0 := by omega
  refine ⟨hg.covers hs₁ hb (by omega), ?_⟩
  rw [TypeSyntax.excerpts, h₁.spanFrom_eq]
  exact .cons ⟨_, _, htext⟩ hs

theorem suffixAt_locates {start : Span} {t : TypeSyntax} {i : Nat} (hb : Begins ts i start)
    (ht : t.Stands source ts i s.place) :
    Parser.Locates source ts s (suffixAt start t)
      (Round.Located (fun t j => t.Stands source ts i j) fun t j => t.Stands source ts i j) := by
  refine (typeSuffix?_locates ht.2).bind fun shape? _ s₁ h₁ hr => ?_
  cases shape? with
  | some shape =>
    refine .andThen (typeFrom_locates hb ?_ (hr.1 shape rfl)) fun _ _ _ _ ht => .pure ht
    have := ht.1.lt
    have := h₁.place_le
    omega
  | none => exact .pure ((hr.2 rfl).symm ▸ ht)

theorem typeWith_locates {type : Parser TypeSyntax}
    (hp : ∀ s', s'.after.length < s.after.length → Parser.Safe source s' type fun _ _ => True)
    (h : ∀ s', s'.after.length < s.after.length →
      Parser.Locates source ts s' type fun t j => t.Stands source ts s'.place j) :
    Parser.Locates source ts s (typeWith type) fun t j => t.Stands source ts s.place j := by
  refine .get fun hg hs => ?_
  have hb := begins_peek hs
  refine (typeBaseWith_locates hp h (Nat.le_refl _)).bind fun shape _ s₁ h₁ hshape => ?_
  refine .andThen (typeFrom_locates hb hshape.2 hshape.1) fun t _ s₂ h₂ ht => ?_
  exact .loop (fun _ _ _ _ _ => suffixAt_safe hg.peek_inside) ht fun _ _ _ _ ht =>
    suffixAt_locates hb ht

theorem typeWithin_locates {depth : Nat} (h : s.after.length < depth) :
    Parser.Locates source ts s (typeWithin depth) fun t j => t.Stands source ts s.place j := by
  induction depth generalizing s with
  | zero => omega
  | succ depth ih =>
    exact typeWith_locates (fun s' h' => typeWithin_safe (by omega)) fun s' h' => ih (by omega)

theorem type_locates :
    Parser.Locates source ts s type fun t j => t.Stands source ts s.place j := by
  refine .passReader rounds_safe fun _ _ s₁ h hk => ?_
  obtain ⟨rfl, rfl⟩ := hk
  have hplace := h.place_eq
  rw [Nat.add_zero] at hplace
  rw [← hplace]
  exact typeWithin_locates (Nat.lt_succ_of_le (h.after_eq ▸ Nat.le_refl _))

theorem name_locates : Parser.Locates source ts s name fun n j =>
    AllCut source ts n.excerpts ∧ s.place < j := by
  refine .passReader rounds_safe fun _ _ s₁ h hk => ?_
  obtain ⟨rfl, rfl⟩ := hk
  have hplace := h.place_eq
  rw [Nat.add_zero] at hplace
  rw [← hplace]
  exact nameWith_locates (fun _ h' => typeWithin_safe h') (fun _ h' => typeWithin_locates h')
    (h.after_eq ▸ Nat.le_succ _)

theorem typeArguments_locates : Parser.Locates source ts s typeArguments fun args _ =>
    AllCut source ts (TypeSyntax.allExcerpts args) := by
  refine .passReader rounds_safe fun _ _ s₁ h hk => ?_
  obtain ⟨rfl, rfl⟩ := hk
  exact typeArgumentsWith_locates (fun _ h' => typeWithin_safe h') (fun _ h' => typeWithin_locates h')
    (h.after_eq ▸ Nat.le_succ _)

/-! ## Expressions -/

/-- An expression consumes a token, and its text is cut from the source. -/
theorem expression_locates {terminators : List TokenKind} :
    Parser.Locates source ts s (expression terminators) fun e j =>
      e.excerpt.IsCut source ts ∧ s.place < j := by
  refine .get fun _ hs => ?_
  refine .passReader (.loop_consumes fun _ _ _ _ => expressionStep_safe) fun _ _ later h₁ _ => ?_
  refine .get fun _ _ => .ite (fun _ => failAt_locates) fun hne => ?_
  have hlt : s.place < later.place := Nat.lt_of_le_of_ne h₁.place_le (Ne.symm hne)
  split
  · exact .throw
  · exact .andThen (textFrom_locates (begins_peek hs) hlt) fun _ _ _ _ htext =>
      .pure ⟨⟨_, _, htext.2⟩, htext.1 ▸ hlt⟩

end Parser

end CommandModules

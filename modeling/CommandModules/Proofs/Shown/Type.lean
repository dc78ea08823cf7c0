/-
  Command modules — names and types before known tokens.

  * `EndsType ts`: the tokens `ts` begin with none with which a type goes on;
  * `type_reads`: where the tokens of a type stand before such tokens, that type is read,
    up to its places and verbatim texts; `name_reads` says this of names.
-/
import CommandModules.Proofs.Shown.Basic

namespace CommandModules

open ParserState

/-! ## Ends -/

/-- Does a type end before the token, if a name comes first? -/
def Token.endsType (t : Token) : Bool :=
  match t.kind with
  | .punct p =>
    match p with
    | .dot | .colonColon | .less | .question | .star | .leftBracket => false
    | _ => true
  | _ => true

theorem Token.endsType_ne {t : Token} (h : t.endsType = true) {p : Punct}
    (hp : (⟨.punct p, "", default⟩ : Token).endsType = false) : t.kind ≠ .punct p := by
  intro hk
  have : t.endsType = (⟨.punct p, "", default⟩ : Token).endsType := by simp [endsType, hk]
  rw [h, hp] at this
  cases this

/-- Does a name end before the token? -/
def Token.endsName (t : Token) : Bool :=
  match t.kind with
  | .punct p =>
    match p with
    | .dot | .colonColon | .less => false
    | _ => true
  | _ => true

/-- Do the tokens begin with none with which a name goes on? -/
def EndsName (ts : List Token) : Prop :=
  ∀ t, ts.head? = some t → t.endsName = true

/-- Do the tokens begin with none with which a type goes on? -/
def EndsType (ts : List Token) : Prop :=
  ∀ t, ts.head? = some t → t.endsType = true

theorem Token.endsName_ne {t : Token} (h : t.endsName = true) {p : Punct}
    (hp : (⟨.punct p, "", default⟩ : Token).endsName = false) : t.kind ≠ .punct p := by
  intro hk
  have : t.endsName = (⟨.punct p, "", default⟩ : Token).endsName := by simp [endsName, hk]
  rw [h, hp] at this
  cases this

theorem Token.endsName_of_endsType {t : Token} (h : t.endsType = true) : t.endsName = true := by
  unfold endsType at h
  unfold endsName
  split
  · rename_i p hp
    rw [hp] at h
    cases p <;> simp_all
  · rfl

theorem EndsType.endsName {ts : List Token} (h : EndsType ts) : EndsName ts :=
  fun t ht => Token.endsName_of_endsType (h t ht)

theorem EndsType.cons {t : Token} {ts : List Token} (h : t.endsType = true) : EndsType (t :: ts) :=
  fun _ hu => Option.some_inj.1 hu ▸ h

theorem EndsName.cons {t : Token} {ts : List Token} (h : t.endsName = true) : EndsName (t :: ts) :=
  fun _ hu => Option.some_inj.1 hu ▸ h

/-! ## Second tokens -/

section
variable {t : Token} {rest : List Token}

/-- Behind the first identifier of a name stands an angle, a dot or what follows the name. -/
theorem segments_second {i : NameSegment} {is : List NameSegment}
    (ht : (separated .dot ((i :: is).map NameSegment.tokens) ++ rest)[1]? = some t) :
    t = markToken .less ∨ t = markToken .dot ∨ rest.head? = some t := by
  rw [List.map_cons, i.tokens_eq] at ht
  cases hargs : i.args.map TypeSyntax.tokens with
  | cons a as =>
    refine .inl (Option.some_inj.1 (.trans ht.symm ?_))
    cases is <;> simp [separated, List.intercalate_cons_cons, argumentTokens, hargs]
  | nil =>
    rw [hargs] at ht
    cases is with
    | nil =>
      have ht : rest[0]? = some t := by simpa [separated, argumentTokens] using ht
      exact .inr (.inr (List.head?_eq_getElem? ▸ ht))
    | cons j js =>
      refine .inr (.inl (Option.some_inj.1 (.trans ht.symm ?_)))
      simp [separated, List.intercalate_cons_cons, argumentTokens]

/-- Behind the first identifier of a name stands something with which a type goes on, or what
    follows the name. -/
theorem Name.IsPrintable.tokens_second {n : Name} (h : n.IsPrintable)
    (ht : (n.tokens ++ rest)[1]? = some t) : t.endsType = false ∨ rest.head? = some t := by
  obtain ⟨alias?, segments, text, span⟩ := n
  rw [Name.IsPrintable] at h
  rw [Name.tokens] at ht
  cases alias? with
  | some a => exact .inl (Option.some_inj.1 (show some (markToken .colonColon) = some t from ht) ▸ rfl)
  | none =>
    obtain ⟨i, is, rfl⟩ := List.exists_cons_of_ne_nil h.2.1
    rcases segments_second (show (_ ++ rest)[1]? = some t from ht) with rfl | rfl | ht
    exacts [.inl rfl, .inl rfl, .inr ht]

/-- Behind the identifier that a type begins with stands something with which a type goes on,
    or what follows the type. -/
theorem TypeSyntax.IsPrintable.tokens_second : ∀ {x : TypeSyntax} {rest : List Token},
    x.IsPrintable → (∀ u ∈ x.tokens.head?, u.kind = .identifier) →
      (x.tokens ++ rest)[1]? = some t → t.endsType = false ∨ rest.head? = some t
  | ⟨.predefined word, _, _⟩, rest, h, hk, _ => by
    rw [TypeSyntax.IsPrintable, TypeShape.IsPrintable] at h
    rw [TypeSyntax.tokens, TypeShape.tokens] at hk
    rw [show wordKind word = .identifier from hk _ rfl] at h
    cases h
  | ⟨.named n, _, _⟩, rest, h, _, ht => by
    rw [TypeSyntax.IsPrintable, TypeShape.IsPrintable] at h
    rw [TypeSyntax.tokens, TypeShape.tokens] at ht
    exact h.tokens_second ht
  | ⟨.array element rank, _, _⟩, rest, h, hk, ht => by
    rw [TypeSyntax.IsPrintable, TypeShape.IsPrintable] at h
    rw [TypeSyntax.tokens, TypeShape.tokens] at hk
    rw [TypeSyntax.tokens, TypeShape.tokens, List.append_assoc] at ht
    refine .inl (suffix rfl (tokens_second h.1 (fun u hu => hk u ?_) ht))
    exact List.mem_head?_append_of_mem_head? hu
  | ⟨.nullable element, _, _⟩, rest, h, hk, ht => by
    rw [TypeSyntax.IsPrintable, TypeShape.IsPrintable] at h
    rw [TypeSyntax.tokens, TypeShape.tokens] at hk
    rw [TypeSyntax.tokens, TypeShape.tokens, List.append_assoc] at ht
    refine .inl (suffix rfl (tokens_second h (fun u hu => hk u ?_) ht))
    exact List.mem_head?_append_of_mem_head? hu
  | ⟨.pointer element, _, _⟩, rest, h, hk, ht => by
    rw [TypeSyntax.IsPrintable, TypeShape.IsPrintable] at h
    rw [TypeSyntax.tokens, TypeShape.tokens] at hk
    rw [TypeSyntax.tokens, TypeShape.tokens, List.append_assoc] at ht
    refine .inl (suffix rfl (tokens_second h (fun u hu => hk u ?_) ht))
    exact List.mem_head?_append_of_mem_head? hu
  | ⟨.tuple elements, _, _⟩, rest, _, hk, _ => by
    rw [TypeSyntax.tokens, TypeShape.tokens] at hk
    cases hk _ rfl
where
  suffix {v : Token} {vs : List Token} (hv : v.endsType = false)
      (h : t.endsType = false ∨ (v :: vs).head? = some t) : t.endsType = false :=
    h.elim id fun h => Option.some_inj.1 h ▸ hv

end

namespace Parser

variable {source : List Char} {s : ParserState} {t u : Token} {ts rest : List Token}

/-! ## Names and types -/

theorem nameAlias_accepts {a? : Option Ident}
    (hs : s.Shows ((a?.toList.flatMap fun a => [a.token, markToken .colonColon]) ++ ts))
    (hn : ∀ t, ts[1]? = some t → t.kind ≠ .punct .colonColon) :
    Parser.Accepts source s nameAlias fun b? s' => erase b? = erase a? ∧ s'.Shows ts := by
  cases a? with
  | none =>
    refine .get fun hg => ?_
    have hne : (s.peekAt 1).kind ≠ .punct .colonColon :=
      ParserState.Shows.peekAt_of (p := (· ≠ .punct .colonColon)) hs hg hn (by simp)
    rw [if_neg (by simp [hne])]
    exact .pure ⟨rfl, hs⟩
  | some a =>
    have hs : s.Shows (a.token :: markToken .colonColon :: ts) := hs
    refine .get fun _ => ?_
    rw [if_pos (by simp [isAt, hs.peek_kind, hs.peekAt_kind (n := 1) rfl, Ident.token, wordToken,
      markToken])]
    refine (ident_accepts hs rfl).bind fun i s₁ h₁ => ?_
    refine (Parser.Passes.lift (advance_shows h₁.2)).discard.bind fun _ s₂ h₂ => .pure ⟨?_, h₂⟩
    exact congrArg some (erase_ident_eq h₁.1)

/-- Types that can be written with less than `n` tokens are read by `type`. -/
def ReadsTypes (source : List Char) (type : Parser TypeSyntax) (n : Nat) : Prop :=
  ∀ (t : TypeSyntax) (s : ParserState) (rest : List Token), t.IsPrintable → t.tokens.length < n →
    s.Shows (t.tokens ++ rest) → EndsType rest →
    Parser.Accepts source s type fun x s' => erase x = erase t ∧ s'.Shows rest

section
variable {type : Parser TypeSyntax} {n : Nat} (h : ReadsTypes source type n)
include h

theorem typeArgumentsWith_accepts {args : List TypeSyntax} (hargs : ∀ a ∈ args, a.IsPrintable)
    (hne : args ≠ []) (hn : ∀ a ∈ args, a.tokens.length < n)
    (hs : s.Shows (argumentTokens (args.map TypeSyntax.tokens) ++ rest)) :
    Parser.Accepts source s (typeArgumentsWith type) fun xs s' =>
      erase xs = erase args ∧ s'.Shows rest := by
  obtain ⟨a, as, rfl⟩ := List.exists_cons_of_ne_nil hne
  have hs : s.Shows (markToken .less :: (separated .comma ((a :: as).map TypeSyntax.tokens) ++
      markToken .greater :: rest)) := by
    simpa [argumentTokens] using hs
  refine (expect_accepts hs rfl).discard.bind fun _ s₁ h₁ => .get fun _ => ?_
  have hk : s₁.peek.kind ≠ .punct .greater := by
    obtain ⟨u, us, hu, hbegin⟩ := (hargs a List.mem_cons_self).tokens_begin
    obtain ⟨vs, hvs⟩ := separated_cons .comma a.tokens (as.map TypeSyntax.tokens)
    rw [List.map_cons, hvs, hu] at h₁
    rw [ParserState.Shows.peek_kind h₁]
    intro hk
    simp [Token.beginsType, hk, TokenKind.isPredefinedType] at hbegin
  dsimp only
  rw [if_neg (mt isAtMark_iff.1 hk)]
  refine (commaSeparated_accepts (Q := fun x a => erase x = erase a) h₁ hne (by simp [markToken])
    fun b hb v us s' hv hs' => ?_).bind fun xs s₂ h₂ => ?_
  · refine h b s' (v :: us) (hargs b hb) (hn b hb) hs' (.cons ?_)
    rcases hv with rfl | rfl <;> rfl
  · exact (expect_accepts h₂.2 rfl).discard.bind fun _ s₃ h₃ =>
      .pure ⟨erase_eq_of_forall₂ h₂.1, h₃⟩

theorem nameSegmentWith_accepts {i : NameSegment} (hi : i.IsPrintable) (hn : i.tokens.length ≤ n)
    (hs : s.Shows (i.tokens ++ rest)) (hr : EndsName rest ∨ rest.head? = some (markToken .dot)) :
    Parser.Accepts source s (nameSegmentWith type) fun x s' =>
      erase x = erase i ∧ s'.Shows rest := by
  obtain ⟨ident, args⟩ := i
  rw [NameSegment.IsPrintable] at hi
  rw [NameSegment.tokens, List.length_cons] at hn
  rw [NameSegment.tokens] at hs
  have hs : s.Shows (ident.token :: (argumentTokens (args.map TypeSyntax.tokens) ++ rest)) := hs
  refine (ident_accepts hs rfl).bind fun x s₁ h₁ => .get fun hg => ?_
  have hx : erase x = erase ident := erase_ident_eq h₁.1
  obtain ⟨-, h₁⟩ := h₁
  dsimp only
  by_cases hargs : args = []
  · subst hargs
    have h₁ : s₁.Shows rest := h₁
    have hk : s₁.peek.kind ≠ .punct .less := by
      refine h₁.peek_of (p := (· ≠ .punct .less)) hg (fun t ht => ?_) (by simp)
      rcases hr with hr | hr
      · exact Token.endsName_ne (hr t ht) rfl
      · obtain rfl := Option.some_inj.1 (hr.symm.trans ht)
        simp [markToken]
    rw [if_neg (mt isAtMark_iff.1 hk)]
    refine Parser.Passes.bind (R := fun as s' => as = [] ∧ s' = s₁) (.pure ⟨rfl, rfl⟩)
      fun as s₂ h₂ => .pure ?_
    obtain ⟨rfl, rfl⟩ := h₂
    exact ⟨by simp [hx], h₁⟩
  · have hlen (a : TypeSyntax) (ha : a ∈ args) : a.tokens.length < n := by
      have := @length_le_separated a.tokens .comma _ (List.mem_map_of_mem ha)
      simp only [argumentTokens, List.isEmpty_map, List.isEmpty_iff, hargs, if_false,
        List.length_cons, List.length_append] at hn
      omega
    have hk : s₁.peek.kind = .punct .less := by
      have h₁ := h₁
      simp only [argumentTokens, List.isEmpty_map, List.isEmpty_iff, hargs, if_false] at h₁
      exact ParserState.Shows.peek_kind h₁
    rw [if_pos (isAtMark_iff.2 hk)]
    refine (typeArgumentsWith_accepts h hi.2 hargs hlen h₁).bind fun xs s₂ h₂ => .pure ?_
    exact ⟨by simp [hx, h₂.1], h₂.2⟩

/-- **A name is read** where its tokens stand before what ends it. -/
theorem nameWith_reads {k : Name} (hk : k.IsPrintable) (hn : k.tokens.length ≤ n)
    (hs : s.Shows (k.tokens ++ rest)) (hr : EndsName rest) :
    Parser.Accepts source s (nameWith type) fun x s' => erase x = erase k ∧ s'.Shows rest := by
  have hlen {i : NameSegment} (hi : i ∈ k.segments) := (tokens_length_le_name hi).trans hn
  obtain ⟨a?, is, text, span⟩ := k
  rw [Name.IsPrintable] at hk
  obtain ⟨ha, hne, his⟩ := hk
  rw [Name.tokens, List.append_assoc] at hs
  obtain ⟨i₀, is₀, rfl⟩ := List.exists_cons_of_ne_nil hne
  have hcolons (t : Token) (ht : (separated .dot ((i₀ :: is₀).map NameSegment.tokens) ++ rest)[1]? =
      some t) : t.kind ≠ .punct .colonColon := by
    rcases segments_second ht with rfl | rfl | ht
    · simp [markToken]
    · simp [markToken]
    · exact Token.endsName_ne (hr t ht) rfl
  refine .get fun hg => (nameAlias_accepts hs hcolons).bind fun b? s₁ h₁ => ?_
  obtain ⟨hb, h₁⟩ := h₁
  refine Parser.Passes.bind (R := fun xs s' => erase xs = erase (i₀ :: is₀) ∧ s'.Shows rest) ?_
    fun xs s₂ h₂ => .andThen (textFrom_accepts hg.peek_inside) fun _ s₃ h₃ => .get fun _ =>
      .pure ⟨by simp [hb, h₂.1], h₃ ▸ h₂.2⟩
  -- the segments that were read, and those ahead
  refine .loop (I := fun xs s' => ∃ done ahead, i₀ :: is₀ = done ++ ahead ∧ ahead ≠ [] ∧
    erase xs = erase done ∧ s'.Shows (separated .dot (ahead.map NameSegment.tokens) ++ rest))
    ⟨[], i₀ :: is₀, rfl, hne, rfl, h₁⟩ fun xs s' hI => ?_
  obtain ⟨done, ahead, heq, hne, hxs, hs'⟩ := hI
  rw [heq] at his hlen ⊢
  obtain ⟨i, ahead, rfl⟩ := List.exists_cons_of_ne_nil hne
  have hi : i ∈ done ++ i :: ahead := by simp
  cases ahead with
  | nil =>
    have hs' : s'.Shows (i.tokens ++ rest) := by simpa [separated] using hs'
    refine (nameSegmentWith_accepts h (his i hi) (hlen hi) hs' (.inl hr)).bind fun x s₂ h₂ =>
      .get fun hg => ?_
    have hdot : s₂.peek.kind ≠ .punct .dot := h₂.2.peek_of (p := (· ≠ .punct .dot)) hg
      (fun t ht => Token.endsName_ne (hr t ht) rfl) (by simp)
    rw [if_neg (by simp [isAtMark, isAt, hdot])]
    exact .pure ⟨by simp [hxs, h₂.1], h₂.2⟩
  | cons j ahead =>
    have hs' : s'.Shows (i.tokens ++ markToken .dot ::
        (separated .dot ((j :: ahead).map NameSegment.tokens) ++ rest)) := by
      simpa [separated, List.intercalate_cons_cons] using hs'
    refine (nameSegmentWith_accepts h (his i hi) (hlen hi) hs' (.inr rfl)).bind fun x s₂ h₂ =>
      .get fun _ => ?_
    have hnext : (s₂.peekAt 1).kind = .identifier := by
      obtain ⟨us, hus⟩ := separated_cons .dot j.tokens (ahead.map NameSegment.tokens)
      have h₂ := h₂.2
      rw [List.map_cons, hus, j.tokens_eq] at h₂
      exact ParserState.Shows.peekAt_kind (n := 1) h₂ rfl
    rw [if_pos (by simp [isAtMark, isAt, h₂.2.peek_kind, hnext, markToken])]
    refine (Parser.Passes.lift (advance_shows h₂.2)).discard.bind fun _ s₃ h₃ => .pure ?_
    refine ⟨⟨done ++ [i], j :: ahead, by simp, by simp, by simp [hxs, h₂.1], h₃⟩, ?_⟩
    rw [h₃.length_after, hs'.length_after]
    simp only [List.length_append, List.length_cons]
    omega

/-! ## Tuples -/

theorem tupleElementWith_accepts {e : TupleElement} (he : e.IsPrintable) (hn : e.tokens.length < n)
    (hs : s.Shows (e.tokens ++ u :: rest)) (hu : u = markToken .comma ∨ u = markToken .rightParen) :
    Parser.Accepts source s (tupleElementWith type) fun x s' =>
      erase x = erase e ∧ s'.Shows (u :: rest) := by
  obtain ⟨t, name?⟩ := e
  rw [TupleElement.IsPrintable] at he
  rw [TupleElement.tokens, List.length_append] at hn
  rw [TupleElement.tokens, List.append_assoc] at hs
  have hu : u.endsType = true ∧ u.kind ≠ .identifier := by
    rcases hu with rfl | rfl <;> simp [Token.endsType, markToken]
  have hend : EndsType (name?.toList.map Ident.token ++ u :: rest) := by
    cases name? with
    | none => exact .cons hu.1
    | some i => exact .cons rfl
  refine (h t s _ he.1 (by omega) hs hend).bind fun x s₁ h₁ => .get fun _ => ?_
  obtain ⟨hx, h₁⟩ := h₁
  cases name? with
  | none =>
    have h₁ : s₁.Shows (u :: rest) := h₁
    dsimp only
    rw [if_neg (mt isAt_iff.1 (h₁.peek_kind ▸ hu.2))]
    refine Parser.Passes.bind (R := fun y? s' => y? = none ∧ s' = s₁) (.pure ⟨rfl, rfl⟩)
      fun y? s₂ h₂ => .pure ?_
    obtain ⟨rfl, rfl⟩ := h₂
    exact ⟨by simp [hx], h₁⟩
  | some i =>
    have h₁ : s₁.Shows (i.token :: u :: rest) := h₁
    dsimp only
    rw [if_pos ((@isAt_iff _ .identifier).2 h₁.peek_kind)]
    refine Parser.Passes.bind (R := fun y? s' => erase y? = erase (some i) ∧ s'.Shows (u :: rest))
      (.map ((ident_accepts h₁ rfl).mono fun y s₂ h₂ => ⟨?_, h₂.2⟩)) fun y? s₂ h₂ =>
        .pure ⟨by simp [hx, h₂.1], h₂.2⟩
    exact congrArg some (erase_ident_eq h₂.1)

theorem tupleWith_accepts {es : List TupleElement} (hes : ∀ e ∈ es, e.IsPrintable)
    (hlen : 2 ≤ es.length) (hn : ∀ e ∈ es, e.tokens.length < n)
    (hs : s.Shows (markToken .leftParen :: (separated .comma (es.map TupleElement.tokens) ++
      markToken .rightParen :: rest))) :
    Parser.Accepts source s (tupleWith type) fun xs s' => erase xs = erase es ∧ s'.Shows rest := by
  refine (expect_accepts hs rfl).discard.bind fun _ s₁ h₁ => ?_
  refine (commaSeparated_accepts (Q := fun x e => erase x = erase e) h₁
    (List.ne_nil_of_length_pos (by omega)) (by simp [markToken]) fun e he v us s' hv hs' =>
      tupleElementWith_accepts h (hes e he) (hn e he) hs' hv).bind fun xs s₂ h₂ => ?_
  refine (expect_accepts h₂.2 rfl).discard.bind fun _ s₃ h₃ => ?_
  have hxs := h₂.1.length_eq
  rw [if_neg (by omega)]
  exact .pure ⟨erase_eq_of_forall₂ h₂.1, h₃⟩

/-! ## Types without suffixes -/

theorem typeBaseWith_accepts {shape : TypeShape} (hp : shape.IsPrintable)
    (hb : shape.isBase = true) (hn : shape.tokens.length ≤ n)
    (hs : s.Shows (shape.tokens ++ rest)) (hr : EndsName rest) :
    Parser.Accepts source s (typeBaseWith type) fun x s' =>
      erase x = erase shape ∧ s'.Shows rest := by
  cases shape with
  | predefined word =>
    rw [TypeShape.IsPrintable] at hp
    rw [TypeShape.tokens] at hs
    refine .get fun _ => ?_
    dsimp only
    rw [if_pos (by rw [ParserState.Shows.peek_kind hs]; exact hp)]
    refine (Parser.Passes.lift (advance_shows hs)).discard.bind fun _ s₁ h₁ => .pure ⟨?_, h₁⟩
    rw [ParserState.Shows.peek_lexeme hs]
    rfl
  | named k =>
    rw [TypeShape.IsPrintable] at hp
    rw [TypeShape.tokens] at hs hn
    have hk : s.peek.kind = .identifier := by
      obtain ⟨u, us, hu, hk⟩ := hp.tokens_begin
      rw [hu] at hs
      exact (ParserState.Shows.peek_kind hs).trans hk
    refine .get fun _ => ?_
    dsimp only
    rw [if_neg (by simp [hk, TokenKind.isPredefinedType]), if_neg (by simp [hk]), if_pos hk]
    exact (nameWith_reads h hp hn hs hr).bind fun x s₁ h₁ => .pure ⟨by simp [h₁.1], h₁.2⟩
  | tuple es =>
    rw [TypeShape.IsPrintable] at hp
    rw [TypeShape.tokens, List.length_cons, List.length_append] at hn
    have hs : s.Shows (markToken .leftParen :: (separated .comma (es.map TupleElement.tokens) ++
        markToken .rightParen :: rest)) := by
      rw [TypeShape.tokens] at hs
      simpa using hs
    have hk : s.peek.kind = .punct .leftParen := hs.peek_kind
    have hlen (e : TupleElement) (he : e ∈ es) : e.tokens.length < n := by
      have := @length_le_separated e.tokens .comma _ (List.mem_map_of_mem he)
      omega
    refine .get fun _ => ?_
    dsimp only
    rw [if_neg (by simp [hk, TokenKind.isPredefinedType]), if_pos hk]
    exact (tupleWith_accepts h hp.2 hp.1 hlen hs).bind fun x s₁ h₁ => .pure ⟨by simp [h₁.1], h₁.2⟩
  | array => cases hb
  | nullable => cases hb
  | pointer => cases hb

end

/-! ## Suffixes -/

theorem typeSuffix?_declines {t : TypeSyntax} (h : s.peek.endsType = true) :
    Parser.Accepts source s (typeSuffix? t) fun shape? s' => shape? = none ∧ s' = s := by
  refine .get fun _ => ?_
  have hne {p : Punct} (hp : (⟨.punct p, "", default⟩ : Token).endsType = false) :
      ¬ s.isAtMark p = true := mt isAtMark_iff.1 (Token.endsType_ne h hp)
  rw [if_neg (hne rfl), if_neg (hne rfl), if_neg (by simp [isAtRank, hne (p := .leftBracket) rfl])]
  exact .pure ⟨rfl, rfl⟩

theorem rank_accepts {n : Nat} (hn : 0 < n) (hs : s.Shows (rankTokens n ++ rest)) :
    Parser.Accepts source s rank fun k s' => k = n ∧ s'.Shows rest := by
  have hs : s.Shows (markToken .leftBracket :: (List.replicate (n - 1) (markToken .comma) ++
      markToken .rightBracket :: rest)) := by
    simpa [rankTokens] using hs
  refine (Parser.Passes.lift (advance_shows hs)).discard.bind fun _ s₁ h₁ => .get fun _ => ?_
  have hcommas : (s₁.after.takeWhile fun t => t.kind == .punct .comma).length = n - 1 := by
    have hmap : (erase s₁.after).takeWhile (fun t => t.kind == .punct .comma) =
        erase (s₁.after.takeWhile fun t => t.kind == .punct .comma) := by
      show (s₁.after.map erase).takeWhile _ = _
      rw [List.takeWhile_map]
      rfl
    rw [← length_erase, ← hmap, h₁, List.takeWhile_append_of_pos]
    · simp [markToken]
    · intro t ht
      rw [List.eq_of_mem_replicate ht]
      rfl
  dsimp only
  rw [hcommas]
  refine .andThen (advanceBy_accepts h₁ List.length_replicate) fun _ s₂ h₂ => ?_
  exact (expect_accepts h₂ rfl).discard.bind fun _ s₃ h₃ => .pure ⟨by omega, h₃⟩

theorem typeFrom_accepts {start : Span} {shape : TypeShape} (h : start.Inside source) :
    Reader.Accepts source s (typeFrom start shape) fun x s' =>
      erase x = ⟨erase shape, "", default⟩ ∧ s' = s :=
  (textFrom_accepts h).bind fun _ s₁ h₁ => .get fun _ => .pure ⟨by simp, h₁⟩

/-- One suffix of the type `x`. -/
theorem suffixAt_accepts {start : Span} {x t : TypeSyntax} {f : TypeSuffix} (hf : f.IsPrintable)
    (hx : erase x = t) (hstart : start.Inside source) (hs : s.Shows (f.tokens ++ rest)) :
    Parser.Accepts source s (suffixAt start x) fun r s' =>
      ∃ y, r = .next y ∧ erase y = f.on t ∧ s'.Shows rest := by
  have main : Parser.Accepts source s (typeSuffix? x) fun shape? s' =>
      ∃ shape, shape? = some shape ∧ (⟨erase shape, "", default⟩ : TypeSyntax) = f.on t ∧
        s'.Shows rest := by
    refine .get fun _ => ?_
    cases f with
    | nullable =>
      have hs : s.Shows (markToken .question :: rest) := hs
      rw [if_pos (isAtMark_iff.2 hs.peek_kind)]
      refine (Parser.Passes.lift (advance_shows hs)).discard.bind fun _ s₁ h₁ => .pure ?_
      exact ⟨_, rfl, by simp [hx, TypeSuffix.on], h₁⟩
    | pointer =>
      have hs : s.Shows (markToken .star :: rest) := hs
      rw [if_neg (by simp [isAtMark, isAt, hs.peek_kind, markToken]),
        if_pos (isAtMark_iff.2 hs.peek_kind)]
      refine (Parser.Passes.lift (advance_shows hs)).discard.bind fun _ s₁ h₁ => .pure ?_
      exact ⟨_, rfl, by simp [hx, TypeSuffix.on], h₁⟩
    | array n =>
      have hs' : s.Shows (markToken .leftBracket :: (List.replicate (n - 1) (markToken .comma) ++
          markToken .rightBracket :: rest)) := by
        simpa [TypeSuffix.tokens, rankTokens] using hs
      have hk : s.peek.kind = .punct .leftBracket := hs'.peek_kind
      have hat : isAtRank s = true := by
        have hnext : (s.peekAt 1).kind = .punct .rightBracket ∨
            (s.peekAt 1).kind = .punct .comma := by
          cases hn : n - 1 with
          | zero =>
            rw [hn] at hs'
            exact .inl (hs'.peekAt_kind (n := 1) rfl)
          | succ k =>
            rw [hn] at hs'
            exact .inr (hs'.peekAt_kind (n := 1) rfl)
        simpa [isAtRank, isAtMark, isAt, hk] using hnext
      rw [if_neg (by simp [isAtMark, isAt, hk]), if_neg (by simp [isAtMark, isAt, hk]), if_pos hat]
      refine (rank_accepts hf hs).bind fun k s₁ h₁ => .pure ?_
      obtain ⟨rfl, h₁⟩ := h₁
      exact ⟨_, rfl, by simp [hx, TypeSuffix.on], h₁⟩
  refine main.bind fun shape? s₁ h₁ => ?_
  obtain ⟨shape, rfl, hshape, h₁⟩ := h₁
  refine .andThen (typeFrom_accepts hstart) fun y s₂ h₂ => .pure ?_
  obtain ⟨hy, rfl⟩ := h₂
  exact ⟨y, rfl, hy.trans hshape, h₁⟩

/-- The suffixes `fs` of the type `x`, up to what ends a type. -/
theorem suffixes_accept {start : Span} {x t : TypeSyntax} {fs : List TypeSuffix}
    (hfs : ∀ f ∈ fs, f.IsPrintable) (hx : erase x = t) (hstart : start.Inside source)
    (hs : s.Shows (fs.flatMap TypeSuffix.tokens ++ rest)) (hr : EndsType rest) :
    Parser.Accepts source s (loopOrFail (suffixAt start) x) fun y s' =>
      erase y = fs.foldl TypeSuffix.on t ∧ s'.Shows rest := by
  refine .loop (I := fun y s' => ∃ done ahead, fs = done ++ ahead ∧
    erase y = done.foldl TypeSuffix.on t ∧ s'.Shows (ahead.flatMap TypeSuffix.tokens ++ rest))
    ⟨[], fs, rfl, hx, hs⟩ fun y s' hI => ?_
  obtain ⟨done, ahead, rfl, hy, hs'⟩ := hI
  cases ahead with
  | nil =>
    have hs' : s'.Shows rest := hs'
    refine .good fun hg => ?_
    have hend : s'.peek.endsType = true :=
      hs'.peek_of (p := fun k => (⟨k, "", default⟩ : Token).endsType = true) hg hr rfl
    refine (typeSuffix?_declines hend).bind fun shape? s₂ h₂ => ?_
    obtain ⟨rfl, rfl⟩ := h₂
    exact .pure ⟨by simpa using hy, hs'⟩
  | cons f ahead =>
    have hs' : s'.Shows (f.tokens ++ (ahead.flatMap TypeSuffix.tokens ++ rest)) := by
      simpa using hs'
    refine (suffixAt_accepts (hfs f (by simp)) hy hstart hs').mono fun r s₂ h₂ => ?_
    obtain ⟨z, rfl, hz, h₂⟩ := h₂
    refine ⟨⟨done ++ [f], ahead, by simp, by simp [hz], h₂⟩, ?_⟩
    have hpos : 0 < f.tokens.length := by cases f <;> simp [TypeSuffix.tokens, rankTokens]
    rw [h₂.length_after, hs'.length_after, @List.length_append _ f.tokens]
    omega

/-! ## Types -/

/-- What follows the part of a type before its suffixes does not go on with a name. -/
theorem endsName_suffixes {fs : List TypeSuffix} (hr : EndsType rest) :
    EndsName (fs.flatMap TypeSuffix.tokens ++ rest) := by
  cases fs with
  | nil => exact hr.endsName
  | cons f fs => cases f <;> exact .cons rfl

section
variable {type : Parser TypeSyntax} {n : Nat} (h : ReadsTypes source type n)
include h

/-- A type that begins with no other type, with the suffixes `fs` behind it. -/
theorem typeWith_base {shape : TypeShape} {text : String} {span : Span} {fs : List TypeSuffix}
    (hb : shape.isBase = true) (hp : (⟨shape, text, span⟩ : TypeSyntax).IsPrintable)
    (hn : (⟨shape, text, span⟩ : TypeSyntax).tokens.length ≤ n) (hfs : ∀ f ∈ fs, f.IsPrintable)
    (hs : s.Shows ((⟨shape, text, span⟩ : TypeSyntax).tokens ++
      (fs.flatMap TypeSuffix.tokens ++ rest))) (hr : EndsType rest) :
    Parser.Accepts source s (typeWith type) fun x s' =>
      erase x = fs.foldl TypeSuffix.on (erase (⟨shape, text, span⟩ : TypeSyntax)) ∧
        s'.Shows rest := by
  rw [TypeSyntax.IsPrintable] at hp
  rw [TypeSyntax.tokens] at hn hs
  refine .get fun hg => (typeBaseWith_accepts h hp hb hn hs (endsName_suffixes hr)).bind
    fun x s₁ h₁ => ?_
  refine .andThen (typeFrom_accepts hg.peek_inside) fun y s₂ h₂ => ?_
  obtain ⟨hy, rfl⟩ := h₂
  exact suffixes_accept hfs (by simp [hy, h₁.1]) hg.peek_inside h₁.2 hr

/-- A type with the suffixes `fs` behind its own ones. -/
theorem typeWith_reads : ∀ {t : TypeSyntax}, t.IsPrintable → t.tokens.length ≤ n →
    ∀ (fs : List TypeSuffix), (∀ f ∈ fs, f.IsPrintable) →
      s.Shows (t.tokens ++ (fs.flatMap TypeSuffix.tokens ++ rest)) → EndsType rest →
        Parser.Accepts source s (typeWith type) fun x s' =>
          erase x = fs.foldl TypeSuffix.on (erase t) ∧ s'.Shows rest
  | ⟨.array e k, text, span⟩, hp, hn, fs, hfs, hs, hr => by
    rw [TypeSyntax.IsPrintable, TypeShape.IsPrintable] at hp
    rw [TypeSyntax.tokens, TypeShape.tokens] at hn hs
    rw [List.length_append] at hn
    have := typeWith_reads (t := e) hp.1 (by omega) (.array k :: fs)
      (List.forall_mem_cons.2 ⟨hp.2, hfs⟩) (by simpa [TypeSuffix.tokens] using hs) hr
    simpa [TypeSuffix.on] using this
  | ⟨.nullable e, text, span⟩, hp, hn, fs, hfs, hs, hr => by
    rw [TypeSyntax.IsPrintable, TypeShape.IsPrintable] at hp
    rw [TypeSyntax.tokens, TypeShape.tokens] at hn hs
    rw [List.length_append] at hn
    have := typeWith_reads (t := e) hp (by omega) (.nullable :: fs)
      (List.forall_mem_cons.2 ⟨⟨⟩, hfs⟩) (by simpa [TypeSuffix.tokens] using hs) hr
    simpa [TypeSuffix.on] using this
  | ⟨.pointer e, text, span⟩, hp, hn, fs, hfs, hs, hr => by
    rw [TypeSyntax.IsPrintable, TypeShape.IsPrintable] at hp
    rw [TypeSyntax.tokens, TypeShape.tokens] at hn hs
    rw [List.length_append] at hn
    have := typeWith_reads (t := e) hp (by omega) (.pointer :: fs)
      (List.forall_mem_cons.2 ⟨⟨⟩, hfs⟩) (by simpa [TypeSuffix.tokens] using hs) hr
    simpa [TypeSuffix.on] using this
  | ⟨.predefined word, text, span⟩, hp, hn, fs, hfs, hs, hr =>
    typeWith_base h rfl hp hn hfs hs hr
  | ⟨.named k, text, span⟩, hp, hn, fs, hfs, hs, hr =>
    typeWith_base h rfl hp hn hfs hs hr
  | ⟨.tuple es, text, span⟩, hp, hn, fs, hfs, hs, hr =>
    typeWith_base h rfl hp hn hfs hs hr

end

/-- **A type is read** where its tokens stand before what ends it, if the bound on the depth is
    no less than their number. -/
theorem typeWithin_reads (depth : Nat) : ReadsTypes source (typeWithin depth) depth := by
  induction depth with
  | zero => exact fun _ _ _ _ hn => absurd hn (Nat.not_lt_zero _)
  | succ depth ih =>
    intro t s rest hp hn hs hr
    exact typeWith_reads ih hp (by omega) [] (by simp) hs hr

theorem type_reads {t : TypeSyntax} (hp : t.IsPrintable) (hs : s.Shows (t.tokens ++ rest))
    (hr : EndsType rest) :
    Parser.Accepts source s type fun x s' => erase x = erase t ∧ s'.Shows rest := by
  refine .andThen rounds_accepts fun n s₁ h₁ => ?_
  obtain ⟨rfl, rfl⟩ := h₁
  refine typeWithin_reads _ t s₁ rest hp ?_ hs hr
  rw [hs.length_after, List.length_append]
  omega

theorem name_reads {k : Name} (hp : k.IsPrintable) (hs : s.Shows (k.tokens ++ rest))
    (hr : EndsName rest) :
    Parser.Accepts source s name fun x s' => erase x = erase k ∧ s'.Shows rest := by
  refine .andThen rounds_accepts fun n s₁ h₁ => ?_
  obtain ⟨rfl, rfl⟩ := h₁
  refine nameWith_reads (typeWithin_reads _) hp ?_ hs hr
  rw [hs.length_after, List.length_append]
  omega

end Parser

end CommandModules

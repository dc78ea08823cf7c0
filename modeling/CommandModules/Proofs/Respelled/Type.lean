/-
  Command modules — texts that spell the same tokens.

  * `SpellAlike a b`: the texts spell the same tokens;
  * `TypeSyntax.Respells`: two types differ in places, and their texts spell the same tokens;
    a type that is no name is one word, which is written in one way only, or it ends in a
    bracket or another mark;
  * `expression_abreast`, `type_abreast`, `name_abreast`: what is read abreast is written with
    the same tokens.
-/
import CommandModules.Proofs.Respelled.Rules
import CommandModules.Proofs.Taken.Type

namespace CommandModules

open ParserState

/-! ## Texts -/

/-- The texts spell the same tokens. -/
def SpellAlike (a b : String) : Prop :=
  ∀ ts, Spells a.toList ts ↔ Spells b.toList ts

namespace SpellAlike

variable {a b c : String} {ts : List Token}

theorem refl (a : String) : SpellAlike a a :=
  fun _ => .rfl

theorem symm (h : SpellAlike a b) : SpellAlike b a :=
  fun ts => (h ts).symm

/-- A text spells one list of tokens only. -/
theorem of_spells (ha : Spells a.toList ts) (hb : Spells b.toList ts) : SpellAlike a b := by
  intro us
  constructor
  · intro h
    rwa [← h.tokensOf_eq, ha.tokensOf_eq]
  · intro h
    rwa [← h.tokensOf_eq, hb.tokensOf_eq]

end SpellAlike

/-- A single token is written in one way only. -/
theorem Spells.eq_lexeme {cs : List Char} {t : Token} (h : Spells cs [t]) : cs = t.lexeme.toList := by
  have hb := (h.begins [] .nil).2
  have hr := h.reads [] .nil
  rw [List.append_nil] at hb hr
  cases hr with
  | token hg hs hl hn =>
    rw [hb] at hg
    rw [(GapEnd.mk.inj hg).1, hl, ← hn.eq_of_nil, List.append_nil, String.toList_ofList]

/-! ## Names -/

theorem value_erase (i : Ident) : (erase i).value = i.value := rfl

theorem ident_erase (s : NameSegment) : (erase s).ident = erase s.ident := by
  cases s
  rw [erase_nameSegment]

theorem arity_erase (s : NameSegment) : (erase s).arity = s.arity := by
  cases s
  rw [erase_nameSegment]
  exact length_erase _

section
variable (n : Name)

theorem segments_erase : (erase n).segments = n.segments.map erase := by
  cases n
  rw [erase_name]
  rfl

theorem alias?_erase : (erase n).alias? = erase n.alias? := by
  cases n
  rw [erase_name]

theorem path_erase : (erase n).path = n.path := by
  rw [Name.path, Name.path, segments_erase, List.map_map]
  exact List.map_congr_left fun s _ => by rw [Function.comp_apply, ident_erase, value_erase]

theorem isGlobal_erase : (erase n).isGlobal = n.isGlobal := by
  rw [Name.isGlobal, Name.isGlobal, alias?_erase]
  cases n.alias? <;> rfl

theorem simpleName_erase : (erase n).simpleName = n.simpleName := by
  rw [Name.simpleName, Name.simpleName, segments_erase, List.getLast?_map]
  cases n.segments.getLast? with
  | none => rfl
  | some s =>
    show (erase s).ident.value = _
    rw [ident_erase, value_erase]

theorem lastArity_erase : (erase n).lastArity = n.lastArity := by
  rw [Name.lastArity, Name.lastArity, segments_erase, List.getLast?_map]
  cases n.segments.getLast? with
  | none => rfl
  | some s => exact arity_erase s

end

/-! ## Types -/

/-- The marks that types end in which are neither names nor words. -/
def TokenKind.endsType (kind : TokenKind) : Bool :=
  kind == .punct .rightBracket || kind == .punct .question || kind == .punct .star ||
    kind == .punct .rightParen

/-- Is the last of the tokens a mark that types end in? -/
def EndInMark (ts : List Token) : Prop :=
  ts.getLast?.any (fun t => t.kind.endsType) = true

instance (ts : List Token) : Decidable (EndInMark ts) :=
  inferInstanceAs (Decidable (_ = true))

theorem endInMark_append {ts us : List Token} (h : EndInMark us) : EndInMark (ts ++ us) := by
  obtain ⟨t, ht, hk⟩ := Option.any_eq_true .. |>.1 h
  rw [EndInMark, List.getLast?_append, ht]
  exact hk

theorem endInMark_one {m : Punct} {ts : List Token} (h : Parser.IsOne (.punct m) ts)
    (hm : (TokenKind.punct m).endsType = true) : EndInMark ts := by
  obtain ⟨t, rfl, ht⟩ := h
  rw [← ht] at hm
  exact hm

theorem endInMark_erase {ts : List Token} : EndInMark (erase ts) ↔ EndInMark ts := by
  rw [EndInMark, EndInMark, show (erase ts).getLast? = ts.getLast?.map erase from List.getLast?_map,
    Option.any_map]
  rfl

/-- The types differ in places, and their texts spell the same tokens. -/
structure TypeSyntax.Respells (t u : TypeSyntax) : Prop where
  erase_eq : Erase.erase t = Erase.erase u
  text : SpellAlike t.text u.text
  /-- where it is no name, the text may count -/
  other : t.name? = none → t.text = u.text ∨ EndInMark (tokensOf t.text) ∧ EndInMark (tokensOf u.text)

theorem TypeSyntax.Respells.refl (t : TypeSyntax) : t.Respells t :=
  ⟨rfl, .refl _, fun _ => .inl rfl⟩

/-- A type that is no name is one word or ends in a mark. -/
def TypeShape.Ends (shape : TypeShape) (ts : List Token) : Prop :=
  (∀ n, shape ≠ .named n) → ts.length = 1 ∨ EndInMark ts

namespace Parser

variable {source : List Char} {s : ParserState}

section
variable {type : Parser TypeSyntax} {n : Nat}
  (hs : ∀ s', s'.after.length < n → Parser.Safe source s' type fun _ _ => True)
include hs

theorem tupleWith_ends (hn : s.after.length ≤ n) :
    Parser.Gives source s (tupleWith type) fun _ ts _ => EndInMark ts := by
  refine .bind_safe (R := fun _ _ _ => True) expectMark_safe.discard
    (.mono (.of_safe expectMark_safe.discard) fun _ _ _ _ => ⟨⟩) fun _ ts s₁ h₁ hpos => ?_
  have hlen {k : Nat} {s' : ParserState} (hk : Moves k s₁ s') : s'.after.length < n := by
    have := h₁.moves.length_after
    have := hk.length_after
    omega
  refine .pass (commaSeparated_safe fun _ s' hk => tupleElementWith_safe hs (hlen hk)) fun _ us _ _ => ?_
  refine expectMark_gives.discard.bind fun _ vs _ _ => ?_
  split
  · refine .get fun _ _ => ?_
    exact Parser.Gives.bind (R := fun _ _ _ => False) .throw fun _ _ _ _ => .pure fun hf => hf.elim
  · refine .pure fun hv _ => ?_
    rw [List.append_nil]
    exact endInMark_append (endInMark_append (endInMark_one hv rfl))

theorem typeBaseWith_ends (hn : s.after.length ≤ n) :
    Parser.Gives source s (typeBaseWith type) fun shape ts _ => shape.Ends ts := by
  refine .get fun _ _ => ?_
  dsimp only
  split
  · rename_i hk
    have hne : s.peek.kind ≠ .eof := by
      intro he
      simp [he, TokenKind.isPredefinedType] at hk
    refine (Parser.Gives.lift (advance_takes_one hne)).discard.bind fun _ _ _ _ => .pure fun ht _ => ?_
    exact .inl (by rw [ht]; rfl)
  split
  · refine (tupleWith_ends hs hn).bind fun _ _ _ _ => .pure fun ht _ => .inr ?_
    rwa [List.append_nil]
  split
  · exact .pass (nameWith_safe hs hn) fun _ _ _ _ => .pure fun h => absurd rfl (h _)
  · exact failAt_gives

end

theorem rank_ends (hr : s.isAtMark .leftBracket = true) :
    Parser.Gives source s rank fun _ ts _ => EndInMark ts := by
  refine .pass (Parser.Safe.lift (advance_consumes (peek_ne_eof_of_mark hr))).discard fun _ _ _ _ => ?_
  refine .get fun _ _ => .passReader (advanceBy_safe (List.takeWhile_prefix _).length_le)
    fun _ _ _ _ => ?_
  refine expectMark_gives.discard.bind fun _ vs _ _ => .pure fun hv => ?_
  rw [List.append_nil]
  exact endInMark_append (endInMark_append (endInMark_one hv rfl))

/-- A suffix ends in a mark. -/
theorem typeSuffix?_ends {t : TypeSyntax} : Parser.Gives source s (typeSuffix? t) fun shape? ts _ =>
    if shape?.isSome then EndInMark ts else ts = [] := by
  have mark {mark : Punct} (hm : s.isAtMark mark = true)
      (he : (TokenKind.punct mark).endsType = true) (shape : TypeShape) :
      Parser.Gives source s (do discard (liftM advance); return some shape) fun shape? ts _ =>
        if shape?.isSome then EndInMark ts else ts = [] := by
    refine (Parser.Gives.lift (advance_takes_one (peek_ne_eof_of_mark hm))).discard.bind
      fun _ _ _ _ => .pure fun hu => ?_
    rw [List.append_nil, hu]
    exact endInMark_one ⟨s.peek, rfl, beq_iff_eq.1 hm⟩ he
  refine .get fun _ _ => ?_
  split
  · exact mark ‹_› rfl _
  split
  · exact mark ‹_› rfl _
  split
  · rename_i hr
    refine (rank_ends (Bool.and_eq_true_iff.1 hr).1).bind fun _ _ _ _ => .pure fun hu => ?_
    rwa [List.append_nil]
  · exact .pure rfl

theorem typeFrom_ends {start : Span} (hstart : start.Inside source) {shape : TypeShape} :
    Reader.Gives source s (typeFrom start shape) fun t ts _ => t.shape = shape ∧ ts = [] := by
  refine .bind (R := fun _ ts _ => ts = []) ?_ fun _ _ _ _ => .get fun _ _ => .pure fun ht => ⟨rfl, ?_⟩
  · exact (Reader.Gives.of_safe (textFrom_safe hstart)).mono fun _ _ _ h =>
      List.eq_nil_of_length_eq_zero h
  · rw [ht, List.append_nil]

theorem suffixAt_ends {start : Span} (hstart : start.Inside source) {t : TypeSyntax} {ts : List Token} :
    Parser.Gives source s (suffixAt start t) fun r us _ => t.shape.Ends ts →
      r.Leads (fun u us _ => u.shape.Ends us) (fun u us _ => u.shape.Ends us) (ts ++ us) s := by
  refine typeSuffix?_ends.bind fun shape? us s₁ _ => ?_
  cases shape? with
  | some shape =>
    refine .andThen (typeFrom_ends hstart) fun u vs _ _ => .pure fun hv hu _ _ => .inr ?_
    rw [hv.2, List.append_nil, List.append_nil]
    exact endInMark_append hu
  | none =>
    refine .pure fun hu ht => ?_
    rw [show us = [] from hu]
    simpa [Round.Leads] using ht

theorem typeWith_ends {type : Parser TypeSyntax}
    (hs : ∀ s', s'.after.length < s.after.length → Parser.Safe source s' type fun _ _ => True) :
    Parser.Gives source s (typeWith type) fun t ts _ => t.shape.Ends ts := by
  refine .get fun hg _ => (typeBaseWith_ends hs (Nat.le_refl _)).bind fun _ ts _ _ => ?_
  refine .andThen (typeFrom_ends hg.peek_inside) fun t us _ _ => ?_
  refine Parser.Gives.mono (R := fun u vs _ => t.shape.Ends (ts ++ us) → u.shape.Ends (ts ++ us ++ vs))
    (.loop (I := fun u vs _ => t.shape.Ends (ts ++ us) → u.shape.Ends (ts ++ us ++ vs))
      (fun _ _ _ _ => suffixAt_safe hg.peek_inside) (by simp) fun x vs _ _ => ?_)
    fun u vs _ hu ht hts => ?_
  · refine (@suffixAt_ends source _ _ hg.peek_inside _ (ts ++ us ++ vs)).mono fun r ws _ hr hx => ?_
    cases r <;> exact fun ht => by simpa [Round.Leads] using hr (hx ht)
  · rw [← List.append_assoc]
    refine hu ?_
    rw [ht.1, ht.2, List.append_nil]
    exact hts

/-- What two lemmas say of the same parser. -/
theorem Gives.and {α : Type} {p : Parser α} {Q R : α → List Token → Prop}
    (h : Parser.Gives source s p fun a ts _ => Q a ts)
    (h' : Parser.Gives source s p fun a ts _ => R a ts) :
    Parser.Gives source s p fun a ts _ => Q a ts ∧ R a ts := by
  intro hs hsp
  obtain ⟨ts, ht, hq⟩ := h hs hsp
  obtain ⟨us, hu, hr⟩ := h' hs hsp
  obtain rfl : us = ts := List.append_cancel_right (hu.after_eq.symm.trans ht.after_eq)
  refine ⟨us, ht, fun he => ?_⟩
  have hq := hq he
  have hr := hr he
  generalize (p.run.run s).1 = r at hq hr ⊢
  cases r with
  | ok a => exact ⟨hq, hr⟩
  | error => exact ⟨⟩

theorem type_ends : Parser.Gives source s type fun t ts _ => t.shape.Ends ts := by
  refine .bind_safe (.lift rounds_safe) (.lift rounds_gives) fun n ts s' h hn => ?_
  obtain ⟨hts, rfl⟩ := hn
  have := h.moves.length_after
  refine Parser.Gives.mono (R := fun t us _ => t.shape.Ends us) ?_ fun t us _ ht hts => by rwa [hts]
  rw [typeWithin]
  exact typeWith_ends fun _ h' => typeWithin_safe (by omega)

/-- The text of a name spells its tokens. -/
theorem nameWith_spells {type : Parser TypeSyntax} {n : Nat}
    (hs : ∀ s', s'.after.length < n → Parser.Safe source s' type fun _ _ => True)
    (h : ∀ s', s'.after.length < n → Parser.Gives source s' type fun _ ts _ => TypeTokens ts)
    (hn : s.after.length ≤ n) : Parser.Gives source s (nameWith type) fun name ts _ =>
      Spells name.text.toList (erase ts) := by
  refine .get fun hg _ => nameAlias_gives.bind fun _ _ s₁ h₁ => ?_
  refine Parser.Gives.bind (R := fun _ ts _ => ts ≠ []) ?_ fun _ ts s₂ h₂ => ?_
  · have hlen {k : Nat} {s' : ParserState} (hk : Moves k s₁ s') : s'.after.length ≤ n := by
      have := h₁.moves.length_after
      have := hk.length_after
      omega
    refine .loop (I := fun _ _ _ => True)
      (fun x k s' hk => (segmentAndDot_safe hs (hlen hk)).mono fun r m hr => ?_) ⟨⟩
      fun x ts s' ht => (segmentAndDot_gives hs h (hlen ht.moves)).mono fun r us s'' hu hI => ?_
    · cases r with
      | next => exact ⟨⟨⟩, hr.2⟩
      | done => exact ⟨⟩
    · cases r with
      | next => exact ⟨⟩
      | done => exact List.append_ne_nil_of_right_ne_nil _ hu.2
  · refine .andThen (textFrom_gives hg (h₁.trans h₂)) fun _ _ _ _ => .get fun _ _ => .pure
      fun hv hu ht => ?_
    rw [List.append_nil, hv.1, List.append_nil]
    exact hv.2 (List.append_ne_nil_of_right_ne_nil _ hu)

theorem name_spells : Parser.Gives source s name fun name ts _ => Spells name.text.toList (erase ts) := by
  refine .bind_safe (.lift rounds_safe) (.lift rounds_gives) fun n ts s' h hn => ?_
  obtain ⟨hts, rfl⟩ := hn
  have := h.moves.length_after
  refine (nameWith_spells (fun _ h' => typeWithin_safe h') (fun _ h' => ?_) (by omega)).mono
    fun _ us _ hu hts => ?_
  · exact (typeWithin_gives h').mono fun _ _ _ ht => ht.1
  · rwa [hts]

/-! ## Read abreast -/

theorem expression_abreast (terminators : List TokenKind) :
    Parser.Abreast (expression terminators) (expression terminators) fun e e' =>
      SpellAlike e.text e'.text := by
  refine (Parser.Abreast.of_gives (expression_alike _) (fun _ _ => expression_gives)
    fun _ _ => expression_gives).mono fun e e' he => ?_
  obtain ⟨ts, us, htu, ht, hu⟩ := he
  exact .of_spells ht.2 (htu ▸ hu.2)

/-- A type of one token is written in one way only. -/
theorem respells_of_written {t u : TypeSyntax} {ts us : List Token} (h : erase t = erase u)
    (htu : erase ts = erase us) (ht : t.Written ts) (hu : u.Written us) (he : t.shape.Ends ts) :
    t.Respells u where
  erase_eq := h
  text := .of_spells ht.2.2 (htu ▸ hu.2.2)
  other hn := by
    have hspell : Spells u.text.toList (erase ts) := htu ▸ hu.2.2
    have hshape (n : Name) (hs : t.shape = .named n) : False := by
      rw [TypeSyntax.name?, hs] at hn
      cases hn
    obtain hone | hend := he hshape
    · obtain ⟨w, rfl⟩ := List.length_eq_one_iff.1 hone
      refine .inl (String.toList_inj.1 ?_)
      rw [ht.2.2.eq_lexeme, hspell.eq_lexeme]
    · rw [← endInMark_erase] at hend
      refine .inr ⟨?_, ?_⟩
      · rwa [ht.2.2.tokensOf_eq]
      · rwa [hspell.tokensOf_eq]

/-- **Types that are read abreast are written with the same tokens.** -/
theorem type_abreast : Parser.Abreast type type TypeSyntax.Respells := by
  refine (Parser.Abreast.of_gives type_alike (fun _ _ => type_gives.and type_ends)
    fun _ _ => type_gives.and type_ends).and_erase.mono fun t u h => ?_
  obtain ⟨htu, ts, us, hts, ht, hu⟩ := h
  exact respells_of_written htu hts ht.1 hu.1 ht.2

theorem name_abreast : Parser.Abreast name name fun n n' => SpellAlike n.text n'.text := by
  refine (Parser.Abreast.of_gives name_alike (fun _ _ => name_spells) fun _ _ => name_spells).mono
    fun n n' hn => ?_
  obtain ⟨ts, us, htu, ht, hu⟩ := hn
  exact .of_spells ht (htu ▸ hu)

end Parser

end CommandModules

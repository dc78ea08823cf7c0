/-
  Command modules — the tokens that the basic readers take.

  * `textFrom_gives`: the text of what was taken spells the tokens taken;
  * `skipGroup_gives`: a group that is skipped without an error is nested;
  * `commaSeparated_gives`, `whileAt_gives`: what holds of each item holds of all.
-/
import CommandModules.Proofs.Taken.Rules

namespace CommandModules.Parser

open ParserState Text

variable {α : Type} {source : List Char} {s : ParserState}

/-! ## Single tokens -/

/-- One token of this kind was taken. -/
def IsOne (kind : TokenKind) (ts : List Token) : Prop :=
  ∃ t, ts = [t] ∧ t.kind = kind

theorem takes_advance (hs : s.Good source) (h : s.peek.kind ≠ .eof) :
    Takes [s.peek] s s.advance := by
  obtain ⟨t, ts, ha⟩ := List.exists_cons_of_ne_nil (hs.after_ne_nil h)
  have hadv : s.advance = { s with before := t :: s.before, after := ts } := by
    simp [ParserState.advance, ha]
  have hpeek : s.peek = t := by simp [peek, ha]
  rw [hadv, hpeek]
  exact ⟨⟨rfl, rfl, ⟨[t], rfl, ha, rfl⟩, ⟨[], by simp⟩, rfl⟩, ha, rfl⟩

theorem advance_gives (h : s.peek.kind ≠ .eof) : Reader.Gives source s advance fun t ts _ =>
    t = s.peek ∧ ts = [s.peek] :=
  fun hs _ => ⟨[s.peek], takes_advance hs h, fun _ => ⟨rfl, rfl⟩⟩

/-- What is known if only the tokens taken count. -/
theorem advance_takes_one (h : s.peek.kind ≠ .eof) : Reader.Gives source s advance fun _ ts _ =>
    ts = [s.peek] :=
  (advance_gives h).mono fun _ _ _ ht => ht.2

/-- At the end of the text no token is taken. -/
theorem advance_takes_most : Reader.Gives source s advance fun _ ts _ =>
    ts = [] ∨ ts = [s.peek] := by
  intro hs hsp
  by_cases h : s.peek.kind = .eof
  · have hadv : s.advance = s := by
      simp [ParserState.advance, hs.peek_kind_eq_eof.1 h]
    refine ⟨[], ?_, fun _ => .inl rfl⟩
    show Takes [] s s.advance
    rw [hadv]
    exact .refl s
  · obtain ⟨ts, ht, hr⟩ := advance_takes_one h hs hsp
    exact ⟨ts, ht, fun he => .inr (hr he)⟩

theorem rounds_gives : Reader.Gives source s rounds fun _ ts _ => ts = [] :=
  (Reader.Gives.of_safe rounds_safe).mono fun _ _ _ h => List.eq_nil_of_length_eq_zero h.1

theorem failAt_gives {kind : ParseErrorKind} {what : String}
    {R : α → List Token → ParserState → Prop} : Parser.Gives source s (failAt kind what) R :=
  .get fun _ _ => .throw

theorem eat_gives {kind : TokenKind} (h : kind ≠ .eof) :
    Reader.Gives source s (eat kind) fun b ts _ => if b then IsOne kind ts else ts = [] := by
  refine .get fun _ _ => ?_
  split
  · rename_i ha
    refine (advance_takes_one (peek_ne_eof ha h)).discard.bind fun _ ts _ _ => .pure fun hts => ?_
    exact ⟨s.peek, by simp [hts], beq_iff_eq.1 ha⟩
  · exact .pure rfl

theorem eatMark_gives {mark : Punct} : Reader.Gives source s (eatMark mark) fun b ts _ =>
    if b then IsOne (.punct mark) ts else ts = [] :=
  eat_gives nofun

theorem expect_gives {kind : TokenKind} (h : kind ≠ .eof) :
    Parser.Gives source s (expect kind) fun _ ts _ => IsOne kind ts := by
  refine .get fun _ _ => ?_
  split
  · rename_i ha
    refine Parser.Gives.lift ((advance_takes_one (peek_ne_eof ha h)).mono fun _ _ _ hts => ?_)
    exact ⟨s.peek, hts, beq_iff_eq.1 ha⟩
  · exact failAt_gives

theorem expectMark_gives {mark : Punct} :
    Parser.Gives source s (expectMark mark) fun _ ts _ => IsOne (.punct mark) ts :=
  expect_gives nofun

theorem ident_gives : Parser.Gives source s ident fun i ts _ =>
    IsWord i.name .identifier ∧ IsOne .identifier ts := by
  refine .get fun hs _ => ?_
  split
  · rename_i ha
    refine .andThen (advance_gives (peek_ne_eof ha nofun)) fun _ _ _ _ => .pure fun ht => ?_
    exact ⟨ht.1 ▸ hs.peek_isWord ha, s.peek, by simp [ht.2], beq_iff_eq.1 ha⟩
  · exact failAt_gives

/-- The token behind the one that was taken. -/
theorem peek_of_takes_one {kind : TokenKind} {ts : List Token} {s' : ParserState}
    (h : Takes ts s s') (hts : IsOne kind ts) : s'.peek = s.peekAt 1 := by
  obtain ⟨t, rfl, -⟩ := hts
  rw [peekAt, h.after_eq, peek, h.moves.eof_eq, List.head?_eq_getElem?]
  rfl

/-! ## Nested tokens -/

theorem IsOne.ne_nil {kind : TokenKind} {ts : List Token} (h : IsOne kind ts) : ts ≠ [] := by
  obtain ⟨t, rfl, -⟩ := h
  simp

theorem IsOne.nested {kind : TokenKind} {ts : List Token} (h : IsOne kind ts)
    (hk : ∀ p, kind = .punct p → p.isOpener = false ∧ p.isCloser = false) : Nested ts := by
  obtain ⟨t, rfl, rfl⟩ := h
  exact .one (Token.isFlat_of_kind hk)

theorem IsOne.nested_mark {mark : Punct} {ts : List Token} (h : IsOne (.punct mark) ts)
    (hm : mark.isOpener = false ∧ mark.isCloser = false) : Nested ts :=
  h.nested fun p hp => by cases hp; exact hm

/-- A group in two marks. -/
theorem nested_between {mark : Punct} {os ts cs : List Token} (ho : IsOne (.punct mark) os)
    (hm : mark.isOpener = true) (h : Nested ts) (hc : IsOne (.punct mark.closer) cs) :
    Nested (os ++ (ts ++ cs)) := by
  obtain ⟨o, rfl, ho⟩ := ho
  obtain ⟨c, rfl, hc⟩ := hc
  exact .group ho hm hc h

/-- The tokens of the group are taken, and nothing is wrong with it. -/
theorem skipGroup_takes : Reader.Gives source s skipGroup fun _ ts s' =>
    ts = (Group.take s.eof [] s.after).taken ∧ s'.after = (Group.take s.eof [] s.after).rest ∧
      (Group.take s.eof [] s.after).errors = [] := by
  intro hs _
  obtain ⟨k, hk, -⟩ := skipGroup_safe hs
  obtain ⟨ts, -, ht⟩ := hk.takes
  have hrest : (skipGroup.run s).2.after = (Group.take s.eof [] s.after).rest := rfl
  refine ⟨ts, ht, fun he => ⟨?_, hrest, ?_⟩⟩
  · have := (Group.take_append s.eof [] s.after).trans ht.after_eq
    rw [hrest] at this
    exact (List.append_cancel_right this).symm
  · exact (List.append_eq_nil_iff.1 (show s.errors ++ _ = [] from he)).2

/-- **A group that is skipped without an error is nested**, unless a closing mark
    stands at its head. -/
theorem skipGroup_gives (hc : ∀ p, s.peek.kind = .punct p → p.isCloser = false) :
    Reader.Gives source s skipGroup fun _ ts _ => Nested ts := by
  refine skipGroup_takes.mono fun _ ts _ h => ?_
  obtain ⟨htaken, -, herr⟩ := h
  rw [htaken]
  cases ha : s.after with
  | nil => rfl
  | cons t us =>
    rw [ha] at herr
    refine Group.nested_of_take herr fun p hp => hc p ?_
    simpa [peek, ha] using hp

/-! ## Texts -/

/-- The text of the tokens taken, from the first one through the last one. -/
theorem textFrom_gives {s₀ : ParserState} {ts : List Token} (hs₀ : s₀.Good source)
    (h : Takes ts s₀ s) : Reader.Gives source s (textFrom s₀.peek.span) fun text us _ =>
      us = [] ∧ (ts ≠ [] → Spells text.toList (erase ts)) := by
  by_cases hne : ts = []
  · refine (Reader.Gives.of_safe (textFrom_safe hs₀.peek_inside)).mono fun _ us _ hu => ?_
    exact ⟨List.eq_nil_of_length_eq_zero hu, fun h => absurd hne h⟩
  refine .get fun _ hsp => ?_
  obtain ⟨t, ht⟩ := Option.isSome_iff_exists.1 (List.isSome_head?.2 hne)
  obtain ⟨u, hu⟩ := Option.isSome_iff_exists.1 (List.getLast?_isSome.2 hne)
  obtain ⟨text, htext, hspells⟩ := hsp s₀.before.reverse ts s.after t u
    (by rw [h.before_eq]; simp) ht hu
  have hpeek : s₀.peek = t := by
    obtain ⟨ts, rfl⟩ := List.head?_eq_some_iff.1 ht
    simp [peek, h.after_eq]
  have hprev : s.previousSpan = u.span := by
    obtain ⟨ts, rfl⟩ := List.getLast?_eq_some_iff.1 hu
    simp [previousSpan, h.before_eq]
  have hle : t.span.offset ≤ u.span.stop := by
    by_contra hle
    simp [between?, hle] at htext
  rw [hpeek, hprev, Nat.max_eq_left hle]
  refine .get fun _ _ => ?_
  rw [htext]
  exact .pure ⟨rfl, fun _ => by rwa [String.toList_ofList]⟩

/-! ## Lists -/

section
variable {N : List Token → Prop} {Q : α → Prop}

/-- What holds of each item of a list with commas holds of all, and the tokens are
    taken in turn. -/
theorem commaSeparated_gives {item : Parser α} {T : α → Nat → Prop} (hN : N [])
    (happend : ∀ ts us, N ts → N us → N (ts ++ us))
    (hcomma : ∀ ts, IsOne (.punct .comma) ts → N ts)
    (hs : ∀ k s', Moves k s s' → Parser.Safe source s' item T)
    (h : ∀ ts s', Takes ts s s' → Parser.Gives source s' item fun a ts _ => Q a ∧ N ts) :
    Parser.Gives source s (commaSeparated item) fun as ts _ => (∀ a ∈ as, Q a) ∧ N ts := by
  refine .loop (I := fun as ts _ => (∀ a ∈ as, Q a) ∧ N ts)
    (fun _ k s' hk => itemAndComma_safe (hs k s' hk)) ⟨by simp, hN⟩ fun as ts s' ht => ?_
  have hq {a : α} (has : ∀ a ∈ as, Q a) (ha : Q a) : ∀ b ∈ as ++ [a], Q b := by
    intro b hb
    rcases List.mem_append.1 hb with hb | hb
    · exact has b hb
    · exact List.mem_singleton.1 hb ▸ ha
  refine (h ts s' ht).bind fun a us _ _ => .andThen eatMark_gives fun b vs _ _ => ?_
  split
  · refine .pure fun hv ha hI => ⟨hq hI.1 ha.1, ?_⟩
    simpa using happend _ _ hI.2 (happend _ _ ha.2 (hcomma _ hv))
  · refine .pure fun hv ha hI => ⟨hq hI.1 ha.1, ?_⟩
    simpa [hv] using happend _ _ hI.2 ha.2

theorem whileAt_gives {condition : ParserState → Bool} {item : Parser α}
    (hs : ∀ k s', Moves k s s' → s'.Good source → condition s' = true →
      Parser.Safe source s' item fun _ k => 0 < k)
    (h : ∀ ts s', Takes ts s s' → Parser.Gives source s' item fun a _ _ => Q a) :
    Parser.Gives source s (whileAt condition item) fun as _ _ => ∀ a ∈ as, Q a := by
  refine .loop (I := fun as _ _ => ∀ a ∈ as, Q a) (fun as k s' hk => itemAt_safe (hs k s' hk))
    (by simp) fun as ts s' ht => .get fun _ _ => ?_
  split
  · refine (h ts s' ht).bind fun a us _ _ => .pure fun ha has b hb => ?_
    rcases List.mem_append.1 hb with hb | hb
    · exact has b hb
    · exact List.mem_singleton.1 hb ▸ ha
  · exact .pure fun has => has

end

end CommandModules.Parser

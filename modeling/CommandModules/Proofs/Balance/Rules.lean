/-
  Command modules — readers that leave no mark open.

  * `Reader.Turns source s p marks behind`: if the tokens around `s` are tidy and `p`
    records no error, then it takes tokens behind which the marks `behind` are open
    where `marks` were open before;
  * `Parser.Turns` says the same of a parser that succeeds;
  * both have a rule for each way of composing readers and parsers, so that only the
    basic readers are asked about single tokens.
-/
import CommandModules.Proofs.Balance.Passage
import CommandModules.Proofs.Taken.Member

namespace CommandModules

open ParserState

variable {α β σ : Type} {source : List Char} {s : ParserState} {marks behind last : List Punct}

theorem openBehind?_trans {ts us : List Token} (h : openBehind? marks ts = some behind)
    (h' : openBehind? behind us = some last) : openBehind? marks (ts ++ us) = some last := by
  rw [openBehind?_append, h, Option.bind_some, h']

/-! ## Readers -/

/-- If `p` records no error from the tidy state `s` on, then behind the tokens that it
    takes the marks `behind` are open, where `marks` were open before. -/
def Reader.Turns (source : List Char) (s : ParserState) (p : Reader α)
    (marks behind : List Punct) : Prop :=
  s.IsTidy → Reader.Gives source s p fun _ ts _ => openBehind? marks ts = some behind

namespace Reader.Turns

variable {p : Reader α} {f : α → Reader β}

theorem pure {a : α} : Turns source s (Pure.pure a) marks marks :=
  fun _ => .pure rfl

theorem of_nested (h : Gives source s p fun _ ts _ => Nested ts) : Turns source s p marks marks :=
  fun _ => h.mono fun _ _ _ hts => hts.openBehind

/-- A reader that stays where it is. -/
theorem of_still (h : Safe source s p fun _ k => k = 0) : Turns source s p marks marks :=
  .of_nested ((Gives.of_safe h).mono fun _ _ _ hk => List.eq_nil_of_length_eq_zero hk ▸ .nil)

theorem bind (h : Turns source s p marks behind)
    (hf : ∀ a ts s', Takes ts s s' → Turns source s' (f a) behind last) :
    Turns source s (p >>= f) marks last := fun ht =>
  (h ht).bind fun a ts s' hts => (hf a ts s' hts (hts.isTidy ht)).mono
    fun _ _ _ hu hts => openBehind?_trans hts hu

theorem get {f : ParserState → Reader β}
    (h : s.Good source → Turns source s (f s) marks behind) :
    Turns source s (MonadState.get >>= f) marks behind :=
  fun ht => .get fun hg _ => h hg ht

/-- The continuation `f` behind the branches of a choice. -/
theorem join {c : Prop} [Decidable c] {q : Reader α} (hp : c → Turns source s p marks behind)
    (hq : ¬ c → Turns source s q marks behind)
    (hf : ∀ a ts s', Takes ts s s' → Turns source s' (f a) behind last) :
    Turns source s (have next := f; if c then p >>= next else q >>= next) marks last := by
  dsimp only
  split
  · exact (hp ‹_›).bind hf
  · exact (hq ‹_›).bind hf

theorem discard (h : Turns source s p marks behind) :
    Turns source s (Functor.discard p) marks behind :=
  fun ht => (h ht).discard

/-- The continuation may use what is known without regard to errors. -/
theorem bind_safe {R : α → Nat → Prop} (hp : Safe source s p R) (h : Turns source s p marks behind)
    (hf : ∀ a ts s', Takes ts s s' → R a ts.length → Turns source s' (f a) behind last) :
    Turns source s (p >>= f) marks last := fun ht =>
  .bind_safe hp (h ht) fun a ts s' hts ha => (hf a ts s' hts ha (hts.isTidy ht)).mono
    fun _ _ _ hu hts => openBehind?_trans hts hu

/-- A loop whose rounds leave no mark open. -/
theorem loop [Inhabited α] {round : σ → Reader (Round σ α)} {x : σ}
    (hc : ∀ x k s', Moves k s s' → Safe source s' (round x) Round.Consumes)
    (h : ∀ x ts s', Takes ts s s' → Turns source s' (round x) marks marks) :
    Turns source s (Parser.loop round x) marks marks := fun ht =>
  .loop (I := fun _ ts _ => openBehind? marks ts = some marks) hc rfl fun x ts s' hts =>
    (h x ts s' hts (hts.isTidy ht)).mono fun r _ _ hu hI => by
      cases r <;> exact openBehind?_trans hI hu

end Reader.Turns

/-! ## Parsers -/

/-- If `p` succeeds and records no error from the tidy state `s` on, then behind the tokens
    that it takes the marks `behind` are open, where `marks` were open before. -/
def Parser.Turns (source : List Char) (s : ParserState) (p : Parser α)
    (marks behind : List Punct) : Prop :=
  s.IsTidy → Parser.Gives source s p fun _ ts _ => openBehind? marks ts = some behind

namespace Parser.Turns

variable {p : Parser α} {f : α → Parser β}

theorem pure {a : α} : Turns source s (Pure.pure a) marks marks :=
  fun _ => .pure rfl

theorem throw {e : ParseError} : Turns source s (throw e : Parser α) marks behind :=
  fun _ => .throw

theorem of_nested (h : Gives source s p fun _ ts _ => Nested ts) : Turns source s p marks marks :=
  fun _ => h.mono fun _ _ _ hts => hts.openBehind

theorem bind (h : Turns source s p marks behind)
    (hf : ∀ a ts s', Takes ts s s' → Turns source s' (f a) behind last) :
    Turns source s (p >>= f) marks last := fun ht =>
  (h ht).bind fun a ts s' hts => (hf a ts s' hts (hts.isTidy ht)).mono
    fun _ _ _ hu hts => openBehind?_trans hts hu

/-- The continuation may use what is known without regard to errors. -/
theorem bind_safe {R : α → Nat → Prop} (hp : Safe source s p R) (h : Turns source s p marks behind)
    (hf : ∀ a ts s', Takes ts s s' → R a ts.length → Turns source s' (f a) behind last) :
    Turns source s (p >>= f) marks last := fun ht =>
  .bind_safe hp (h ht) fun a ts s' hts ha => (hf a ts s' hts ha (hts.isTidy ht)).mono
    fun _ _ _ hu hts => openBehind?_trans hts hu

theorem get {f : ParserState → Parser β}
    (h : s.Good source → Turns source s (f s) marks behind) :
    Turns source s (MonadState.get >>= f) marks behind :=
  fun ht => .get fun hg _ => h hg ht

theorem ite {c : Prop} [Decidable c] {q : Parser α} (hp : c → Turns source s p marks behind)
    (hq : ¬ c → Turns source s q marks behind) :
    Turns source s (if c then p else q) marks behind :=
  fun ht => .ite (fun hc => hp hc ht) fun hc => hq hc ht

/-- The continuation `f` behind the branches of a choice. -/
theorem join {c : Prop} [Decidable c] {q : Parser α} (hp : c → Turns source s p marks behind)
    (hq : ¬ c → Turns source s q marks behind)
    (hf : ∀ a ts s', Takes ts s s' → Turns source s' (f a) behind last) :
    Turns source s (have next := f; if c then p >>= next else q >>= next) marks last := by
  dsimp only
  split
  · exact (hp ‹_›).bind hf
  · exact (hq ‹_›).bind hf

/-- The continuation `f` behind a step that is taken only if `c` holds. -/
theorem after {c : Prop} [Decidable c] {p : Parser Unit} {f : Unit → Parser β}
    (hp : c → Turns source s p marks marks)
    (hf : ∀ ts s', Takes ts s s' → Turns source s' (f ()) marks last) :
    Turns source s (have next := f; if c then p >>= next else next ()) marks last :=
  join (q := Pure.pure ()) hp (fun _ => .pure) fun _ => hf

theorem lift {p : Reader α} (h : Reader.Turns source s p marks behind) :
    Turns source s (liftM p : Parser α) marks behind :=
  h

/-- A reader and then the parser `f` of its value. -/
theorem andThen {p : Reader α} (h : Reader.Turns source s p marks behind)
    (hf : ∀ a ts s', Takes ts s s' → Turns source s' (f a) behind last) :
    Turns source s (liftM p >>= f) marks last :=
  (lift h).bind hf

theorem map {g : α → β} (h : Turns source s p marks behind) :
    Turns source s (g <$> p) marks behind :=
  fun ht => .map (h ht)

theorem discard (h : Turns source s p marks behind) :
    Turns source s (Functor.discard p) marks behind :=
  map h

/-- A loop whose rounds keep `J` and leave no mark open. -/
theorem loop_safe {J : σ → Nat → Prop} {T : α → Nat → Prop} {round : σ → Parser (Round σ α)} {x : σ}
    (hj : J x 0)
    (hc : ∀ x k s', Moves k s s' → J x k → Safe source s' (round x) (Round.Holds J T k))
    (h : ∀ x ts s', Takes ts s s' → J x ts.length → Turns source s' (round x) marks marks) :
    Turns source s (loopOrFail round x) marks marks := fun ht =>
  .loop_safe (I := fun _ ts _ => openBehind? marks ts = some marks) hj hc rfl fun x ts s' hts hx =>
    (h x ts s' hts hx (hts.isTidy ht)).mono fun r _ _ hu hI => by
      cases r <;> exact openBehind?_trans hI hu

/-- A loop whose rounds leave no mark open. -/
theorem loop {round : σ → Parser (Round σ α)} {x : σ}
    (hc : ∀ x k s', Moves k s s' → Safe source s' (round x) Round.Consumes)
    (h : ∀ x ts s', Takes ts s s' → Turns source s' (round x) marks marks) :
    Turns source s (loopOrFail round x) marks marks :=
  .loop_safe (J := fun _ _ => True) ⟨⟩ (fun x k s' hk _ => (hc x k s' hk).mono fun _ _ => (·.holds))
    fun x ts s' hts _ => h x ts s' hts

end Parser.Turns

namespace Parser

/-! ## Single tokens -/

/-- Does a token of this kind open or close no group? -/
abbrev IsFlatKind (kind : TokenKind) : Prop :=
  ∀ p, kind = .punct p → p.isOpener = false ∧ p.isCloser = false

theorem isFlat_of_isAt {kind : TokenKind} (h : s.isAt kind = true) (hk : IsFlatKind kind) :
    s.peek.isFlat = true :=
  Token.isFlat_of_kind (beq_iff_eq.1 h ▸ hk)

theorem isFlat_of_isWord {t : Token} (h : t.kind.isWord = true) : t.isFlat = true :=
  Token.isFlat_of_kind fun p hp => by simp [hp, TokenKind.isWord, TokenKind.isIdentifier,
    TokenKind.isKeyword] at h

theorem advance_turns (h : s.peek.isFlat = true) : Reader.Turns source s advance marks marks :=
  .of_nested (advance_takes_most.mono fun _ _ _ hts => nested_of_most hts h)

/-- A token, and the one behind it if there is one. -/
theorem nested_of_two {s₁ : ParserState} {ts us : List Token} (h₁ : Takes ts s s₁)
    (hts : ts.length = 1) (hu : us = [] ∨ us = [s₁.peek]) (ht : s.peek.isFlat = true)
    (hn : (s.peekAt 1).isFlat = true) : Nested (ts ++ us) := by
  obtain ⟨t, rfl⟩ := List.length_eq_one_iff.1 hts
  have hpeek : s.peek = t := by simp [peek, h₁.after_eq]
  rw [peek_of_takes_one h₁ ⟨t, rfl, rfl⟩] at hu
  exact (Nested.one (hpeek ▸ ht)).append (nested_of_most hu hn)

/-- The token behind the one that `p` takes is passed over. -/
theorem readAndAdvance_turns {p : Reader α} {g : α → β}
    (h : Reader.Gives source s p fun _ ts _ => ts.length = 1) (ht : s.peek.isFlat = true)
    (hn : (s.peekAt 1).isFlat = true) :
    Reader.Turns source s (do let a ← p; discard advance; return g a) marks marks :=
  .of_nested (h.bind fun _ _ _ h₁ => advance_takes_most.discard.bind fun _ _ _ _ =>
    .pure fun hu hts => (List.append_nil _).symm ▸ nested_of_two h₁ hts hu ht hn)

theorem parseAndAdvance_turns {p : Parser α} {g : α → β}
    (h : Parser.Gives source s p fun _ ts _ => ts.length = 1) (ht : s.peek.isFlat = true)
    (hn : (s.peekAt 1).isFlat = true) :
    Parser.Turns source s (do let a ← p; discard advance; return g a) marks marks :=
  .of_nested (h.bind fun _ _ _ h₁ => (Parser.Gives.lift advance_takes_most).discard.bind
    fun _ _ _ _ => .pure fun hu hts => (List.append_nil _).symm ▸ nested_of_two h₁ hts hu ht hn)

theorem advance_opens {mark : Punct} (h : s.isAtMark mark = true) (hm : mark.isOpener = true) :
    Reader.Turns source s advance marks (mark :: marks) := fun _ =>
  (advance_takes_one (peek_ne_eof_of_mark h)).mono fun _ _ _ hts => by
    rw [hts]
    simp [openBehind?, Token.openBehind?, beq_iff_eq.1 h, hm]

theorem eat_nested {kind : TokenKind} (h : kind ≠ .eof) (hk : IsFlatKind kind) :
    Reader.Gives source s (eat kind) fun _ ts _ => Nested ts :=
  (eat_gives h).mono fun _ _ _ hts => by
    split at hts
    · exact hts.nested hk
    · exact hts ▸ .nil

theorem eat_turns {kind : TokenKind} (h : kind ≠ .eof) (hk : IsFlatKind kind) :
    Reader.Turns source s (eat kind) marks marks :=
  .of_nested (eat_nested h hk)

theorem eatMark_turns {mark : Punct} (hm : mark.isOpener = false ∧ mark.isCloser = false) :
    Reader.Turns source s (eatMark mark) marks marks :=
  eat_turns nofun fun p hp => by cases hp; exact hm

/-- The word that was eaten, if any, is the token before the state. -/
theorem eatWord_takes {word : Keyword} : Reader.Safe source s (eatWord word) fun b k =>
    b = true → k = 1 ∧ s.isAt (.keyword word) = true := by
  refine .get fun hg => ?_
  split
  · rename_i h
    have hadvance : Reader.Safe source s advance fun _ k => k = 1 :=
      fun _ => ⟨1, (takes_advance hg (peek_ne_eof h nofun)).moves, rfl⟩
    exact hadvance.discard.bind fun _ _ _ _ hk => .pure fun _ => ⟨by omega, h⟩
  · exact .pure nofun

theorem eatWord_turns {word : Keyword} : Reader.Turns source s (eatWord word) marks marks :=
  eat_turns nofun nofun

theorem expectWord_turns {word : Keyword} :
    Parser.Turns source s (expect (.keyword word)) marks marks := by
  refine .of_nested ((expect_gives ?_).mono fun _ _ _ hts => hts.nested ?_)
  · nofun
  · nofun

theorem expectMark_turns {mark : Punct} (hm : mark.isOpener = false ∧ mark.isCloser = false) :
    Parser.Turns source s (expectMark mark) marks marks :=
  .of_nested (expectMark_gives.mono fun _ _ _ hts => hts.nested_mark hm)

theorem expectMark_opens {mark : Punct} (hm : mark.isOpener = true) :
    Parser.Turns source s (expectMark mark) marks (mark :: marks) := fun _ =>
  expectMark_gives.mono fun _ _ _ ⟨t, hts, hk⟩ => by
    rw [hts]
    simp [openBehind?, Token.openBehind?, hk, hm]

theorem expectMark_closes {o mark : Punct} (h : o.closer = mark) :
    Parser.Turns source s (expectMark mark) (o :: marks) marks := fun _ =>
  expectMark_gives.mono fun _ _ _ ⟨t, hts, hk⟩ => by
    have : o.closer.isOpener = false ∧ o.closer.isCloser = true := by
      cases o <;> decide
    rw [hts]
    simp [openBehind?, Token.openBehind?, hk, ← h, this]

theorem ident_turns : Parser.Turns source s ident marks marks :=
  .of_nested (ident_gives.mono fun _ _ _ hi => hi.2.nested nofun)

theorem word_turns (h : s.peek.isFlat = true) : Reader.Turns source s word marks marks :=
  (advance_turns h).bind fun _ _ _ _ => .pure

theorem rounds_turns : Reader.Turns source s rounds marks marks :=
  .of_nested (rounds_gives.mono fun _ _ _ hts => hts ▸ .nil)

theorem failAt_turns {kind : ParseErrorKind} {what : String} :
    Parser.Turns source s (failAt kind what : Parser α) marks behind :=
  fun _ => failAt_gives

/-- Where a passage does not end, the group at its head belongs to it. -/
theorem skipGroup_upTo {stop : Token → Bool} (h : stop s.peek = false) :
    Reader.Gives source s skipGroup fun _ ts s' =>
      ts ++ upTo stop [] s'.after = upTo stop [] s.after :=
  skipGroup_takes.mono fun _ ts s' hts => by
    obtain ⟨rfl, hrest, -⟩ := hts
    rw [hrest, upTo_eq_take_of_peek h]

/-- A group, at whose head no closing mark stands. -/
theorem skipGroup_turns (hc : ∀ p, s.peek.kind = .punct p → p.isCloser = false) :
    Reader.Turns source s skipGroup marks marks :=
  .of_nested (skipGroup_gives hc)

theorem skipGroup_turns_at {mark : Punct} (h : s.isAtMark mark = true) (hm : mark.isCloser = false) :
    Reader.Turns source s skipGroup marks marks :=
  skipGroup_turns fun p hp => by
    rw [beq_iff_eq.1 h] at hp
    cases hp
    exact hm

/-! ## Errors that are recorded -/

section
variable {p : Parser α} {R : α → Nat → Prop}

theorem orReport_turns (hs : Parser.Safe source s p R) (h : Parser.Turns source s p marks behind) :
    Reader.Turns source s (orReport p) marks behind :=
  fun ht => (orReport_succeeds hs (h ht)).mono fun _ _ _ ⟨_, _, hts⟩ => hts

theorem orRecover_turns (hs : Parser.Safe source s p R) (h : Parser.Turns source s p marks behind) :
    Reader.Turns source s (orRecover p) marks behind :=
  fun ht => (orRecover_succeeds hs (h ht)).mono fun _ _ _ ⟨_, _, hts⟩ => hts

/-- Where no error is recorded, what is read consumes a token. -/
theorem orRecover_consumes (hs : Parser.Safe source s p fun _ k => 0 < k)
    (h : Parser.Turns source s p marks behind) (ht : s.IsTidy) :
    Reader.Gives source s (orRecover p) fun _ ts _ =>
      openBehind? marks ts = some behind ∧ ts ≠ [] :=
  (orRecover_succeeds hs ((h ht).and_safe hs)).mono
    fun _ _ _ ⟨_, _, hts, hpos⟩ => ⟨hts, List.ne_nil_of_length_pos hpos⟩

theorem expectClosing_turns {o mark : Punct} (h : o.closer = mark) :
    Reader.Turns source s (expectClosing mark) (o :: marks) marks :=
  (orReport_turns expectMark_safe (expectMark_closes h)).discard

theorem report_turns {e : ParseError} (h : e.span.Inside source) :
    Reader.Turns source s (report e) marks marks :=
  fun _ => report_gives h

end

/-- A token is skipped only where none was consumed. -/
theorem moveOn_gives {place : Nat} (h : s.place ≠ place) :
    Reader.Gives source s (moveOn place) fun _ ts _ => ts = [] := by
  refine .get fun _ _ => ?_
  rw [if_neg (by simp [h])]
  exact .pure rfl

/-- What is read consumes a token, and so none is skipped behind it. -/
theorem andMoveOn_gives {p : Reader α} {f : α → β}
    (h : Reader.Gives source s p fun _ ts _ => openBehind? marks ts = some behind ∧ ts ≠ []) :
    Reader.Gives source s (do let a ← p; moveOn s.place; return f a) fun _ ts _ =>
      openBehind? marks ts = some behind := by
  refine h.bind fun _ ts s₁ h₁ => ?_
  by_cases hts : ts = []
  · exact .pass moveOn_safe fun _ _ _ _ => .pure fun hne => absurd hts hne.2
  · have hplace : s₁.place ≠ s.place := by
      have := List.length_pos_of_ne_nil hts
      simp [place, h₁.before_eq, hts]
    refine (moveOn_gives hplace).bind fun _ us _ _ => .pure fun hu hne => ?_
    rw [hu]
    simpa using hne.1

/-! ## Lists -/

theorem itemAndComma_turns {item : Parser α} {as : List α}
    (h : Parser.Turns source s item marks marks) :
    Parser.Turns source s (itemAndComma item as) marks marks :=
  h.bind fun _ _ _ _ => .andThen (eatMark_turns (by decide)) fun _ _ _ _ => by
    split <;> exact .pure

theorem commaSeparated_turns {item : Parser α} {R : α → Nat → Prop}
    (hs : ∀ k s', Moves k s s' → Parser.Safe source s' item R)
    (h : ∀ ts s', Takes ts s s' → Parser.Turns source s' item marks marks) :
    Parser.Turns source s (commaSeparated item) marks marks :=
  .loop (fun _ k s' hk => itemAndComma_safe (hs k s' hk))
    fun _ ts s' hts => itemAndComma_turns (h ts s' hts)

theorem whileAt_turns {condition : ParserState → Bool} {item : Parser α}
    (hs : ∀ k s', Moves k s s' → s'.Good source → condition s' = true →
      Parser.Safe source s' item fun _ k => 0 < k)
    (h : ∀ ts s', Takes ts s s' → condition s' = true → Parser.Turns source s' item marks marks) :
    Parser.Turns source s (whileAt condition item) marks marks := by
  refine .loop (fun _ k s' hk => itemAt_safe (hs k s' hk)) fun _ ts s' hts => .get fun _ => ?_
  split
  · exact (h ts s' hts ‹_›).bind fun _ _ _ _ => .pure
  · exact .pure

end Parser

end CommandModules

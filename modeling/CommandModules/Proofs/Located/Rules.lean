/-
  Command modules — what a value says of the place it was read from.

  * `Reader.Locates source ts s p R`: from the good state `s`, whose tokens are `ts`, the reader
    `p` goes ahead, and `R` holds of its value and of the place where it ends;
  * `Parser.Locates` says the same of a parser that succeeds;
  * both have a rule for each way of composing readers and parsers.  That a loop consumes a token
    in each round is known from its safety, and is not shown again: `Reader.Locates.loop` and
    `Parser.Locates.loop` take it as given;
  * `Parser.whileAt_locates` and `Parser.commaSeparated_locates`: the items of a list are read in
    turn;
  * `ParserState.Good.covers`: the span from an earlier token on ends with the token consumed
    last, and `Parser.textFrom_locates` cuts out its text.
-/
import CommandModules.Proofs.Located.Basic
import CommandModules.Proofs.Safe.Basic

namespace CommandModules

open ParserState Text

variable {α β σ : Type} {source : List Char} {ts : List Token} {s : ParserState}

/-! ## Two facts about one run -/

/-- What is known of a run in two ways holds of it together. -/
theorem Reader.Safe.and {p : Reader α} {R R' : α → Nat → Prop} (h : Safe source s p R)
    (h' : Safe source s p R') : Safe source s p fun a k => R a k ∧ R' a k := by
  intro hg
  obtain ⟨k, hk, hr⟩ := h hg
  obtain ⟨m, hm, hr'⟩ := h' hg
  have := hk.length_after
  have := hm.length_after
  obtain rfl : m = k := by omega
  exact ⟨m, hm, hr, hr'⟩

theorem ParserState.Moves.place_le {k : Nat} {s s' : ParserState} (h : Moves k s s') :
    s.place ≤ s'.place := by
  rw [h.place_eq]
  exact Nat.le_add_right _ _

/-! ## Readers -/

/-- From the state `s`, if it is good and its tokens are `ts`, `p` goes ahead, and `R` holds of
    its value and of the place where it ends. -/
def Reader.Locates (source : List Char) (ts : List Token) (s : ParserState) (p : Reader α)
    (R : α → Nat → Prop) : Prop :=
  s.tokens = ts → Safe source s p fun a k => R a (s.place + k)

namespace Reader.Locates

variable {p : Reader α} {f : α → Reader β} {R R' : α → Nat → Prop} {T : β → Nat → Prop}

theorem pure {a : α} (h : R a s.place) : Locates source ts s (Pure.pure a) R :=
  fun _ => .pure h

theorem mono (h : Locates source ts s p R) (hR : ∀ a j, R a j → R' a j) :
    Locates source ts s p R' :=
  fun hs => (h hs).mono fun a _ => hR a _

theorem of_safe {R : α → Nat → Prop} (h : Safe source s p R) :
    Locates source ts s p fun a j => ∃ k, j = s.place + k ∧ R a k :=
  fun _ => h.mono fun _ k hk => ⟨k, rfl, hk⟩

/-- The continuation may use what is known of `p` in general. -/
theorem bind_safe {R₀ : α → Nat → Prop} (hp : Safe source s p R₀) (h : Locates source ts s p R)
    (hf : ∀ a k s', Moves k s s' → R₀ a k → R a s'.place → Locates source ts s' (f a) T) :
    Locates source ts s (p >>= f) T := by
  intro hs
  refine (hp.and (h hs)).bind fun a k s' hk ha => ?_
  have hplace := hk.place_eq
  refine (hf a k s' hk ha.1 (hplace ▸ ha.2) (hk.tokens.trans hs)).mono fun b m hb => ?_
  rwa [hplace, Nat.add_assoc] at hb

theorem bind (h : Locates source ts s p R)
    (hf : ∀ a k s', Moves k s s' → R a s'.place → Locates source ts s' (f a) T) :
    Locates source ts s (p >>= f) T := by
  intro hs
  refine (h hs).bind fun a k s' hk ha => ?_
  have hplace := hk.place_eq
  refine (hf a k s' hk (hplace ▸ ha) (hk.tokens.trans hs)).mono fun b m hb => ?_
  rwa [hplace, Nat.add_assoc] at hb

/-- Nothing but safety is asked of `p`. -/
theorem pass {R₀ : α → Nat → Prop} (hp : Safe source s p R₀)
    (hf : ∀ a k s', Moves k s s' → R₀ a k → Locates source ts s' (f a) T) :
    Locates source ts s (p >>= f) T :=
  (of_safe hp).bind fun a k s' hk ⟨m, hm, ha⟩ => by
    have := hk.place_eq
    obtain rfl : m = k := by omega
    exact hf a m s' hk ha

theorem get {f : ParserState → Reader β}
    (h : s.Good source → s.tokens = ts → Locates source ts s (f s) T) :
    Locates source ts s (MonadState.get >>= f) T :=
  fun hs hg => h hg hs hs hg

theorem ite {c : Prop} [Decidable c] {q : Reader α} (hp : c → Locates source ts s p R)
    (hq : ¬ c → Locates source ts s q R) : Locates source ts s (if c then p else q) R := by
  split
  · exact hp ‹_›
  · exact hq ‹_›

/-- The continuation `f` behind the branches of a choice. -/
theorem join {c : Prop} [Decidable c] {q : Reader α} (hp : c → Locates source ts s p R)
    (hq : ¬ c → Locates source ts s q R)
    (hf : ∀ a k s', Moves k s s' → R a s'.place → Locates source ts s' (f a) T) :
    Locates source ts s (have next := f; if c then p >>= next else q >>= next) T := by
  dsimp only
  split
  · exact (hp ‹_›).bind hf
  · exact (hq ‹_›).bind hf

end Reader.Locates

/-! ## Parsers -/

/-- `R` holds if a value was handed back. -/
def Known (R : α → Nat → Prop) : Except ParseError α → Nat → Prop
  | .ok a, j => R a j
  | .error _, _ => True

theorem Known.mono {R R' : α → Nat → Prop} {r : Except ParseError α} {i j : Nat}
    (h : Known R r i) (hR : ∀ a, R a i → R' a j) : Known R' r j := by
  cases r with
  | ok a => exact hR a h
  | error => exact ⟨⟩

/-- From the state `s`, if it is good and its tokens are `ts`, `p` goes ahead; if it succeeds, `R`
    holds of its value and of the place where it ends. -/
def Parser.Locates (source : List Char) (ts : List Token) (s : ParserState) (p : Parser α)
    (R : α → Nat → Prop) : Prop :=
  Reader.Locates source ts s p.run (Known R)

namespace Parser.Locates

variable {p : Parser α} {f : α → Parser β} {R R' : α → Nat → Prop} {T : β → Nat → Prop}

theorem pure {a : α} (h : R a s.place) : Locates source ts s (Pure.pure a) R :=
  Reader.Locates.pure h

theorem throw {e : ParseError} : Locates source ts s (throw e : Parser α) R :=
  Reader.Locates.pure ⟨⟩

theorem mono (h : Locates source ts s p R) (hR : ∀ a j, R a j → R' a j) :
    Locates source ts s p R' :=
  Reader.Locates.mono h fun _ j hr => hr.mono fun a => hR a j

theorem of_safe {R : α → Nat → Prop} (h : Safe source s p R) :
    Locates source ts s p fun a j => ∃ k, j = s.place + k ∧ R a k := by
  refine Reader.Locates.mono (Reader.Locates.of_safe h) fun r j hr => ?_
  obtain ⟨k, rfl, hr⟩ := hr
  cases r with
  | ok a => exact ⟨k, rfl, hr⟩
  | error => exact ⟨⟩

/-- The continuation may use what is known of `p` in general. -/
theorem bind_safe {R₀ : α → Nat → Prop} (hp : Safe source s p R₀) (h : Locates source ts s p R)
    (hf : ∀ a k s', Moves k s s' → R₀ a k → R a s'.place → Locates source ts s' (f a) T) :
    Locates source ts s (p >>= f) T := by
  rw [Locates, ExceptT.run_bind]
  refine Reader.Locates.bind_safe (R := Known R) hp h fun r k s' hk hr₀ hr => ?_
  cases r with
  | ok a => exact hf a k s' hk hr₀ hr
  | error e => exact Reader.Locates.pure ⟨⟩

theorem bind (h : Locates source ts s p R)
    (hf : ∀ a k s', Moves k s s' → R a s'.place → Locates source ts s' (f a) T) :
    Locates source ts s (p >>= f) T := by
  rw [Locates, ExceptT.run_bind]
  refine Reader.Locates.bind (R := Known R) h fun r k s' hk hr => ?_
  cases r with
  | ok a => exact hf a k s' hk hr
  | error e => exact Reader.Locates.pure ⟨⟩

/-- Nothing but safety is asked of `p`. -/
theorem pass {R₀ : α → Nat → Prop} (hp : Safe source s p R₀)
    (hf : ∀ a k s', Moves k s s' → R₀ a k → Locates source ts s' (f a) T) :
    Locates source ts s (p >>= f) T :=
  (of_safe hp).bind fun a k s' hk ⟨m, hm, ha⟩ => by
    have := hk.place_eq
    obtain rfl : m = k := by omega
    exact hf a m s' hk ha

theorem get {f : ParserState → Parser β}
    (h : s.Good source → s.tokens = ts → Locates source ts s (f s) T) :
    Locates source ts s (MonadState.get >>= f) T :=
  fun hs hg => h hg hs hs hg

theorem ite {c : Prop} [Decidable c] {q : Parser α} (hp : c → Locates source ts s p R)
    (hq : ¬ c → Locates source ts s q R) : Locates source ts s (if c then p else q) R := by
  split
  · exact hp ‹_›
  · exact hq ‹_›

/-- The continuation `f` behind the branches of a choice. -/
theorem join {c : Prop} [Decidable c] {q : Parser α} (hp : c → Locates source ts s p R)
    (hq : ¬ c → Locates source ts s q R)
    (hf : ∀ a k s', Moves k s s' → R a s'.place → Locates source ts s' (f a) T) :
    Locates source ts s (have next := f; if c then p >>= next else q >>= next) T := by
  dsimp only
  split
  · exact (hp ‹_›).bind hf
  · exact (hq ‹_›).bind hf

/-- The continuation `f` behind a step that is taken only if `c` holds. -/
theorem after {c : Prop} [Decidable c] {p : Parser Unit} {f : Unit → Parser β} {K : Nat → Prop}
    (hp : c → Safe source s p fun _ k => K k)
    (hf : ∀ k s', Moves k s s' → Locates source ts s' (f ()) T) :
    Locates source ts s (have next := f; if c then p >>= next else next ()) T := by
  dsimp only
  split
  · exact .pass (hp ‹_›) fun _ k s' hk _ => hf k s' hk
  · exact hf 0 s (.refl s)

theorem lift {p : Reader α} (h : Reader.Locates source ts s p R) :
    Locates source ts s (liftM p : Parser α) R :=
  h

/-- A reader and then the parser `f` of its value. -/
theorem andThen {p : Reader α} (h : Reader.Locates source ts s p R)
    (hf : ∀ a k s', Moves k s s' → R a s'.place → Locates source ts s' (f a) T) :
    Locates source ts s (liftM p >>= f) T :=
  (lift h).bind hf

/-- A reader of which nothing but safety is asked, and then the parser `f`. -/
theorem passReader {p : Reader α} {R₀ : α → Nat → Prop} (hp : Reader.Safe source s p R₀)
    (hf : ∀ a k s', Moves k s s' → R₀ a k → Locates source ts s' (f a) T) :
    Locates source ts s (liftM p >>= f) T :=
  pass (.lift hp) hf

theorem map {g : α → β} (h : Locates source ts s p fun a j => T (g a) j) :
    Locates source ts s (g <$> p) T := by
  intro hs
  rw [ExceptT.run_map]
  refine Reader.Safe.map ((h hs).mono fun r k hr => ?_)
  cases r <;> exact hr

end Parser.Locates

/-! ## Loops -/

/-- `I` holds if the loop goes on, and `R` if it ends. -/
def Round.Located (I : σ → Nat → Prop) (R : α → Nat → Prop) : Round σ α → Nat → Prop
  | .next x, j => I x j
  | .done a, j => R a j

section
variable {I : σ → Nat → Prop} {R : α → Nat → Prop}

theorem Reader.Locates.loop [Inhabited α] {round : σ → Reader (Round σ α)} {x : σ}
    (hp : ∀ x k s', Moves k s s' → I x s'.place → Safe source s' (round x) Round.Consumes)
    (hx : I x s.place)
    (h : ∀ x k s', Moves k s s' → I x s'.place →
      Locates source ts s' (round x) (Round.Located I R)) :
    Locates source ts s (Parser.loop round x) R := by
  intro hs
  refine Safe.loop (I := fun y k => I y (s.place + k)) hx fun y k s' hk hy => ?_
  have hplace := hk.place_eq
  have hround := h y k s' hk (hplace ▸ hy) (hk.tokens.trans hs)
  refine ((hp y k s' hk (hplace ▸ hy)).and hround).mono fun r m hr => ?_
  rw [hplace, Nat.add_assoc] at hr
  cases r with
  | next z => exact ⟨hr.2, hr.1.2⟩
  | done a => exact hr.2

theorem Parser.Locates.loop {round : σ → Parser (Round σ α)} {x : σ}
    (hp : ∀ x k s', Moves k s s' → I x s'.place → Safe source s' (round x) Round.Consumes)
    (hx : I x s.place)
    (h : ∀ x k s', Moves k s s' → I x s'.place →
      Locates source ts s' (round x) (Round.Located I R)) :
    Locates source ts s (loopOrFail round x) R := by
  refine Reader.Locates.loop (I := I) (fun y k s' hk hy => ?_) hx fun y k s' hk hy => ?_
  · refine Reader.Safe.bind (hp y k s' hk hy) fun r m s'' _ hr => ?_
    rcases r with e | (y | a)
    · exact .pure ⟨⟩
    · exact .pure hr
    · exact .pure ⟨⟩
  · refine Reader.Locates.bind (h y k s' hk hy) fun r m s'' _ hr => ?_
    rcases r with e | (y | a) <;> exact .pure hr

end

namespace Parser

variable {P : Nat → Nat → α → Prop}

theorem orReport_locates {p : Parser α} {R₀ R : α → Nat → Prop} (hp : Parser.Safe source s p R₀)
    (h : Parser.Locates source ts s p R) :
    Reader.Locates source ts s (orReport p) fun a? j => ∀ a, a? = some a → R a j := by
  refine Reader.Locates.bind_safe hp h fun r k s' _ hr₀ hr => ?_
  cases r with
  | ok a => exact .pure fun _ ha => Option.some_inj.1 ha ▸ hr
  | error e => exact .pass (report_safe hr₀) fun _ _ _ _ _ => .pure nofun

/-- A declaration that is read ends where recovery would begin. -/
theorem orRecover_locates {p : Parser α} {K R : α → Nat → Prop} (hp : Parser.Safe source s p K)
    (h : Parser.Locates source ts s p R) :
    Reader.Locates source ts s (orRecover p) fun a? j => ∀ a, a? = some a → R a j := by
  refine Reader.Locates.bind_safe hp h fun r k s' _ hr₀ hr => ?_
  cases r with
  | ok a => exact .pure fun _ ha => Option.some_inj.1 ha ▸ hr
  | error e =>
    exact .pass (report_safe hr₀) fun _ _ _ _ _ => .pass synchronize_safe fun _ _ _ _ _ =>
      .pure nofun

theorem failAt_locates {kind : ParseErrorKind} {what : String} {R : α → Nat → Prop} :
    Parser.Locates source ts s (failAt kind what) R :=
  .get fun _ _ => .throw

/-- Items that are read while a condition holds stand in turn. -/
theorem whileAt_locates {condition : ParserState → Bool} {item : Parser α}
    (hp : ∀ k s', Moves k s s' → s'.Good source → condition s' = true →
      Parser.Safe source s' item fun _ k => 0 < k)
    (h : ∀ k s', Moves k s s' → condition s' = true →
      Parser.Locates source ts s' item fun a j => P s'.place j a) :
    Parser.Locates source ts s (whileAt condition item) fun as j => InTurn P s.place j as := by
  refine .loop (I := fun as j => InTurn P s.place j as) (fun _ k s' hk _ => itemAt_safe (hp k s' hk))
    (.nil (Nat.le_refl _)) fun as k s' hk has => .get fun _ _ => ?_
  refine .ite (fun hc => ?_) fun _ => .pure has
  refine (h k s' hk hc).bind fun a m s'' hm ha => .pure ?_
  exact has.append (.one (Nat.le_refl _) ha (Nat.le_refl _))

/-- One more item of a list stands behind the others; it may reach into the comma behind it, and
    the last one as far. -/
theorem itemAndComma_reaches {item : Parser α} {i c : Nat} {as : List α} (hc : c ≤ 1)
    (h : Parser.Locates source ts s item fun a j => ∃ b, b ≤ j + c ∧ P s.place b a)
    (has : InTurn P i s.place as) :
    Parser.Locates source ts s (itemAndComma item as)
      (Round.Located (fun as j => InTurn P i j as) fun as j => InTurn P i (j + c) as) := by
  refine h.bind fun a m s₁ h₁ ha => .passReader eatMark_safe fun b n s₂ h₂ hb => ?_
  obtain ⟨e, he, ha⟩ := ha
  have hplace := h₂.place_eq
  refine .ite (fun heaten => .pure ?_) fun _ => .pure ?_
  · have := hb heaten
    exact has.append (.one (Nat.le_refl _) ha (by omega))
  · exact has.append (.one (Nat.le_refl _) ha (by omega))

/-- Items that are separated by commas stand in turn; an item may reach into the comma behind
    it, and the last one as far. -/
theorem commaSeparated_reaches {item : Parser α} {R₀ : α → Nat → Prop} {c : Nat} (hc : c ≤ 1)
    (hp : ∀ k s', Moves k s s' → Parser.Safe source s' item R₀)
    (h : ∀ k s', Moves k s s' →
      Parser.Locates source ts s' item fun a j => ∃ b, b ≤ j + c ∧ P s'.place b a) :
    Parser.Locates source ts s (commaSeparated item) fun as j => InTurn P s.place (j + c) as :=
  .loop (fun _ k s' hk _ => itemAndComma_safe (hp k s' hk)) (.nil (Nat.le_refl _))
    fun _ k s' hk has => itemAndComma_reaches hc (h k s' hk) has

/-- Items that are separated by commas stand in turn. -/
theorem commaSeparated_locates {item : Parser α} {R₀ : α → Nat → Prop}
    (hp : ∀ k s', Moves k s s' → Parser.Safe source s' item R₀)
    (h : ∀ k s', Moves k s s' →
      Parser.Locates source ts s' item fun a j => ∃ b, b ≤ j ∧ P s'.place b a) :
    Parser.Locates source ts s (commaSeparated item) fun as j => InTurn P s.place j as :=
  commaSeparated_reaches (Nat.zero_le 1) hp h

end Parser

/-! ## Places and spans -/

namespace ParserState

theorem getElem?_place (s : ParserState) : s.tokens[s.place]? = some s.peek := by
  rw [tokens, place, List.getElem?_append_right (by simp), List.length_reverse, Nat.sub_self]
  cases ha : s.after with
  | nil => simp [peek, ha]
  | cons t ts => simp [peek, ha]

/-- The `eof` is never consumed. -/
theorem place_lt (s : ParserState) : s.place < s.tokens.length := by
  simp [tokens, place]

/-- Behind a place some token was consumed last. -/
theorem exists_previous {i : Nat} (hi : i < s.place) : ∃ t us, s.before = t :: us ∧
    s.tokens[us.length]? = some t ∧ s.place = us.length + 1 := by
  obtain ⟨t, us, h⟩ := List.exists_cons_of_length_pos (Nat.zero_lt_of_lt hi)
  refine ⟨t, us, h, ?_, by rw [place, h, List.length_cons]⟩
  rw [tokens, h, List.reverse_cons, List.append_assoc, List.getElem?_append_right (by simp)]
  simp

/-- The span of the token consumed last is that of the token before the place. -/
theorem previousSpan_stands (hs : s.tokens = ts) {i : Nat} (hi : i < s.place) :
    ∃ k t, i ≤ k ∧ k < s.place ∧ ts[k]? = some t ∧ t.span = s.previousSpan := by
  obtain ⟨t, us, hbefore, ht, hplace⟩ := exists_previous hi
  exact ⟨us.length, t, by omega, by omega, hs ▸ ht, by simp [previousSpan, hbefore]⟩

theorem begins_peek (hs : s.tokens = ts) : Begins ts s.place s.peek.span :=
  ⟨s.peek, hs ▸ getElem?_place s, rfl⟩

theorem Moves.spanFrom_eq {s' : ParserState} (h : Moves 0 s s') (start : Span) :
    s'.spanFrom start = s.spanFrom start := by
  obtain ⟨us, hus, -, hb⟩ := h.tokens_eq
  rw [List.eq_nil_of_length_eq_zero hus] at hb
  simp [spanFrom, hb]

namespace Good

variable {i j : Nat} {t u : Token}

theorem offset_le (h : s.Good source) (hs : s.tokens = ts) (ht : ts[i]? = some t)
    (hu : ts[j]? = some u) (hij : i ≤ j) :
    t.span.offset ≤ u.span.offset ∧ t.span.stop ≤ u.span.stop :=
  offset_le_of_ordered (hs ▸ h.ordered) ht hu hij

/-- The span from an earlier token on ends with the token consumed last. -/
theorem covers (h : s.Good source) (hs : s.tokens = ts) {start : Span} (hb : Begins ts i start)
    (hi : i < s.place) : (s.spanFrom start).Covers ts i s.place := by
  obtain ⟨t, ht, rfl⟩ := hb
  obtain ⟨u, us, hbefore, hu, hplace⟩ := exists_previous hi
  rw [hs] at hu
  have hle := h.offset_le hs ht hu (by omega)
  rw [hplace]
  refine .through (by omega) ht hu ?_ ?_
  · simp only [spanFrom, hbefore, Span.merge, if_pos hle.1]
  · simp only [spanFrom, hbefore, Span.merge_stop]
    exact Nat.max_eq_right hle.2

/-- The text from an earlier token on ends with the token consumed last. -/
theorem between?_eq (h : s.Good source) (hs : s.tokens = ts) {start : Span}
    (hb : Begins ts i start) (hi : i < s.place) :
    between? start.offset (max s.previousSpan.stop start.offset) source =
      (s.spanFrom start).sliceChars? source := by
  obtain ⟨t, ht, rfl⟩ := hb
  obtain ⟨u, us, hbefore, hu, hplace⟩ := exists_previous hi
  rw [hs] at hu
  have hle := h.offset_le hs ht hu (by omega)
  have hstop : t.span.offset ≤ t.span.stop := Nat.le_add_right _ _
  have h₁ : s.previousSpan = u.span := by simp [previousSpan, hbefore]
  have h₂ : s.spanFrom t.span = t.span.merge u.span := by simp [spanFrom, hbefore]
  have h₃ : (t.span.merge u.span).offset = t.span.offset := by simp [Span.merge, hle.1]
  rw [Span.sliceChars?_eq, h₁, h₂, h₃, Span.merge_stop, Nat.max_eq_right hle.2,
    Nat.max_eq_left (by omega)]

end Good

end ParserState

namespace Parser

theorem textBetween_locates {start stop : Nat} (hs : Boundary source start)
    (ht : Boundary source stop) (h : start ≤ stop) :
    Reader.Locates source ts s (textBetween start stop) fun text j => j = s.place ∧
      between? start stop source = some text.toList := by
  refine .get fun hg _ => ?_
  obtain ⟨cs, hcs⟩ := Option.isSome_iff_exists.1 (between?_isSome hs ht h)
  rw [hg.source_eq, hcs]
  exact .pure ⟨rfl, congrArg some String.toList_ofList.symm⟩

/-- The text from an earlier token on is what the span from there covers. -/
theorem textFrom_locates {i : Nat} {start : Span} (hb : Begins ts i start) (hi : i < s.place) :
    Reader.Locates source ts s (textFrom start) fun text j => j = s.place ∧
      s.place < ts.length ∧ (s.spanFrom start).Covers ts i s.place ∧
      (s.spanFrom start).sliceChars? source = some text.toList := by
  refine .get fun hg hs => ?_
  have htext := hg.between?_eq hs hb hi
  have hin : start.Inside source := by
    obtain ⟨t, ht, rfl⟩ := hb
    exact hg.inside (hs ▸ List.mem_of_getElem? ht)
  have hstop : Boundary source (max s.previousSpan.stop start.offset) := by
    rcases Nat.le_total s.previousSpan.stop start.offset with hle | hle
    · rw [Nat.max_eq_right hle]; exact hin.1
    · rw [Nat.max_eq_left hle]; exact hg.previous_inside.2
  exact (textBetween_locates hin.1 hstop (Nat.le_max_right _ _)).mono
    fun text j h => ⟨h.1, hs ▸ place_lt s, hg.covers hs hb hi, htext ▸ h.2⟩

/-! ## Steps of one token -/

theorem advance_one (h : s.peek.kind ≠ .eof) :
    Reader.Safe source s advance fun t k => t = s.peek ∧ k = 1 := by
  intro hg
  cases ha : s.after with
  | nil => exact absurd (hg.peek_kind_eq_eof.2 ha) h
  | cons t ts =>
    have : (advance.run s).2 = { s with before := t :: s.before, after := ts } := by
      show s.advance = _
      simp [ParserState.advance, ha]
    rw [this]
    exact ⟨1, ⟨rfl, rfl, ⟨[t], rfl, ha, rfl⟩, ⟨[], by simp⟩, rfl⟩, rfl, rfl⟩

theorem expectMark_one {mark : Punct} : Parser.Safe source s (expectMark mark) fun t k =>
    t = s.peek ∧ t.kind = .punct mark ∧ k = 1 := by
  refine .get fun _ => ?_
  split
  · rename_i ha
    refine .lift ((advance_one (peek_ne_eof ha nofun)).mono fun t k ht => ?_)
    exact ⟨ht.1, ht.1 ▸ beq_iff_eq.1 ha, ht.2⟩
  · exact failAt_safe

/-- An identifier is one token, whose span it has. -/
theorem ident_one : Parser.Safe source s ident fun i k => i.span = s.peek.span ∧ k = 1 := by
  refine .get fun _ => ?_
  split
  · rename_i ha
    exact .andThen (advance_one (peek_ne_eof ha nofun)) fun _ _ _ _ hk =>
      .pure ⟨congrArg Token.span hk.1, hk.2⟩
  · exact failAt_safe

end Parser

end CommandModules

/-
  Command modules — the basic readers are safe.

  Each of them has a lemma with its name that says what it consumes and what is
  known of its value; the readers of syntax are put together from these alone.

  * `skipGroup_safe`: a group consumes the token that opens it;
  * `synchronize_safe`: recovery consumes a token unless it begins at a closing
    brace or at the end.
-/
import CommandModules.Proofs.Safe.Rules
import CommandModules.Proofs.Token.Nested

namespace CommandModules

open ParserState

/-! ## Groups -/

namespace Group

theorem take_append (eof : Token) (marks : List Punct) (ts : List Token) :
    (take eof marks ts).taken ++ (take eof marks ts).rest = ts := by
  fun_induction take eof marks ts with
  | case1 => rfl
  | case2 => rfl
  | case3 _ _ _ _ _ _ ih => simpa using ih

theorem take_taken_ne_nil {eof : Token} {marks : List Punct} {ts : List Token} (h : ts ≠ []) :
    (take eof marks ts).taken ≠ [] := by
  fun_cases take eof marks ts with
  | case1 => exact absurd rfl h
  | case2 => simp
  | case3 => simp

/-- The errors of a group stand at its tokens or at the end of the text. -/
theorem take_errors {eof : Token} {marks : List Punct} {ts : List Token} {e : ParseError}
    (h : e ∈ (take eof marks ts).errors) : e.span = eof.span ∨ ∃ t ∈ ts, e.span = t.span := by
  have behind {t : Token} {marks : List Punct} (h : e ∈ (openBehind t marks).2) :
      e.span = t.span := by
    unfold openBehind at h
    repeat' split at h
    all_goals first
      | exact absurd h List.not_mem_nil
      | obtain rfl := List.mem_singleton.1 h
        rfl
  fun_induction take eof marks ts with
  | case1 marks =>
    obtain ⟨mark, -, rfl⟩ : ∃ mark, marks.head? = some mark ∧ unclosed eof mark = e := by
      simpa using h
    exact .inl rfl
  | case2 marks t => exact .inr ⟨t, by simp, behind h⟩
  | case3 marks t ts _ _ _ ih =>
    rcases List.mem_append.1 h with h | h
    · exact .inr ⟨t, by simp, behind h⟩
    · exact (ih h).imp_right fun ⟨u, hu, he⟩ => ⟨u, by simp [hu], he⟩

end Group

namespace Parser

variable {α : Type} {source : List Char} {s : ParserState}

theorem rounds_safe : Reader.Safe source s rounds fun n k => k = 0 ∧ n = s.after.length + 1 :=
  .get fun _ => .pure ⟨rfl, rfl⟩

/-! ## Texts -/

theorem textBetween_safe {start stop : Nat} (hs : Boundary source start)
    (ht : Boundary source stop) (h : start ≤ stop) :
    Reader.Safe source s (textBetween start stop) fun _ k => k = 0 := by
  refine .get fun hg => ?_
  rw [hg.source_eq]
  split
  · exact .pure rfl
  · rename_i heq
    simpa [heq] using between?_isSome hs ht h

theorem textFrom_safe {start : Span} (h : start.Inside source) :
    Reader.Safe source s (textFrom start) fun _ k => k = 0 := by
  refine .get fun hg => textBetween_safe h.1 ?_ (Nat.le_max_right _ _)
  rcases Nat.le_total s.previousSpan.stop start.offset with hle | hle
  · rw [Nat.max_eq_right hle]; exact h.1
  · rw [Nat.max_eq_left hle]; exact hg.previous_inside.2

/-! ## Single tokens -/

theorem advance_safe : Reader.Safe source s advance fun t k =>
    t.span.Inside source ∧ (s.after ≠ [] → 0 < k) := by
  intro hg
  cases ha : s.after with
  | nil =>
    refine ⟨0, ?_, hg.peek_inside, fun h => absurd rfl h⟩
    rw [show (advance.run s).2 = s by show s.advance = s; simp [ParserState.advance, ha]]
    exact .refl s
  | cons t ts =>
    have : (advance.run s).2 = { s with before := t :: s.before, after := ts } := by
      show s.advance = _
      simp [ParserState.advance, ha]
    rw [this]
    exact ⟨1, ⟨rfl, rfl, ⟨[t], rfl, ha, rfl⟩, ⟨[], by simp⟩, rfl⟩, hg.peek_inside, by simp⟩

theorem advance_passes : Reader.Safe source s advance fun _ _ => True :=
  advance_safe.mono fun _ _ _ => ⟨⟩

theorem advance_takes (h : s.peek.kind ≠ .eof) :
    Reader.Safe source s advance fun t k => t = s.peek ∧ 0 < k := by
  intro hg
  obtain ⟨k, hk, -, hpos⟩ := advance_safe hg
  exact ⟨k, hk, rfl, hpos (hg.after_ne_nil h)⟩

theorem advance_consumes (h : s.peek.kind ≠ .eof) :
    Reader.Safe source s advance fun _ k => 0 < k :=
  (advance_takes h).mono fun _ _ hk => hk.2

theorem advanceBy_moves {n : Nat} (h : n ≤ s.after.length) :
    Moves n s (ParserState.advanceBy n s) := by
  induction n generalizing s with
  | zero => exact .refl s
  | succ n ih =>
    cases ha : s.after with
    | nil => simp [ha] at h
    | cons t ts =>
      have h₁ : Moves 1 s s.advance := by
        simp only [ParserState.advance, ha]
        exact ⟨rfl, rfl, ⟨[t], rfl, ha, rfl⟩, ⟨[], by simp⟩, rfl⟩
      have := h₁.length_after
      have h₂ := h₁.trans (ih (show n ≤ s.advance.after.length by omega))
      rwa [Nat.add_comm] at h₂

theorem advanceBy_safe {n : Nat} (h : n ≤ s.after.length) :
    Reader.Safe source s (advanceBy n) fun _ k => k = n := by
  refine .get fun hg => ?_
  rw [if_pos h]
  exact fun _ => ⟨n, advanceBy_moves h, rfl⟩

theorem report_safe {e : ParseError} (h : e.span.Inside source) :
    Reader.Safe source s (report e) fun _ _ => True :=
  fun hg => ⟨0, ⟨rfl, rfl, ⟨[], rfl, rfl, rfl⟩, ⟨[e], rfl, by simpa [hg.source_eq]⟩, rfl⟩, ⟨⟩⟩

theorem eat_safe {kind : TokenKind} (h : kind ≠ .eof) :
    Reader.Safe source s (eat kind) fun b k => b = true → 0 < k := by
  refine .get fun _ => ?_
  split
  · exact (advance_consumes (peek_ne_eof ‹_› h)).discard.bind fun _ _ _ _ _ => .pure (by omega)
  · exact .pure nofun

theorem eatMark_safe {mark : Punct} :
    Reader.Safe source s (eatMark mark) fun b k => b = true → 0 < k :=
  eat_safe nofun

theorem eatWord_safe {word : Keyword} :
    Reader.Safe source s (eatWord word) fun b k => b = true → 0 < k :=
  eat_safe nofun

theorem eatMark_passes {mark : Punct} : Reader.Safe source s (eatMark mark) fun _ _ => True :=
  eatMark_safe.mono fun _ _ _ => ⟨⟩

theorem eatWord_passes {word : Keyword} : Reader.Safe source s (eatWord word) fun _ _ => True :=
  eatWord_safe.mono fun _ _ _ => ⟨⟩

theorem unexpected_span (kind : ParseErrorKind) (what : String) (found : Token) :
    (unexpected kind what found).span = found.span := by
  unfold unexpected
  split <;> rfl

theorem failAt_safe {kind : ParseErrorKind} {what : String} {R : α → Nat → Prop} :
    Parser.Safe source s (failAt kind what) R := by
  refine .get fun hg => .throw ?_
  rw [unexpected_span]
  exact hg.peek_inside

theorem expect_safe {kind : TokenKind} (h : kind ≠ .eof) :
    Parser.Safe source s (expect kind) fun _ k => 0 < k := by
  refine .get fun _ => ?_
  split
  · exact .lift (advance_consumes (peek_ne_eof ‹_› h))
  · exact failAt_safe

theorem expectWord_safe {word : Keyword} :
    Parser.Safe source s (expect (.keyword word)) fun _ k => 0 < k :=
  expect_safe nofun

theorem expectMark_safe {mark : Punct} :
    Parser.Safe source s (expectMark mark) fun _ k => 0 < k :=
  expect_safe nofun

theorem orReport_safe {p : Parser α} {R : α → Nat → Prop} (h : Parser.Safe source s p R) :
    Reader.Safe source s (orReport p) fun a? k => ∀ a, a? = some a → R a k := by
  refine Reader.Safe.bind h fun r k s' _ hr => ?_
  cases r with
  | ok a => exact .pure fun _ ha => Option.some_inj.1 ha ▸ hr
  | error e => exact (report_safe hr).bind fun _ _ _ _ _ => .pure nofun

theorem expectClosing_safe {mark : Punct} :
    Reader.Safe source s (expectClosing mark) fun _ _ => True :=
  ((orReport_safe expectMark_safe).mono fun _ _ _ => ⟨⟩).discard

theorem ident_safe : Parser.Safe source s ident fun i k => IsWord i.name .identifier ∧ 0 < k := by
  refine .get fun hg => ?_
  split
  · rename_i ha
    refine .andThen (advance_takes (peek_ne_eof ha nofun)) fun _ _ _ _ hk => .pure ?_
    exact ⟨hk.1 ▸ hg.peek_isWord ha, hk.2⟩
  · exact failAt_safe

theorem word_safe : Reader.Safe source s word fun w k =>
    w.span.Inside source ∧ (s.after ≠ [] → 0 < k) :=
  advance_safe.bind fun _ _ _ _ hk => .pure hk

theorem word_consumes (h : s.peek.kind ≠ .eof) :
    Reader.Safe source s word fun w k => w.span.Inside source ∧ 0 < k := by
  intro hg
  obtain ⟨k, hk, hw, hpos⟩ := word_safe hg
  exact ⟨k, hk, hw, hpos (hg.after_ne_nil h)⟩

theorem skipGroup_safe : Reader.Safe source s skipGroup fun _ k => s.after ≠ [] → 0 < k := by
  intro hg
  refine ⟨_, ⟨rfl, rfl, ⟨_, rfl, (Group.take_append s.eof [] s.after).symm, rfl⟩,
    ⟨_, rfl, fun e he => ?_⟩, rfl⟩, fun h => List.length_pos_iff.2 (Group.take_taken_ne_nil h)⟩
  rw [hg.source_eq]
  rcases Group.take_errors he with h | ⟨t, ht, h⟩
  · exact h ▸ hg.inside (by simp [tokens])
  · exact h ▸ hg.inside (by simp [tokens, ht])

theorem moveOn_safe {place : Nat} : Reader.Safe source s (moveOn place) fun _ k =>
    s.place = place → s.isAtMark .rightBrace = false → s.after ≠ [] → 0 < k := by
  refine .get fun hg => ?_
  split
  · exact (advance_safe.mono fun _ _ hk _ _ => hk.2).discard
  · exact .pure fun h h' => by simp_all

/-! ## Lists -/

theorem itemAndComma_safe {item : Parser α} {as : List α} {R : α → Nat → Prop}
    (h : Parser.Safe source s item R) :
    Parser.Safe source s (itemAndComma item as) Round.Consumes := by
  refine h.bind fun a _ _ _ _ => .andThen eatMark_safe fun b k _ _ hb => ?_
  split
  · exact .pure ⟨⟨⟩, by have := hb ‹_›; omega⟩
  · exact .pure ⟨⟩

theorem commaSeparated_safe {item : Parser α} {R : α → Nat → Prop}
    (h : ∀ k s', Moves k s s' → Parser.Safe source s' item R) :
    Parser.Safe source s (commaSeparated item) fun _ _ => True :=
  .loop_consumes fun _ k s' hk => itemAndComma_safe (h k s' hk)

theorem itemAt_safe {condition : ParserState → Bool} {item : Parser α} {as : List α}
    (h : s.Good source → condition s = true → Parser.Safe source s item fun _ k => 0 < k) :
    Parser.Safe source s (itemAt condition item as) Round.Consumes := by
  refine .get fun hg => ?_
  split
  · exact (h hg ‹_›).bind fun a k s'' _ hk => .pure ⟨⟨⟩, by omega⟩
  · exact .pure ⟨⟩

theorem whileAt_safe {condition : ParserState → Bool} {item : Parser α}
    (h : ∀ k s', Moves k s s' → s'.Good source → condition s' = true →
      Parser.Safe source s' item fun _ k => 0 < k) :
    Parser.Safe source s (whileAt condition item) fun _ _ => True :=
  .loop_consumes fun _ k s' hk => itemAt_safe (h k s' hk)

/-! ## Recovery -/

theorem synchronizeStep_safe : Reader.Safe source s synchronizeStep fun r k =>
    r.Consumes k ∧ (s.after ≠ [] → s.isAtMark .rightBrace = false → 0 < k) := by
  refine .get fun hg => ?_
  split
  · rename_i h
    refine .pure ⟨⟨⟩, fun ha hb => ?_⟩
    rw [hb, Bool.or_false] at h
    exact absurd (hg.peek_kind_eq_eof.1 (beq_iff_eq.1 h)) ha
  · rename_i hne
    have hne : s.after ≠ [] := fun ha => hne (by
      rw [show s.isAtEof = true from beq_iff_eq.2 (hg.peek_kind_eq_eof.2 ha), Bool.true_or])
    split
    · exact advance_safe.bind fun _ _ _ _ hk => .pure ⟨⟨⟩, fun _ _ => by have := hk.2 hne; omega⟩
    · split
      · refine skipGroup_safe.bind fun _ _ _ _ hk => ?_
        refine eatMark_passes.discard.bind fun _ _ _ _ _ => .pure ?_
        exact ⟨⟨⟩, fun _ _ => by have := hk hne; omega⟩
      · refine skipGroup_safe.bind fun _ _ _ _ hk => .pure ?_
        exact ⟨⟨⟨⟩, by have := hk hne; omega⟩, fun _ _ => by have := hk hne; omega⟩

theorem synchronize_safe : Reader.Safe source s synchronize fun _ k =>
    s.after ≠ [] → s.isAtMark .rightBrace = false → 0 < k := by
  refine .loop (I := fun _ _ => True) ⟨⟩ fun _ k s' hk _ => synchronizeStep_safe.mono fun r m hr => ?_
  cases r with
  | next => exact ⟨⟨⟩, hr.1.2⟩
  | done =>
    -- the first step stands where the recovery begins
    intro ha hb
    rcases Nat.eq_zero_or_pos k with rfl | hpos
    · rw [Nat.zero_add]
      exact hr.2 (hk.after_eq ▸ ha) (hk.isAtMark_eq ▸ hb)
    · omega

theorem orRecover_safe {p : Parser α} {R : α → Nat → Prop} (h : Parser.Safe source s p R) :
    Reader.Safe source s (orRecover p) fun a? k => (∀ a, a? = some a → R a k) ∧
      (a? = none → s.after ≠ [] → s.isAtMark .rightBrace = false → 0 < k) := by
  refine Reader.Safe.bind h fun r k s' hk hr => ?_
  cases r with
  | ok a => exact .pure ⟨fun _ ha => Option.some_inj.1 ha ▸ hr, nofun⟩
  | error e =>
    refine (report_safe hr).bind fun _ j s₁ hj _ => synchronize_safe.bind fun _ m s₂ _ hm => ?_
    refine .pure ⟨nofun, fun _ ha hb => ?_⟩
    rcases Nat.eq_zero_or_pos (k + j) with hz | hpos
    · have h₀ := hk.trans hj
      rw [hz] at h₀
      have := hm (h₀.after_eq ▸ ha) (h₀.isAtMark_eq ▸ hb)
      omega
    · omega

end Parser

end CommandModules

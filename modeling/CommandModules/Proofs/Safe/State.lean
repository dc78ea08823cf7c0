/-
  Command modules — the states that a parser goes through.

  * `Boundary source n`: a character of the text ends at the offset `n`;
    `Span.Inside source s`: the span lies in the text, between two boundaries;
  * `ParserState.Good source s`: the tokens of the state stand in the text, in
    order, and only the last one is an `eof`;
  * `ParserState.Moves k s s'`: from `s` a parser has gone `k` tokens ahead to
    `s'`; what it recorded lies in the text, and no operation was undefined.
-/
import CommandModules.Proofs.Token.Words
import CommandModules.Syntax.Parser.Basic

namespace CommandModules

open Text

/-! ## Boundaries -/

/-- Does a character end, or the text begin, at the offset `n`? -/
def Boundary (source : List Char) (n : Nat) : Prop :=
  ∃ front back, source = front ++ back ∧ n = bytes front

theorem between?_isSome {source : List Char} {start stop : Nat} (hs : Boundary source start)
    (ht : Boundary source stop) (h : start ≤ stop) : (between? start stop source).isSome := by
  obtain ⟨front, back, hf, rfl⟩ := hs
  obtain ⟨front', back', hf', rfl⟩ := ht
  rcases List.append_eq_append_iff.1 (hf.symm.trans hf') with ⟨mid, rfl, hm⟩ | ⟨mid, rfl, hm⟩
  · simp [between?, hf, hm, splitAtByte?_bytes]
  · -- the stretch between the two ends is empty
    have : mid = [] := by
      by_contra hne
      have := bytes_pos hne
      rw [bytes_append] at h
      omega
    subst this
    have := splitAtByte?_bytes [] back
    simp_all [between?, splitAtByte?_bytes]

/-- Does the span lie in the text, between two boundaries? -/
def Span.Inside (source : List Char) (s : Span) : Prop :=
  Boundary source s.offset ∧ Boundary source s.stop

theorem Span.merge_stop (s t : Span) : (s.merge t).stop = max s.stop t.stop := by
  unfold merge stop
  dsimp only
  split <;> omega

namespace Span.Inside

variable {source : List Char} {s t : Span}

theorem covering {front mid back : List Char} (h : source = front ++ (mid ++ back)) :
    (Span.covering front mid).Inside source :=
  ⟨⟨front, _, h, rfl⟩, front ++ mid, back, by simp [h], Span.covering_stop front mid⟩

theorem merge (hs : s.Inside source) (ht : t.Inside source) : (s.merge t).Inside source := by
  refine ⟨?_, ?_⟩
  · unfold Span.merge
    dsimp only
    split
    exacts [hs.1, ht.1]
  · rw [Span.merge_stop]
    rcases Nat.le_total s.stop t.stop with h | h
    · rw [Nat.max_eq_right h]; exact ht.2
    · rw [Nat.max_eq_left h]; exact hs.2

/-- A span in a text can be cut out of it. -/
theorem sliceChars? (hs : s.Inside source) : (s.sliceChars? source).isSome := by
  have := between?_isSome hs.1 hs.2 (Nat.le_add_right _ _)
  simpa [between?, Span.stop, Span.sliceChars?] using this

end Span.Inside

/-! ## Good states -/

/-- Is the token cut from the text where its span says? -/
def Token.PlacedIn (source : List Char) (t : Token) : Prop :=
  ∃ front lexeme back, source = front ++ (lexeme ++ back) ∧ t.lexeme = String.ofList lexeme ∧
    t.span = .covering front lexeme

theorem Token.PlacedIn.inside {source : List Char} {t : Token} (h : t.PlacedIn source) :
    t.span.Inside source := by
  obtain ⟨front, lexeme, back, hs, -, ht⟩ := h
  rw [ht]
  exact .covering hs

namespace ParserState

/-- All tokens, the `eof` included. -/
def tokens (s : ParserState) : List Token :=
  s.before.reverse ++ (s.after ++ [s.eof])

/-- The tokens are those of the text `source`. -/
structure Good (source : List Char) (s : ParserState) : Prop where
  source_eq : s.source = source
  placed : ∀ t ∈ s.tokens, t.PlacedIn source
  ordered : s.tokens.Pairwise fun t u => t.span.stop ≤ u.span.offset
  eof_kind : s.eof.kind = .eof
  ne_eof : ∀ t ∈ s.after, t.kind ≠ .eof
  worded : ∀ t ∈ s.tokens, t.IsWorded

/-- The state `s'` is `k` tokens ahead of `s`, in the same text; the errors recorded
    on the way lie in the text, and no operation was undefined. -/
structure Moves (k : Nat) (s s' : ParserState) : Prop where
  source_eq : s'.source = s.source
  eof_eq : s'.eof = s.eof
  tokens_eq : ∃ ts, ts.length = k ∧ s.after = ts ++ s'.after ∧ s'.before = ts.reverse ++ s.before
  errors_eq : ∃ es, s'.errors = s.errors ++ es ∧ ∀ e ∈ es, e.span.Inside s.source
  faults_eq : s'.faults = s.faults

namespace Moves

variable {k m : Nat} {s s' s'' : ParserState}

theorem refl (s : ParserState) : Moves 0 s s :=
  ⟨rfl, rfl, ⟨[], rfl, rfl, rfl⟩, ⟨[], by simp⟩, rfl⟩

theorem trans (h : Moves k s s') (h' : Moves m s' s'') : Moves (k + m) s s'' := by
  obtain ⟨ts, hk, ha, hb⟩ := h.tokens_eq
  obtain ⟨us, hm, ha', hb'⟩ := h'.tokens_eq
  obtain ⟨es, he, hi⟩ := h.errors_eq
  obtain ⟨fs, hf, hj⟩ := h'.errors_eq
  refine ⟨h'.source_eq.trans h.source_eq, h'.eof_eq.trans h.eof_eq,
    ⟨ts ++ us, by simp [hk, hm], by rw [ha, ha', List.append_assoc],
      by rw [hb', hb, List.reverse_append, List.append_assoc]⟩,
    ⟨es ++ fs, by rw [hf, he, List.append_assoc], fun e h'' => ?_⟩,
    h'.faults_eq.trans h.faults_eq⟩
  rcases List.mem_append.1 h'' with h'' | h''
  · exact hi e h''
  · exact h.source_eq ▸ hj e h''

theorem length_after (h : Moves k s s') : s'.after.length + k = s.after.length := by
  obtain ⟨ts, rfl, ha, -⟩ := h.tokens_eq
  rw [ha, List.length_append, Nat.add_comm]

theorem place_eq (h : Moves k s s') : s'.place = s.place + k := by
  obtain ⟨ts, rfl, -, hb⟩ := h.tokens_eq
  simp [place, hb, Nat.add_comm]

theorem after_eq (h : Moves 0 s s') : s'.after = s.after := by
  obtain ⟨ts, hts, ha, -⟩ := h.tokens_eq
  rw [ha, List.eq_nil_of_length_eq_zero hts, List.nil_append]

theorem peek_eq (h : Moves 0 s s') : s'.peek = s.peek := by
  rw [peek, peek, h.after_eq, h.eof_eq]

theorem isAtMark_eq (h : Moves 0 s s') {mark : Punct} : s'.isAtMark mark = s.isAtMark mark := by
  rw [isAtMark, isAtMark, isAt, isAt, h.peek_eq]

theorem tokens (h : Moves k s s') : s'.tokens = s.tokens := by
  obtain ⟨ts, -, ha, hb⟩ := h.tokens_eq
  simp [ParserState.tokens, ha, hb, h.eof_eq]

/-- Going back to where the moves began keeps what was recorded on the way. -/
theorem returnTo (h : Moves k s s') : Moves 0 s (s'.returnTo s) :=
  ⟨h.source_eq, h.eof_eq, ⟨[], rfl, rfl, rfl⟩, h.errors_eq, h.faults_eq⟩

theorem good {source : List Char} (h : Moves k s s') (hs : s.Good source) : s'.Good source where
  source_eq := h.source_eq.trans hs.source_eq
  placed := h.tokens ▸ hs.placed
  ordered := h.tokens ▸ hs.ordered
  eof_kind := h.eof_eq ▸ hs.eof_kind
  ne_eof t ht := by
    obtain ⟨ts, -, ha, -⟩ := h.tokens_eq
    exact hs.ne_eof t (ha ▸ List.mem_append_right ts ht)
  worded := h.tokens ▸ hs.worded

end Moves

theorem peek_ne_eof {s : ParserState} {kind : TokenKind} (ha : s.isAt kind = true)
    (hk : kind ≠ .eof) : s.peek.kind ≠ .eof :=
  beq_iff_eq.1 ha ▸ hk

theorem peek_ne_eof_of_mark {s : ParserState} {mark : Punct} (ha : s.isAtMark mark = true) :
    s.peek.kind ≠ .eof :=
  peek_ne_eof ha nofun

namespace Good

variable {source : List Char} {s : ParserState}

theorem inside (h : s.Good source) {t : Token} (ht : t ∈ s.tokens) : t.span.Inside source :=
  (h.placed t ht).inside

theorem peekAt_mem (s : ParserState) (n : Nat) : s.peekAt n ∈ s.tokens := by
  rw [peekAt]
  cases ht : s.after[n]? with
  | none => simp [tokens]
  | some t => simp [tokens, List.mem_of_getElem? ht]

theorem peek_eq (s : ParserState) : s.peek = s.peekAt 0 := by
  simp [peek, peekAt, List.head?_eq_getElem?]

theorem peek_inside (h : s.Good source) : s.peek.span.Inside source :=
  h.inside (peek_eq s ▸ peekAt_mem s 0)

/-- The current token is a word if it is an identifier. -/
theorem peek_isWord (h : s.Good source) (hk : s.isAt .identifier = true) :
    IsWord s.peek.lexeme .identifier := by
  have := h.worded s.peek (peek_eq s ▸ peekAt_mem s 0)
  rw [Token.IsWorded, beq_iff_eq.1 hk] at this
  exact this rfl

theorem before_inside (h : s.Good source) {t : Token} (ht : t ∈ s.before) :
    t.span.Inside source :=
  h.inside (by simp [tokens, ht])

theorem previous_inside (h : s.Good source) : s.previousSpan.Inside source := by
  unfold previousSpan
  split
  · rename_i heq
    exact h.before_inside (by simp [heq])
  · exact h.peek_inside

theorem spanFrom_inside (h : s.Good source) {start : Span} (hs : start.Inside source) :
    (s.spanFrom start).Inside source := by
  unfold spanFrom
  split
  · rename_i heq
    exact hs.merge (h.before_inside (by simp [heq]))
  · exact hs

/-- A token that is consumed ends behind the place where the moves began. -/
theorem offset_le_stop (h : s.Good source) {k : Nat} {s' : ParserState} (hk : Moves k s s')
    (hpos : 0 < k) : s.peek.span.offset ≤ s'.previousSpan.stop := by
  obtain ⟨ts, rfl, ha, hb⟩ := hk.tokens_eq
  obtain ⟨us, t, rfl⟩ := ts.eq_nil_or_concat.resolve_left (List.length_pos_iff.1 hpos)
  rw [List.concat_eq_append] at ha hb
  have hprev : s'.previousSpan = t.span := by simp [previousSpan, hb]
  rw [hprev]
  cases us with
  | nil => simp [peek, ha, Span.stop]
  | cons u us =>
    have hpair : (u :: (us ++ [t])).Pairwise fun t u => t.span.stop ≤ u.span.offset := by
      refine h.ordered.sublist ?_
      simp [ParserState.tokens, ha]
    have : u.span.stop ≤ t.span.offset := List.rel_of_pairwise_cons hpair (by simp)
    have hpeek : s.peek = u := by simp [peek, ha]
    rw [hpeek]
    unfold Span.stop at *
    omega

/-- The current token is an `eof` when nothing is left, and only then. -/
theorem peek_kind_eq_eof (h : s.Good source) : s.peek.kind = .eof ↔ s.after = [] := by
  unfold peek
  cases ha : s.after with
  | nil => simp [h.eof_kind]
  | cons t ts => simpa using h.ne_eof t (by simp [ha])

theorem after_ne_nil (h : s.Good source) (hk : s.peek.kind ≠ .eof) : s.after ≠ [] :=
  mt h.peek_kind_eq_eof.2 hk

end Good

end ParserState

end CommandModules

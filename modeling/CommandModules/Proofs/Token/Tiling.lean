/-
  Command modules — tokens tile the text.

  A text is cut into gaps and tokens, in turn.  A `Gap` holds trivia only:
  blanks, comments and lines that begin with `#`, behind an optional byte order
  mark; the last comment of a text may be open.

  * `gapEnd_covers`: what is skipped between two tokens is a gap;
  * `Tiling pre rest ts`: the tokens `ts` are cut from `rest`, which stands behind
    `pre`, and each carries its lexeme and its place;
  * `tokenize_tiles`: the tokens of a text are a tiling of it, which places every
    one of them (`Tiling.placed`, `Tiling.ordered`);
  * `tokenize_limits`: the longest text for which 32 bits suffice to count its bytes
    is too long for them to count its columns.
-/
import CommandModules.Proofs.Text.Bytes
import CommandModules.Proofs.Token.Suffix

namespace CommandModules

open Text

/-! ## Gaps -/

/-- Blanks, comments and lines that begin with `#`; only at the end of a text may
    the last comment lack its end. -/
inductive Trivia (atEnd : Prop) : List Char → Prop
  | nil : Trivia atEnd []
  | blank {c cs} : isBlank c = true → Trivia atEnd cs → Trivia atEnd (c :: cs)
  | line {opener body cs} : opener = ['#'] ∨ opener = ['/', '/'] → '\n' ∉ body →
      Trivia atEnd cs → Trivia atEnd (opener ++ (body ++ '\n' :: cs))
  | lastLine {opener body} : atEnd → opener = ['#'] ∨ opener = ['/', '/'] → '\n' ∉ body →
      Trivia atEnd (opener ++ body)
  | block {body cs} : ¬ ['*', '/'] <:+: body → Trivia atEnd cs →
      Trivia atEnd ('/' :: '*' :: (body ++ '*' :: '/' :: cs))
  | openBlock {body} : atEnd → ¬ ['*', '/'] <:+: body → Trivia atEnd ('/' :: '*' :: body)

namespace Trivia

variable {atEnd : Prop} {gap rest : List Char}

/-- Blanks are trivia. -/
theorem blanks {ws : List Char} (h : ∀ c ∈ ws, isBlank c = true) : Trivia atEnd ws := by
  induction ws with
  | nil => exact .nil
  | cons c ws ih =>
    obtain ⟨hc, hws⟩ := List.forall_mem_cons.1 h
    exact .blank hc (ih hws)

theorem append (h : Trivia False gap) (h' : Trivia atEnd rest) :
    Trivia atEnd (gap ++ rest) := by
  induction h with
  | nil => exact h'
  | blank hc _ ih => exact .blank hc ih
  | line ho hb _ ih => simpa using Trivia.line ho hb ih
  | lastLine h => exact h.elim
  | block hb _ ih => simpa using Trivia.block hb ih
  | openBlock h => exact h.elim

/-- How trivia begins, if it does not begin with a blank. -/
theorem head {c : Char} (h : Trivia False (c :: gap)) :
    isBlank c = true ∨ c = '#' ∨ c = '/' := by
  generalize hcs : c :: gap = cs at h
  cases h with
  | nil => cases hcs
  | blank hc =>
    cases hcs
    exact .inl hc
  | line ho =>
    rcases ho with rfl | rfl <;> cases hcs
    exacts [.inr (.inl rfl), .inr (.inr rfl)]
  | lastLine h => exact h.elim
  | block =>
    cases hcs
    exact .inr (.inr rfl)
  | openBlock h => exact h.elim

end Trivia

/-- What stands before a token: trivia behind an optional byte order mark. -/
inductive Gap (atEnd : Prop) : List Char → Prop
  | plain {cs} : Trivia atEnd cs → Gap atEnd cs
  | marked {cs} : Trivia atEnd cs → Gap atEnd ('\uFEFF' :: cs)

/-- What a gap goes on with in the given mode. -/
def GapMode.Covers (atEnd : Prop) (gap : List Char) : GapMode → Prop
  | .between => Trivia atEnd gap
  | .line => (∃ body cs, gap = body ++ '\n' :: cs ∧ '\n' ∉ body ∧ Trivia atEnd cs) ∨
      (atEnd ∧ '\n' ∉ gap)
  | .block _ => (∃ body cs, gap = body ++ '*' :: '/' :: cs ∧ ¬ ['*', '/'] <:+: body ∧
      Trivia atEnd cs) ∨ (atEnd ∧ ¬ ['*', '/'] <:+: gap)

theorem GapMode.Covers.line_trivia {atEnd : Prop} {opener gap : List Char}
    (h : GapMode.line.Covers atEnd gap) (ho : opener = ['#'] ∨ opener = ['/', '/']) :
    Trivia atEnd (opener ++ gap) := by
  rcases h with ⟨body, cs, rfl, hb, ht⟩ | ⟨he, hb⟩
  · exact .line ho hb ht
  · exact .lastLine he ho hb

theorem GapMode.Covers.block_trivia {atEnd : Prop} {start gap : List Char}
    (h : (GapMode.block start).Covers atEnd gap) : Trivia atEnd ('/' :: '*' :: gap) := by
  rcases h with ⟨body, cs, rfl, hb, ht⟩ | ⟨he, hb⟩
  · exact .block hb ht
  · exact .openBlock he hb

theorem not_closing_infix_cons {c : Char} {body : List Char}
    (hc : ∀ cs, c = '*' → body = '/' :: cs → False) (hb : ¬ ['*', '/'] <:+: body) :
    ¬ ['*', '/'] <:+: c :: body := by
  rw [List.infix_cons_iff]
  rintro (h | h)
  · obtain ⟨cs, h⟩ := h
    cases h
    exact hc cs rfl rfl
  · exact hb h

/-- **What is skipped between two tokens is a gap.** -/
theorem gapEnd_covers (mode : GapMode) (cs : List Char) : ∃ gap,
    cs = gap ++ (gapEnd mode cs).rest ∧ mode.Covers ((gapEnd mode cs).rest = []) gap := by
  fun_induction gapEnd mode cs with
  | case1 => exact ⟨[], rfl, .nil⟩
  | case2 cs ih =>
    obtain ⟨gap, h1, h2⟩ := ih
    exact ⟨'#' :: gap, by rw [List.cons_append, ← h1], h2.line_trivia (Or.inl rfl)⟩
  | case3 cs ih =>
    obtain ⟨gap, h1, h2⟩ := ih
    exact ⟨'/' :: '/' :: gap, by rw [List.cons_append, List.cons_append, ← h1],
      h2.line_trivia (Or.inr rfl)⟩
  | case4 cs ih =>
    obtain ⟨gap, h1, h2⟩ := ih
    exact ⟨'/' :: '*' :: gap, by rw [List.cons_append, List.cons_append, ← h1], h2.block_trivia⟩
  | case5 c cs _ _ _ hc ih =>
    obtain ⟨gap, h1, h2⟩ := ih
    exact ⟨c :: gap, by rw [List.cons_append, ← h1], .blank hc h2⟩
  | case6 => exact ⟨[], rfl, .nil⟩
  | case7 => exact ⟨[], rfl, Or.inr ⟨rfl, List.not_mem_nil⟩⟩
  | case8 cs ih =>
    obtain ⟨gap, h1, h2⟩ := ih
    exact ⟨'\n' :: gap, by rw [List.cons_append, ← h1], Or.inl ⟨[], gap, rfl, List.not_mem_nil, h2⟩⟩
  | case9 c cs hc ih =>
    obtain ⟨gap, h1, h2⟩ := ih
    refine ⟨c :: gap, by rw [List.cons_append, ← h1], ?_⟩
    rcases h2 with ⟨body, ds, rfl, hb, ht⟩ | ⟨he, hb⟩
    · exact Or.inl ⟨c :: body, ds, rfl, by simp [hb, Ne.symm hc], ht⟩
    · exact Or.inr ⟨he, by simp [hb, Ne.symm hc]⟩
  | case10 start => exact ⟨[], rfl, Or.inr ⟨rfl, by simp⟩⟩
  | case11 start cs ih =>
    obtain ⟨gap, h1, h2⟩ := ih
    exact ⟨'*' :: '/' :: gap, by rw [List.cons_append, List.cons_append, ← h1],
      Or.inl ⟨[], gap, rfl, by simp, h2⟩⟩
  | case12 start c cs hc ih =>
    obtain ⟨gap, h1, h2⟩ := ih
    refine ⟨c :: gap, by rw [List.cons_append, ← h1], ?_⟩
    -- the text goes on with `gap`, so `c` and its head are no end of a comment
    have hne (ds es : List Char) (h : cs = ds ++ es) : ∀ fs, c = '*' → ds = '/' :: fs → False := by
      rintro fs rfl rfl
      exact hc (fs ++ es) rfl h
    rcases h2 with ⟨body, ds, rfl, hb, ht⟩ | ⟨he, hb⟩
    · rw [List.append_assoc] at h1
      exact Or.inl ⟨c :: body, ds, rfl, not_closing_infix_cons (hne body _ h1) hb, ht⟩
    · exact Or.inr ⟨he, not_closing_infix_cons (hne gap _ h1) hb⟩

theorem skipGap_covers (cs : List Char) : ∃ gap,
    cs = gap ++ (skipGap cs).rest ∧ Gap ((skipGap cs).rest = []) gap := by
  unfold skipGap
  split
  · rename_i cs
    obtain ⟨gap, h1, h2⟩ := gapEnd_covers .between cs
    exact ⟨'\uFEFF' :: gap, by rw [List.cons_append, ← h1], .marked h2⟩
  · obtain ⟨gap, h1, h2⟩ := gapEnd_covers .between cs
    exact ⟨gap, h1, .plain h2⟩

/-! ## Places -/

/-- The stretch of `mid` in a text that goes on with it behind `pre`. -/
def Span.covering (pre mid : List Char) : Span :=
  ⟨bytes pre, 1 + .ofNat (pre.count '\n'), 1 + .ofNat (bytes (lastLine pre)), bytes mid⟩

@[simp] theorem Span.covering_stop (pre mid : List Char) :
    (Span.covering pre mid).stop = bytes (pre ++ mid) := by
  simp [Span.covering, Span.stop]

section
variable (pre mid : List Char)

theorem Span.covering_line :
    (Span.covering pre mid).line.toNat = (1 + pre.count '\n') % UInt32.size :=
  Position.toNat_one_add _

theorem Span.covering_column :
    (Span.covering pre mid).column.toNat = (1 + bytes (lastLine pre)) % UInt32.size :=
  Position.toNat_one_add _

end

namespace Cursor

/-- The place behind `pre` where `rest` is left. -/
def behind (pre rest : List Char) : Cursor :=
  ⟨rest, .after .start pre⟩

variable (pre mid rest : List Char)

theorem behind_upTo : (behind pre (mid ++ rest)).upTo rest = mid := by
  simp [behind, upTo]

theorem behind_skipTo : (behind pre (mid ++ rest)).skipTo rest = behind (pre ++ mid) rest := by
  rw [skipTo, behind_upTo, behind, behind, Position.after_append]

theorem behind_spanTo : (behind pre (mid ++ rest)).spanTo rest = .covering pre mid := by
  rw [spanTo, behind_skipTo]
  simp [behind, Span.between, Span.covering, Position.start_after]

theorem behind_tokenTo (kind : TokenKind) :
    (behind pre (mid ++ rest)).tokenTo kind rest =
      ⟨kind, String.ofList mid, .covering pre mid⟩ := by
  rw [tokenTo, behind_upTo, behind_spanTo]

/-- The next token is the `eof`, or it is cut from the text behind a gap. -/
theorem next_behind (pre text : List Char) :
    (∃ gap, text = gap ∧ Gap True gap ∧
      (behind pre text).next.token = ⟨.eof, "", .covering (pre ++ gap) []⟩ ∧
      (behind pre text).next.cursor = behind (pre ++ gap) []) ∨
    ∃ gap lexeme rest kind, text = gap ++ (lexeme ++ rest) ∧ Gap False gap ∧ lexeme ≠ [] ∧
      kind ≠ .eof ∧
      (behind pre text).next.token = ⟨kind, String.ofList lexeme, .covering (pre ++ gap) lexeme⟩ ∧
      (behind pre text).next.cursor = behind (pre ++ gap ++ lexeme) rest := by
  obtain ⟨gap, hg, hgap⟩ := skipGap_covers text
  generalize hr : (skipGap text).rest = left at hg hgap
  subst hg
  have hrest : (behind pre (gap ++ left)).rest = gap ++ left := rfl
  cases left with
  | nil =>
    refine Or.inl ⟨gap, List.append_nil gap, by simpa using hgap, ?_, ?_⟩
    · simp only [next, hrest, hr, behind_skipTo]
      exact behind_tokenTo _ [] [] _
    · simp only [next, hrest, hr, behind_skipTo]
  | cons c cs =>
    right
    obtain ⟨front, hf⟩ := (scan_within c cs).rest
    have htext : c :: cs = (c :: front) ++ (scan c cs).2.rest := by rw [List.cons_append, hf]
    refine ⟨gap, c :: front, (scan c cs).2.rest, (behind pre (gap ++ c :: cs)).next.token.kind,
      by rw [← htext], by simpa using hgap, by simp, ?_⟩
    have hk := scan_ne_eof c cs
    simp only [next, hrest, hr, behind_skipTo]
    rcases hs : scan c cs with ⟨kind, _ | _⟩ <;> rw [hs] at htext hk <;>
      simp only [Reading.rest] at htext ⊢ <;>
      rw [htext, behind_tokenTo, behind_skipTo] <;> simp [hk]

end Cursor

/-! ## Tilings -/

/-- The tokens of the text `rest` behind `pre`: each is cut from it behind a gap,
    and the `eof` stands behind the last gap. -/
inductive Tiling : List Char → List Char → List Token → Prop
  | eof {pre gap} : Gap True gap → Tiling pre gap [⟨.eof, "", .covering (pre ++ gap) []⟩]
  | token {pre gap lexeme rest kind ts} : Gap False gap → kind ≠ .eof → lexeme ≠ [] →
      Tiling (pre ++ gap ++ lexeme) rest ts →
      Tiling pre (gap ++ (lexeme ++ rest))
        (⟨kind, String.ofList lexeme, .covering (pre ++ gap) lexeme⟩ :: ts)

theorem Cursor.tokens_tiling (fuel : Nat) (pre rest : List Char) (h : rest.length < fuel) :
    Tiling pre rest ((Cursor.behind pre rest).tokens fuel).tokens := by
  induction fuel generalizing pre rest with
  | zero => omega
  | succ fuel ih =>
    rw [Cursor.tokens]
    rcases next_behind pre rest with ⟨gap, rfl, hg, ht, -⟩ |
      ⟨gap, lexeme, rest, kind, rfl, hg, hl, hk, ht, hc⟩
    · simp only [ht, if_true]
      exact .eof hg
    · simp only [ht, hc, hk, if_false]
      have hlen := List.length_pos_iff.2 hl
      simp only [List.length_append] at h
      exact .token hg hk hl (ih _ _ (by omega))

namespace Tiling

variable {pre rest : List Char} {ts : List Token}

/-- Every token is cut from the text where its span says. -/
theorem placed (h : Tiling pre rest ts) {t : Token} (ht : t ∈ ts) : ∃ front lexeme back,
    pre ++ rest = front ++ (lexeme ++ back) ∧ t.lexeme = String.ofList lexeme ∧
      t.span = .covering front lexeme := by
  induction h with
  | @eof pre gap =>
    obtain rfl := List.mem_singleton.1 ht
    exact ⟨pre ++ gap, [], [], by simp, rfl, rfl⟩
  | @token pre gap lexeme rest kind ts _ _ _ _ ih =>
    rcases List.mem_cons.1 ht with rfl | ht
    · exact ⟨pre ++ gap, lexeme, rest, by simp, rfl, rfl⟩
    · obtain ⟨front, mid, back, h, hm⟩ := ih ht
      exact ⟨front, mid, back, by rw [← h]; simp, hm⟩

/-- A gap lies before the first token. -/
theorem head_gap {t : Token} (h : Tiling pre rest (t :: ts)) : ∃ gap back,
    rest = gap ++ back ∧ t.span.offset = bytes (pre ++ gap) ∧ Gap (t.kind = .eof) gap := by
  cases h with
  | eof hg => exact ⟨rest, [], by simp, by simp [Span.covering], by simpa using hg⟩
  | token hg hk => exact ⟨_, _, rfl, by simp [Span.covering], by simpa [hk] using hg⟩

/-- No token begins before `pre` ends. -/
theorem le_offset (h : Tiling pre rest ts) {t : Token} (ht : t ∈ ts) :
    bytes pre ≤ t.span.offset := by
  induction h with
  | eof =>
    obtain rfl := List.mem_singleton.1 ht
    simp [Span.covering]
  | token _ _ _ _ ih =>
    rcases List.mem_cons.1 ht with rfl | ht
    · simp [Span.covering]
    · have := ih ht
      simp only [bytes_append] at this
      omega

/-- Every token ends before the next one begins. -/
theorem ordered (h : Tiling pre rest ts) :
    ts.Pairwise fun t u => t.span.stop ≤ u.span.offset := by
  induction h with
  | eof => exact List.pairwise_singleton _ _
  | token _ _ _ h ih =>
    refine List.pairwise_cons.2 ⟨fun u hu => ?_, ih⟩
    rw [Span.covering_stop]
    exact h.le_offset hu

/-- The last token is the `eof`, which is empty and stands at the end; the others
    are neither. -/
theorem ends (h : Tiling pre rest ts) : ∃ body,
    ts = body ++ [⟨.eof, "", .covering (pre ++ rest) []⟩] ∧
      ∀ t ∈ body, t.kind ≠ .eof ∧ t.lexeme ≠ "" := by
  induction h with
  | eof => exact ⟨[], rfl, by simp⟩
  | @token pre gap lexeme rest kind ts _ hk hl _ ih =>
    obtain ⟨body, rfl, hb⟩ := ih
    refine ⟨⟨kind, String.ofList lexeme, .covering (pre ++ gap) lexeme⟩ :: body, by simp,
      fun t ht => ?_⟩
    rcases List.mem_cons.1 ht with rfl | ht
    · exact ⟨hk, by simpa using hl⟩
    · exact hb t ht

/-- A gap lies between any two tokens that follow one another. -/
theorem gap_between (h : Tiling pre rest ts) {t u : Token} (htu : [t, u] <:+: ts) :
    ∃ front gap back, pre ++ rest = front ++ (gap ++ back) ∧ bytes front = t.span.stop ∧
      bytes (front ++ gap) = u.span.offset ∧ Gap (u.kind = .eof) gap := by
  induction h with
  | eof => simpa using htu.length_le
  | @token pre gap lexeme rest kind ts hg hk _ h ih =>
    rcases List.infix_cons_iff.1 htu with hp | hi
    · obtain ⟨rfl, us, rfl⟩ := List.cons_prefix_cons.1 hp
      obtain ⟨gap', back, rfl, ho, hg'⟩ := h.head_gap
      exact ⟨pre ++ gap ++ lexeme, gap', back, by simp, by simp, ho.symm, hg'⟩
    · obtain ⟨front, mid, back, hs, hm⟩ := ih hi
      exact ⟨front, mid, back, by rw [← hs]; simp, hm⟩

end Tiling

theorem tokenize_tiling (source : String) : Tiling [] source.toList (tokenize source).tokens :=
  Cursor.tokens_tiling _ [] _ (Nat.lt_succ_self _)

/-- The text ends with the `eof`, and with no other token that is one or is empty. -/
theorem tokenize_ends (source : String) :
    (tokenize source).eof = ⟨.eof, "", .covering source.toList []⟩ ∧
      ∀ t ∈ (tokenize source).body, t.kind ≠ .eof ∧ t.lexeme ≠ "" := by
  obtain ⟨body, heq, hb⟩ := (tokenize_tiling source).ends
  obtain ⟨rfl, he⟩ : (tokenize source).body = body ∧ [(tokenize source).eof] = [_] :=
    List.append_inj' heq rfl
  exact ⟨List.singleton_inj.1 he, hb⟩

theorem tokenize_slice {source : String} {t : Token} (ht : t ∈ (tokenize source).tokens) :
    t.span.slice? source = some t.lexeme := by
  obtain ⟨front, lexeme, back, hs, hl, hsp⟩ := (tokenize_tiling source).placed ht
  rw [hl]
  exact Span.slice?_of_append hs (by rw [hsp]; rfl) (by rw [hsp]; rfl)

/-- **The tokens of a text tile it**: one `eof` ends them and stands at the end of
    the text; every other token is not empty; each covers its lexeme, on the line
    and in the column that the text before it gives, as counters of 32 bits keep them;
    they stand in order, and what is left between them are gaps.  No number is too large
    for its counter in a text of fewer than `2 ^ 32 - 1` bytes. -/
theorem tokenize_tiles (source : String) (hsize : source.utf8ByteSize < UInt32.size) :
    ((tokenize source).eof.kind = .eof ∧ (tokenize source).eof.lexeme = "" ∧
      (tokenize source).eof.span.offset = source.utf8ByteSize) ∧
    (∀ t ∈ (tokenize source).body, t.kind ≠ .eof ∧ t.lexeme ≠ "") ∧
    (∀ t ∈ (tokenize source).tokens, t.span.slice? source = some t.lexeme ∧
      t.span.stop < UInt32.size ∧
      ∃ front back, source.toList = front ++ back ∧ t.span.offset = bytes front ∧
        t.span.line.toNat = (1 + front.count '\n') % UInt32.size ∧
        t.span.column.toNat = (1 + bytes (lastLine front)) % UInt32.size ∧
        (source.utf8ByteSize < UInt32.size - 1 → t.span.line.toNat = 1 + front.count '\n' ∧
          t.span.column.toNat = 1 + bytes (lastLine front))) ∧
    ((tokenize source).tokens.Pairwise fun t u => t.span.stop ≤ u.span.offset) ∧
    (∀ t, (tokenize source).tokens.head? = some t → ∃ gap back,
      source.toList = gap ++ back ∧ t.span.offset = bytes gap ∧ Gap (t.kind = .eof) gap) ∧
    (∀ t u, [t, u] <:+: (tokenize source).tokens → ∃ front gap back,
      source.toList = front ++ (gap ++ back) ∧ bytes front = t.span.stop ∧
        bytes (front ++ gap) = u.span.offset ∧ Gap (u.kind = .eof) gap) := by
  have h := tokenize_tiling source
  obtain ⟨he, hb⟩ := tokenize_ends source
  refine ⟨by simp [he, Span.covering, bytes_toList], hb, fun t ht => ⟨tokenize_slice ht, ?_⟩,
    h.ordered, fun t ht => ?_, fun t u htu => h.gap_between htu⟩
  · obtain ⟨front, lexeme, back, hs, -, hsp⟩ := h.placed ht
    have hbytes : bytes front + (bytes lexeme + bytes back) = source.utf8ByteSize := by
      rw [← bytes_append, ← bytes_append, ← hs, List.nil_append, bytes_toList]
    rw [hsp, Span.covering_stop, bytes_append]
    refine ⟨by omega, front, _, hs, rfl, Span.covering_line .., Span.covering_column ..,
      fun hlt => ?_⟩
    have hlines := count_le_bytes '\n' front
    have hcolumns := bytes_lastLine_le front
    rw [Span.covering_line, Span.covering_column]
    exact ⟨Nat.mod_eq_of_lt (by omega), Nat.mod_eq_of_lt (by omega)⟩
  · obtain ⟨ts, hts⟩ := List.head?_eq_some_iff.1 ht
    rw [hts] at h
    exact h.head_gap

/-- Two lines, of which the first has a character of two bytes. -/
theorem tokenize_tiles_two_lines :
    let source := "é\n é b // c"
    source.utf8ByteSize < UInt32.size - 1 ∧ (tokenize source).eof.span.offset = 13 ∧
      (tokenize source).tokens.map Token.lexeme = ["é", "é", "b", ""] ∧
      ∀ t ∈ (tokenize source).tokens, t.span.slice? source = some t.lexeme ∧
        ∃ front, t.span.offset = bytes front ∧ t.span.line.toNat = 1 + front.count '\n' ∧
          t.span.column.toNat = 1 + bytes (lastLine front) := by
  intro source
  have hsize : source.utf8ByteSize < UInt32.size - 1 := by decide
  obtain ⟨⟨-, -, heof⟩, -, hplaced, -⟩ := tokenize_tiles source (Nat.lt_trans hsize (by decide))
  refine ⟨hsize, heof, by decide +kernel, fun t ht => ?_⟩
  obtain ⟨hslice, -, front, -, -, ho, -, -, hexact⟩ := hplaced t ht
  exact ⟨hslice, front, ho, hexact hsize⟩

/-- The `eof` behind a text of blanks. -/
theorem tokenize_blanks_eof (n : Nat) :
    let source := String.ofList (List.replicate n ' ')
    source.utf8ByteSize = n ∧ bytes (lastLine source.toList) = n ∧
      (tokenize source).eof.span.column.toNat = (1 + n) % UInt32.size := by
  intro source
  have hbytes : bytes (List.replicate n ' ') = n := by
    induction n with
    | zero => rfl
    | succ n ih =>
      rw [List.replicate_succ, bytes_cons, ih]
      exact Nat.add_comm 1 n
  have hlist : source.toList = List.replicate n ' ' := String.toList_ofList
  have hline : lastLine source.toList = List.replicate n ' ' := by
    rw [hlist, lastLine_eq_self]
    exact fun h => absurd (List.eq_of_mem_replicate h) (by decide)
  refine ⟨by rw [← bytes_toList, hlist, hbytes], by rw [hline, hbytes], ?_⟩
  rw [(tokenize_ends source).1, Span.covering_column, hline, hbytes]

/-- The two limits of places and gaps.  Behind `2 ^ 32 - 1` blanks the `eof` would stand in column
    `2 ^ 32`, and its counter shows zero.  A carriage return does not end a line, so what stands
    behind one is part of a comment. -/
theorem tokenize_limits :
    let blanks := String.ofList (List.replicate (UInt32.size - 1) ' ')
    blanks.utf8ByteSize < UInt32.size ∧ 1 + bytes (lastLine blanks.toList) = UInt32.size ∧
      (tokenize blanks).eof.span.column.toNat = 0 ∧
      (tokenize "a // b\rc").tokens.map Token.lexeme = ["a", ""] := by
  obtain ⟨hsize, hline, hcolumn⟩ := tokenize_blanks_eof (UInt32.size - 1)
  refine ⟨?_, ?_, hcolumn.trans (by decide), by decide +kernel⟩
  · exact Nat.lt_of_le_of_lt (Nat.le_of_eq hsize) (by decide)
  · exact (congrArg (1 + ·) hline).trans (by decide)

end CommandModules

/-
  Command modules — the tokens of two texts, one below the other.

  * `Cursor.tokens_later`: below other lines a text is read as the same tokens in a later place;
  * `tokenize_joined`: a text without errors and, below it, another one are read as the tokens of
    the first and those of the second; a comment at the end of the first one ends with its line.
-/
import CommandModules.Proofs.Joined.Frame
import CommandModules.Proofs.Token.Closed

namespace CommandModules

open Text

/-! ## Later lines -/

theorem lastLine_below (front pre : List Char) : lastLine (front ++ ['\n'] ++ pre) = lastLine pre := by
  have hbreak : (['\n'] ++ front.reverse).takeWhile (· ≠ '\n') = [] := rfl
  rw [lastLine, lastLine, List.reverse_append, List.reverse_append, List.reverse_singleton,
    List.takeWhile_append, hbreak, List.append_nil]
  split
  · rename_i h
    rw [(List.takeWhile_prefix _).eq_of_length h]
  · rfl

/-- Below other lines a text covers the same columns. -/
theorem Span.covering_below (front pre mid : List Char) :
    Span.covering (front ++ ['\n'] ++ pre) mid =
      shift (.over (front ++ ['\n'])) (Span.covering pre mid) := by
  have hlines : (front ++ ['\n'] ++ pre).count '\n' =
      pre.count '\n' + (front ++ ['\n']).count '\n' :=
    List.count_append.trans (Nat.add_comm ..)
  rw [Span.covering, lastLine_below, bytes_append (front ++ ['\n']), Nat.add_comm (bytes _), hlines,
    UInt32.ofNat_add, ← UInt32.add_assoc]
  rfl

/-! ## Gaps -/

theorem gapEnd_below {mode : GapMode} {gap b rest : List Char} (h : gapEnd mode gap = ⟨[], none⟩)
    (hb : gapEnd .between b = ⟨rest, none⟩) : gapEnd mode (gap ++ '\n' :: b) = ⟨rest, none⟩ := by
  fun_induction gapEnd mode gap with
  | case1 => exact (gapEnd_blank (by decide)).trans hb
  | case2 cs ih | case3 cs ih | case11 _ cs ih => exact ih h
  | case4 cs ih => exact gapEnd_block (ih h)
  | case5 c cs _ _ _ hblank ih =>
    rw [List.cons_append, gapEnd_blank hblank]
    exact ih h
  | case6 => cases h
  | case7 => exact hb
  | case8 cs ih => exact ih h
  | case9 c cs hc ih =>
    rw [List.cons_append, gapEnd, if_neg hc]
    exact ih h
  | case10 => cases h
  | case12 start c cs hc ih =>
    rw [List.cons_append, gapEnd_block_cons, ih h]
    rintro rfl hs
    cases cs with
    | nil => cases h
    | cons d ds => exact hc ds rfl (by rw [Option.some_inj.1 hs])

/-- A gap at the end of a text ends with its last line. -/
theorem skipGap_below {gap b rest : List Char} (h : skipGap gap = ⟨[], none⟩)
    (hmark : b.head? ≠ some '\uFEFF') (hb : skipGap b = ⟨rest, none⟩) :
    skipGap (gap ++ '\n' :: b) = ⟨rest, none⟩ := by
  replace hb : gapEnd .between b = ⟨rest, none⟩ := by
    cases b with
    | nil => exact hb
    | cons c cs => rwa [skipGap_cons fun hc => hmark (congrArg some hc)] at hb
  cases gap with
  | nil => exact (skipGap_newline b).trans hb
  | cons c cs =>
    by_cases hc : c = '\uFEFF'
    · subst hc
      have h : gapEnd .between cs = ⟨[], none⟩ := h
      exact gapEnd_below h hb
    · rw [skipGap_cons hc] at h
      rw [List.cons_append, skipGap_cons hc]
      exact gapEnd_below h hb

namespace Cursor

variable {pre text : List Char}

/-- Where only a gap is left comes the `eof`. -/
theorem next_of_gap (pre : List Char) (h : skipGap text = ⟨[], none⟩) :
    (behind pre text).next = ⟨⟨.eof, "", .covering (pre ++ text) []⟩, [], behind (pre ++ text) []⟩ := by
  have hskip := behind_skipTo pre text []
  rw [List.append_nil] at hskip
  have htoken : (behind (pre ++ text) []).tokenTo .eof [] = ⟨.eof, "", .covering (pre ++ text) []⟩ :=
    behind_tokenTo (pre ++ text) [] [] .eof
  rw [next, show (behind pre text).rest = text from rfl, h]
  dsimp only
  rw [hskip, htoken]
  rfl

theorem next_congr {c c' : Cursor} {rest : List Char} (h : skipGap c.rest = ⟨rest, none⟩)
    (h' : skipGap c'.rest = ⟨rest, none⟩) (hs : c.skipTo rest = c'.skipTo rest) :
    c.next = c'.next := by
  rw [next, next, h, h']
  dsimp only
  rw [hs]
  cases rest <;> rfl

/-- What is read without an error: a gap up to the end of the text, or a token. -/
theorem next_clean (h : (behind pre text).next.errors = []) : skipGap text = ⟨[], none⟩ ∨
    ∃ c ds kind lexeme rest, skipGap text = ⟨c :: ds, none⟩ ∧ scan c ds = (kind, .closed rest) ∧
      c :: ds = lexeme ++ rest ∧ kind ≠ .eof ∧ rest.length < text.length := by
  rw [next, show (behind pre text).rest = text from rfl] at h
  rcases hg : skipGap text with ⟨_ | ⟨c, ds⟩, open?⟩
  · rw [hg] at h
    cases open? with
    | none => exact .inl rfl
    | some => cases h
  · obtain rfl : open? = none := by
      have hopen := @skipGap_openComment_none text (by rw [hg]; exact List.cons_ne_nil c ds)
      rwa [hg] at hopen
    rw [hg] at h
    have hk := scan_ne_eof c ds
    have hw := (scan_within c ds).rest
    dsimp only at h
    rcases hs : scan c ds with ⟨kind, rest | _⟩ <;> rw [hs] at h hk hw
    · obtain ⟨front, hfront⟩ : rest <:+ c :: ds := hw.trans (List.suffix_cons c ds)
      have hlen : rest.length ≤ ds.length := hw.length_le
      have hgap := (skipGap_suffix text).length_le
      rw [hg, List.length_cons] at hgap
      exact .inr ⟨c, ds, kind, front, rest, rfl, hs, hfront.symm, hk, by omega⟩
    · cases h

/-- The first of several steps without errors is without errors. -/
theorem next_errors {fuel : Nat} {c : Cursor} (h : (c.tokens (fuel + 1)).errors = []) :
    c.next.errors = [] := by
  rw [tokens] at h
  split at h
  · exact h
  · exact (List.append_eq_nil_iff.1 h).1

theorem tokens_of_gap (pre : List Char) (h : skipGap text = ⟨[], none⟩) (fuel : Nat) :
    (behind pre text).tokens (fuel + 1) = ⟨[], ⟨.eof, "", .covering (pre ++ text) []⟩, []⟩ := by
  rw [tokens, next_of_gap pre h]
  rfl

/-- The tokens of a text that begins with one. -/
theorem tokens_of_token (pre : List Char) {c : Char} {ds lexeme rest gap : List Char}
    {kind : TokenKind} (hg : skipGap text = ⟨c :: ds, none⟩) (hs : scan c ds = (kind, .closed rest))
    (hl : c :: ds = lexeme ++ rest) (hk : kind ≠ .eof) (ht : text = gap ++ (lexeme ++ rest))
    (fuel : Nat) : (behind pre text).tokens (fuel + 1) =
      let later := (behind (pre ++ gap ++ lexeme) rest).tokens fuel
      ⟨⟨kind, String.ofList lexeme, .covering (pre ++ gap) lexeme⟩ :: later.body, later.eof,
        later.errors⟩ := by
  obtain ⟨gap', hgap, hn⟩ := next_of_token pre hg hs hl
  obtain rfl : gap' = gap := List.append_cancel_right (hgap.symm.trans ht)
  rw [tokens, hn]
  dsimp only
  rw [if_neg hk]
  rfl

/-- **Below other lines a text without errors is read as the same tokens in a later place.** -/
theorem tokens_later {fuel fuel' : Nat} (front : List Char)
    (he : ((behind pre text).tokens fuel).errors = []) (hf : text.length < fuel)
    (hf' : text.length < fuel') : (behind (front ++ ['\n'] ++ pre) text).tokens fuel' =
      ⟨shift (.over (front ++ ['\n'])) ((behind pre text).tokens fuel).body,
        shift (.over (front ++ ['\n'])) ((behind pre text).tokens fuel).eof, []⟩ := by
  induction fuel generalizing pre text fuel' with
  | zero => omega
  | succ fuel ih =>
    obtain ⟨fuel', rfl⟩ : ∃ n, fuel' = n + 1 := ⟨fuel' - 1, by omega⟩
    rcases next_clean (next_errors he) with hg | ⟨c, ds, kind, lexeme, rest, hg, hs, hl, hk, hlen⟩
    · rw [tokens_of_gap _ hg, tokens_of_gap _ hg, List.append_assoc, Span.covering_below]
      rfl
    · obtain ⟨gap, ht, -⟩ := next_of_token pre hg hs hl
      rw [tokens_of_token _ hg hs hl hk ht] at he ⊢
      rw [tokens_of_token _ hg hs hl hk ht]
      have hfuel : rest.length < fuel' := by omega
      have hlater := ih he (by omega) hfuel
      rw [← List.append_assoc, ← List.append_assoc] at hlater
      dsimp only
      rw [hlater, List.append_assoc _ pre, Span.covering_below]
      rfl

/-- **A text without errors and another one below it are read one after the other.** -/
theorem tokens_joined {fuel fuel' : Nat} {b : List Char}
    (he : ((behind pre text).tokens fuel).errors = []) (hf : text.length < fuel)
    (hb : ((behind [] b).tokens (b.length + 1)).errors = []) (hmark : b.head? ≠ some '\uFEFF')
    (hf' : (text ++ '\n' :: b).length < fuel') :
    (behind pre (text ++ '\n' :: b)).tokens fuel' =
      ⟨((behind pre text).tokens fuel).body ++
          shift (.over (pre ++ text ++ ['\n'])) ((behind [] b).tokens (b.length + 1)).body,
        shift (.over (pre ++ text ++ ['\n'])) ((behind [] b).tokens (b.length + 1)).eof, []⟩ := by
  induction fuel generalizing pre text fuel' with
  | zero => omega
  | succ fuel ih =>
    obtain ⟨fuel', rfl⟩ : ∃ n, fuel' = n + 1 := ⟨fuel' - 1, by omega⟩
    rcases next_clean (next_errors he) with hg | ⟨c, ds, kind, lexeme, rest, hg, hs, hl, hk, hlen⟩
    · obtain ⟨left, hleft⟩ : ∃ left, skipGap b = ⟨left, none⟩ := by
        rcases next_clean (next_errors hb) with h | ⟨_, _, _, _, _, h, -⟩ <;> exact ⟨_, h⟩
      have hbelow := skipGap_below hg hmark hleft
      obtain ⟨gap, hgap, -⟩ := skipGap_covers b
      rw [hleft] at hgap
      have hskip : (behind pre (text ++ '\n' :: b)).skipTo left =
          (behind (pre ++ text ++ ['\n']) b).skipTo left := by
        have htext : text ++ '\n' :: b = text ++ '\n' :: gap ++ left := by
          rw [hgap, List.append_assoc, List.cons_append]
        rw [htext, behind_skipTo, hgap, behind_skipTo]
        simp only [List.append_assoc, List.cons_append, List.nil_append]
      have hnext : (behind pre (text ++ '\n' :: b)).next = (behind (pre ++ text ++ ['\n']) b).next :=
        next_congr hbelow hleft hskip
      have hfuel : b.length < fuel' + 1 := by
        simp only [List.length_append, List.length_cons] at hf'
        omega
      have hlater := tokens_later (pre ++ text) hb (Nat.lt_succ_self _) hfuel
      rw [List.append_nil, tokens] at hlater
      rw [tokens_of_gap pre hg, tokens, hnext, hlater]
      rfl
    · obtain ⟨gap, ht, -⟩ := next_of_token pre hg hs hl
      have hstops : Stops ('\n' :: b) := .cons (by decide)
      have hg' : skipGap (text ++ '\n' :: b) = ⟨c :: (ds ++ '\n' :: b), none⟩ :=
        @skipGap_local text (c :: ds) [] _ hstops (List.cons_ne_nil c ds)
          (by rw [List.append_nil, List.append_nil, hg])
      have hs' : scan c (ds ++ '\n' :: b) = (kind, .closed (rest ++ '\n' :: b)) :=
        @scan_local ds rest [] _ c kind hstops.ends (by rw [List.append_nil, List.append_nil, hs])
      have hl' : c :: (ds ++ '\n' :: b) = lexeme ++ (rest ++ '\n' :: b) := by
        rw [← List.cons_append, hl, List.append_assoc]
      have ht' : text ++ '\n' :: b = gap ++ (lexeme ++ (rest ++ '\n' :: b)) := by
        rw [ht, List.append_assoc, List.append_assoc]
      have hpre : pre ++ gap ++ lexeme ++ rest = pre ++ text := by
        rw [ht, List.append_assoc, List.append_assoc]
      rw [tokens_of_token _ hg hs hl hk ht] at he ⊢
      rw [tokens_of_token _ hg' hs' hl' hk ht']
      dsimp only
      rw [ih he (by omega) (by simp only [List.length_append] at hf' ⊢; omega), hpre]
      rfl

end Cursor

/-- **Two texts without errors, one below the other, are read as the tokens of the first one and
    those of the second one in a later place.** -/
theorem tokenize_joined {a b : String} (ha : (tokenize a).errors = [])
    (hb : (tokenize b).errors = []) (hmark : b.toList.head? ≠ some '\uFEFF') :
    tokenize (a ++ "\n" ++ b) =
      ⟨(tokenize a).body ++ shift (.over (a.toList ++ ['\n'])) (tokenize b).body,
        shift (.over (a.toList ++ ['\n'])) (tokenize b).eof, []⟩ := by
  have htext : (a ++ "\n" ++ b).toList = a.toList ++ '\n' :: b.toList := by
    rw [String.toList_append, String.toList_append, List.append_assoc]
    rfl
  have hfuel := Nat.lt_succ_self (a.toList ++ '\n' :: b.toList).length
  have := @Cursor.tokens_joined [] a.toList _ _ b.toList ha (Nat.lt_succ_self _) hb hmark hfuel
  rw [← htext] at this
  exact this

end CommandModules

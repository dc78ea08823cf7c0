/-
  Command modules — the states at the head of a text, and the errors of its tokens.

  * `tokenize_errors_inside`: text that is no token stands in the text;
  * `ParserState.ofText_good`: reading begins with a good state;
  * `ParserState.ofText_filled`: its tokens are not empty.
-/
import CommandModules.Proofs.Safe.State

namespace CommandModules

/-! ## Text that is no token -/

theorem gapEnd_openComment {mode : GapMode} {cs comment : List Char}
    (h : (gapEnd mode cs).openComment? = some comment) : comment <:+ cs ∨ mode = .block comment := by
  have between {ds : List Char} (h : comment <:+ ds ∨ GapMode.between = .block comment) :
      comment <:+ ds := by simpa using h
  have line {ds : List Char} (h : comment <:+ ds ∨ GapMode.line = .block comment) :
      comment <:+ ds := by simpa using h
  fun_induction gapEnd mode cs with
  | case1 | case6 | case7 => cases h
  | case2 cs ih | case9 _ _ _ ih => exact .inl ((line (ih h)).trans (List.suffix_cons _ _))
  | case3 cs ih => exact .inl ((line (ih h)).trans suffix_cons_cons)
  | case4 cs ih =>
    rcases ih h with h | h
    · exact .inl (h.trans suffix_cons_cons)
    · cases h
      exact .inl List.suffix_rfl
  | case5 _ _ _ _ _ _ ih | case8 _ ih => exact .inl ((between (ih h)).trans (List.suffix_cons _ _))
  | case10 => exact .inr (by simpa using h)
  | case11 _ _ ih => exact .inl ((between (ih h)).trans suffix_cons_cons)
  | case12 start c cs _ ih => exact (ih h).imp_left fun h => h.trans (List.suffix_cons _ _)

theorem skipGap_openComment {cs comment : List Char}
    (h : (skipGap cs).openComment? = some comment) : comment <:+ cs := by
  unfold skipGap at h
  split at h
  · rename_i cs
    have : comment <:+ cs := by simpa using gapEnd_openComment h
    exact this.trans (List.suffix_cons _ _)
  · simpa using gapEnd_openComment h

namespace Cursor

variable {pre text : List Char}

theorem errorAt_inside {cause : LexCause} {start rest : List Char} (hs : start <:+ text)
    (hr : rest <:+ start) :
    ((behind pre text).errorAt cause start rest).span.Inside (pre ++ text) := by
  obtain ⟨front, rfl⟩ := hs
  obtain ⟨mid, rfl⟩ := hr
  rw [errorAt, behind_skipTo, behind_spanTo]
  exact .covering (List.append_assoc ..).symm

theorem next_errors_inside {e : LexError} (h : e ∈ (behind pre text).next.errors) :
    e.span.Inside (pre ++ text) := by
  obtain ⟨gap, hg, -⟩ := skipGap_covers text
  simp only [next, show (behind pre text).rest = text from rfl] at h
  split at h
  · obtain ⟨comment, hc, rfl⟩ : ∃ comment, (skipGap text).openComment? = some comment ∧ _ = e := by
      simpa using h
    exact errorAt_inside (skipGap_openComment hc) List.nil_suffix
  · rename_i c cs hr
    rw [hr] at hg
    have hw := scan_within c cs
    split at h
    · cases h
    · rename_i hs
      rw [hs] at hw
      rw [List.mem_singleton.1 h, hr, hg, behind_skipTo, ← List.append_assoc]
      exact errorAt_inside hw.1 hw.2.1

theorem tokens_errors_inside {fuel : Nat} {e : LexError}
    (h : e ∈ ((behind pre text).tokens fuel).errors) : e.span.Inside (pre ++ text) := by
  induction fuel generalizing pre text with
  | zero => cases h
  | succ fuel ih =>
    rw [tokens] at h
    rcases next_behind pre text with ⟨gap, rfl, -, ht, -⟩ | ⟨gap, lexeme, rest, kind, rfl, -, -, hk, ht, hc⟩
    · simp only [ht, if_true] at h
      exact next_errors_inside h
    · simp only [ht, hk, hc, if_false, List.mem_append] at h
      rcases h with h | h
      · exact next_errors_inside h
      · simpa using ih h

end Cursor

theorem tokenize_errors_inside {source : String} {e : LexError} (h : e ∈ (tokenize source).errors) :
    e.span.Inside source.toList :=
  List.nil_append source.toList ▸ Cursor.tokens_errors_inside h

/-! ## The head of a text -/

/-- The tokens of a text are good to be read. -/
theorem ParserState.ofText_good (source : String) : (ofText source).Good source.toList := by
  have h := tokenize_tiling source
  obtain ⟨body, heq, hb⟩ := h.ends
  obtain ⟨rfl, he⟩ : (tokenize source).body = body ∧ [(tokenize source).eof] = [_] :=
    List.append_inj' heq rfl
  have hsub : (ofText source).tokens.Sublist (tokenize source).tokens :=
    List.filter_sublist.append_right _
  exact {
    source_eq := rfl
    placed := fun t ht => h.placed (hsub.subset ht)
    ordered := h.ordered.sublist hsub
    eof_kind := congrArg Token.kind (List.singleton_inj.1 he)
    ne_eof := fun t ht => (hb t (List.mem_filter.1 ht).1).1
    worded := fun t ht => by
      rcases List.mem_append.1 (hsub.subset ht) with hm | hm
      · exact tokenize_isWorded hm
      · rw [List.mem_singleton.1 hm, List.singleton_inj.1 he]
        exact nofun }

/-- A token that can be consumed is not empty. -/
theorem ParserState.ofText_filled {source : String} {t : Token} (ht : t ∈ (ofText source).after) :
    t.span.offset < t.span.stop := by
  have hmem : t ∈ (ofText source).tokens := List.mem_append_right _ (List.mem_append_left _ ht)
  obtain ⟨front, lexeme, back, -, hl, hsp⟩ := (ofText_good source).placed t hmem
  have hpos : 0 < Text.bytes lexeme := Text.bytes_pos fun hnil =>
    ((tokenize_ends source).2 t (List.mem_filter.1 ht).1).2 (by rw [hl, hnil])
  rw [hsp]
  exact Nat.lt_add_of_pos_right hpos

end CommandModules

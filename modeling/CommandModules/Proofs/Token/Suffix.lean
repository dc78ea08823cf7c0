/-
  Command modules — readers of tokens leave a suffix of the text.

  * `Reading.Within whole cs`: what a reading leaves is a suffix of `cs`, and a
    literal that fails begins in `whole` and ends where the reading stops;
  * `literal_within`: a literal takes at least one character, given enough
    levels of nesting;
  * `scan_within`: so does every token, and none is an `eof` (`scan_ne_eof`).
-/
import Mathlib.Data.List.Induction
import CommandModules.Token.Lexer

namespace CommandModules

/-- The reading of `cs`, which is the end of `whole`, leaves a suffix of it; if it
    fails, the failing literal begins in `whole` and reaches up to there. -/
def Reading.Within (whole cs : List Char) : Reading → Prop
  | .closed rest => rest <:+ cs
  | .broken _ start rest => start <:+ whole ∧ rest <:+ start ∧ rest <:+ cs

namespace Reading.Within

variable {whole whole' cs ds : List Char} {r : Reading}

theorem mono (h : r.Within whole cs) (hw : whole <:+ whole') (hd : cs <:+ ds) :
    r.Within whole' ds := by
  cases r with
  | closed => exact List.IsSuffix.trans h hd
  | broken => exact ⟨h.1.trans hw, h.2.1, h.2.2.trans hd⟩

theorem rest (h : r.Within whole cs) : r.rest <:+ cs := by
  cases r with
  | closed => exact h
  | broken => exact h.2.2

theorem cons {c : Char} (h : r.Within whole cs) : r.Within whole (c :: cs) :=
  h.mono List.suffix_rfl (List.suffix_cons c cs)

end Reading.Within

variable {whole cs : List Char}

theorem suffix_cons_cons {c d : Char} : cs <:+ c :: d :: cs :=
  (List.suffix_cons _ _).trans (List.suffix_cons _ _)

/-! ## Strings without holes -/

theorem regularBody_within (quote : Char) (h : cs <:+ whole) :
    (regularBody whole quote cs).Within whole cs := by
  fun_induction regularBody whole quote cs with
  | case1 | case2 | case3 => exact ⟨List.suffix_rfl, h, List.suffix_rfl⟩
  | case4 => exact ⟨List.suffix_rfl, List.nil_suffix, List.nil_suffix⟩
  | case5 cs => exact ⟨List.suffix_rfl, (List.suffix_cons _ _).trans h, List.suffix_cons _ _⟩
  | case6 c cs _ ih => exact (ih (suffix_cons_cons.trans h)).cons.cons
  | case7 => exact List.suffix_cons _ _
  | case8 c cs _ _ _ _ _ ih => exact (ih ((List.suffix_cons _ _).trans h)).cons

theorem verbatimBody_within (h : cs <:+ whole) : (verbatimBody whole cs).Within whole cs := by
  fun_induction verbatimBody whole cs with
  | case1 => exact ⟨List.suffix_rfl, h, List.suffix_rfl⟩
  | case2 cs ih => exact (ih (suffix_cons_cons.trans h)).cons.cons
  | case3 => exact List.suffix_cons _ _
  | case4 c cs _ _ ih => exact (ih ((List.suffix_cons _ _).trans h)).cons

theorem rawBody_within (quotes run : Nat) (h : cs <:+ whole) :
    (rawBody whole quotes run cs).Within whole cs := by
  fun_induction rawBody whole quotes run cs with
  | case1 => exact List.suffix_rfl
  | case2 => exact ⟨List.suffix_rfl, h, List.suffix_rfl⟩
  | case3 run cs ih => exact (ih ((List.suffix_cons _ _).trans h)).cons
  | case4 => exact List.suffix_rfl
  | case5 run c cs _ _ ih => exact (ih ((List.suffix_cons _ _).trans h)).cons

theorem afterEscape_suffix (cs : List Char) : afterEscape cs <:+ cs := by
  unfold afterEscape
  split
  · exact List.suffix_rfl
  · split
    · exact List.suffix_rfl
    · exact List.suffix_cons _ _

/-! ## Strings with holes -/

section
variable {nested : List Char → Reading}

/-- The reader takes at least one character of every literal in `cs`. -/
def TakesLiterals (nested : List Char → Reading) (cs : List Char) : Prop :=
  ∀ c ds, c :: ds <:+ cs → (nested (c :: ds)).Within (c :: ds) ds

theorem TakesLiterals.mono {ds : List Char} (h : TakesLiterals nested cs) (hd : ds <:+ cs) :
    TakesLiterals nested ds :=
  fun c es he => h c es (he.trans hd)

theorem hole_within (fuel depth : Nat) (hn : TakesLiterals nested cs) (h : cs <:+ whole) :
    (hole nested whole fuel depth cs).Within whole cs := by
  fun_induction hole nested whole fuel depth cs with
  | case1 | case2 => exact ⟨List.suffix_rfl, h, List.suffix_rfl⟩
  | case3 fuel depth cs ih | case5 fuel cs depth _ ih | case8 fuel depth c cs _ _ _ ih =>
    exact (ih (hn.mono (List.suffix_cons _ _)) ((List.suffix_cons _ _).trans h)).cons
  | case4 => exact List.suffix_cons _ _
  | case6 fuel depth c cs _ _ _ rest heq ih =>
    have hl : rest <:+ c :: cs := by
      have := hn c cs List.suffix_rfl
      rw [heq] at this
      exact List.IsSuffix.trans this (List.suffix_cons _ _)
    exact (ih (hn.mono hl) (hl.trans h)).mono List.suffix_rfl hl
  | case7 fuel depth c cs => exact (hn c cs List.suffix_rfl).cons.mono h List.suffix_rfl

theorem interpolatedBody_within (verbatim : Bool) (fuel : Nat) (hn : TakesLiterals nested cs)
    (h : cs <:+ whole) : (interpolatedBody nested whole verbatim fuel cs).Within whole cs := by
  fun_induction interpolatedBody nested whole verbatim fuel cs with
  | case1 | case2 | case3 => exact ⟨List.suffix_rfl, h, List.suffix_rfl⟩
  | case4 fuel c cs _ _ ih =>
    have hd := (afterEscape_suffix cs).trans (List.suffix_cons c cs)
    exact (ih (hn.mono hd) (hd.trans h)).mono List.suffix_rfl hd
  | case5 fuel rest hv _ _ ih =>
    subst hv
    exact (ih (hn.mono suffix_cons_cons) (suffix_cons_cons.trans h)).cons.cons
  | case7 fuel rest _ _ _ ih =>
    exact (ih (hn.mono suffix_cons_cons) (suffix_cons_cons.trans h)).cons.cons
  | case6 => exact List.suffix_cons _ _
  | case8 fuel cs rest heq _ _ _ _ ih =>
    have hcs := List.suffix_cons '\x7b' cs
    have hd : rest <:+ '\x7b' :: cs := by
      have := hole_within (cs.length + 1) 0 (hn.mono hcs) (hcs.trans h)
      rw [heq] at this
      exact List.IsSuffix.trans this hcs
    simp only [heq]
    exact (ih (hn.mono hd) (hd.trans h)).mono List.suffix_rfl hd
  | case9 fuel cs _ _ _ _ hb =>
    have hcs := List.suffix_cons '\x7b' cs
    split
    · exact absurd ‹_› (hb _)
    · exact (hole_within _ 0 (hn.mono hcs) (hcs.trans h)).cons
  | case10 fuel c cs _ _ _ _ ih =>
    exact (ih (hn.mono (List.suffix_cons _ _)) ((List.suffix_cons _ _).trans h)).cons

end

/-! ## Literals -/

theorem quotedString_within (c : Char) (cs : List Char) :
    (quotedString (c :: cs)).Within (c :: cs) cs := by
  unfold quotedString
  dsimp only
  split
  · rename_i hq
    have hd : (c :: cs).drop (((c :: cs).takeWhile (· == '"')).length) <:+ cs := by
      obtain ⟨n, hn⟩ : ∃ n, ((c :: cs).takeWhile (· == '"')).length = n + 1 :=
        ⟨_, (Nat.succ_pred_eq_of_pos (by omega)).symm⟩
      rw [hn, List.drop_succ_cons]
      exact List.drop_suffix _ _
    exact (rawBody_within _ _ (hd.trans (List.suffix_cons _ _))).mono List.suffix_rfl hd
  · exact regularBody_within _ (List.suffix_cons _ _)

section
variable {nested : List Char → Reading}

theorem atLiteral_within (c : Char) (hn : TakesLiterals nested cs) :
    (atLiteral nested (c :: cs)).Within (c :: cs) cs := by
  unfold atLiteral
  rw [List.drop_one, List.tail_cons]
  split
  · exact (verbatimBody_within suffix_cons_cons).cons
  · rename_i ds
    exact (interpolatedBody_within _ _ (hn.mono suffix_cons_cons)
      (suffix_cons_cons.trans (List.suffix_cons _ _))).cons.cons
  · split
    · exact List.dropWhile_suffix _
    · exact ⟨List.suffix_rfl, List.suffix_cons _ _, List.suffix_rfl⟩
  · exact ⟨List.suffix_rfl, List.nil_suffix, List.nil_suffix⟩

theorem dollarLiteral_within (hn : TakesLiterals nested cs) :
    (dollarLiteral nested ('$' :: cs)).Within ('$' :: cs) cs := by
  have hd : cs.dropWhile (· == '$') <:+ cs := List.dropWhile_suffix _
  unfold dollarLiteral
  rw [List.dropWhile_cons_of_pos (by decide)]
  split
  · rename_i ds heq
    rw [heq] at hd
    have hs : ds.dropWhile (· == '"') <:+ cs :=
      (List.dropWhile_suffix _).trans ((suffix_cons_cons.trans (List.suffix_cons _ _)).trans hd)
    exact (rawBody_within _ _ (hs.trans (List.suffix_cons _ _))).mono List.suffix_rfl hs
  · rename_i ds _ heq
    rw [heq] at hd
    have hs := (List.suffix_cons _ _).trans hd
    exact (interpolatedBody_within _ _ (hn.mono hs) (hs.trans (List.suffix_cons _ _))).mono
      List.suffix_rfl hs
  · rename_i ds heq
    rw [heq] at hd
    have hs := suffix_cons_cons.trans hd
    exact (interpolatedBody_within _ _ (hn.mono hs) (hs.trans (List.suffix_cons _ _))).mono
      List.suffix_rfl hs
  · exact ⟨List.suffix_rfl, hd.trans (List.suffix_cons _ _), hd⟩

end

/-- **A literal takes at least one character.** -/
theorem literal_within (depth : Nat) (c : Char) (cs : List Char) (h : cs.length < depth) :
    (literal depth (c :: cs)).Within (c :: cs) cs := by
  induction depth generalizing c cs with
  | zero => omega
  | succ depth ih =>
    have hn : TakesLiterals (literal depth) cs := fun d ds hd =>
      ih d ds (by have := hd.length_le; simp only [List.length_cons] at this; omega)
    unfold literal
    split
    · rename_i heq; cases heq
      exact regularBody_within _ (List.suffix_cons _ _)
    · rename_i heq; cases heq
      exact atLiteral_within _ hn
    · rename_i heq; cases heq
      exact dollarLiteral_within hn
    · exact quotedString_within c cs

/-! ## Numbers -/

theorem afterIntegerSuffix_suffix (cs : List Char) : afterIntegerSuffix cs <:+ cs := by
  unfold afterIntegerSuffix
  split
  · split
    · split
      · exact suffix_cons_cons
      · exact List.suffix_cons _ _
    · exact List.suffix_rfl
  · split
    · exact List.nil_suffix
    · exact List.suffix_rfl
  · exact List.suffix_rfl

/-- What follows the decimal point is a suffix of what follows the whole part. -/
theorem afterFraction?_suffix {rest : List Char} (h : afterFraction? cs = some rest) :
    rest <:+ cs.tail := by
  unfold afterFraction? at h
  split at h
  · split at h
    · cases h; exact List.dropWhile_suffix _
    · cases h
  · cases h

theorem afterSign_suffix (cs : List Char) : afterSign cs <:+ cs := by
  unfold afterSign
  split
  · split
    · exact List.suffix_cons _ _
    · exact List.suffix_rfl
  · exact List.suffix_rfl

theorem afterExponent?_suffix {rest : List Char} (h : afterExponent? cs = some rest) :
    rest <:+ cs := by
  unfold afterExponent? at h
  split at h
  · rename_i c cs
    split at h
    · split at h
      · rename_i d ds heq
        split at h
        · cases h
          have hs := afterSign_suffix cs
          rw [heq] at hs
          exact (((List.dropWhile_suffix _).trans (List.suffix_cons d ds)).trans hs).trans
            (List.suffix_cons _ _)
        · cases h
      · cases h
    · cases h
  · cases h

theorem numberSuffix_suffix (isReal : Bool) (cs : List Char) :
    (numberSuffix isReal cs).2 <:+ cs := by
  unfold numberSuffix
  split
  · exact List.suffix_rfl
  · split
    · exact List.suffix_cons _ _
    · split
      · exact List.suffix_rfl
      · exact afterIntegerSuffix_suffix _

theorem getD_afterExponent?_suffix (cs : List Char) : (afterExponent? cs).getD cs <:+ cs := by
  cases h : afterExponent? cs with
  | none => exact List.suffix_rfl
  | some rest => exact afterExponent?_suffix h

/-- **A number takes at least one character.** -/
theorem number_suffix (c : Char) (h : startsNumber (c :: cs) = true) :
    (number (c :: cs)).2 <:+ cs := by
  unfold number
  split
  · rename_i hr
    obtain ⟨d, ds, rfl⟩ : ∃ d ds, cs = d :: ds := by
      cases cs with
      | nil => simp [hasRadix] at hr
      | cons d ds => exact ⟨d, ds, rfl⟩
    exact (afterIntegerSuffix_suffix _).trans
      ((List.dropWhile_suffix _).trans (List.suffix_cons d ds))
  · -- a digit goes with the whole part, a point with the fraction
    have hm : (afterFraction? ((c :: cs).dropWhile isDigitOrBar)).getD
        ((c :: cs).dropWhile isDigitOrBar) <:+ cs := by
      by_cases hc : isDigitOrBar c = true
      · rw [List.dropWhile_cons_of_pos hc]
        cases hf : afterFraction? (cs.dropWhile isDigitOrBar) with
        | none => exact List.dropWhile_suffix _
        | some rest =>
          exact (afterFraction?_suffix hf).trans ((List.tail_suffix _).trans (List.dropWhile_suffix _))
      · rw [List.dropWhile_cons_of_neg hc]
        have hd : ¬ c.isDigit = true := fun hd => hc (by simp [isDigitOrBar, hd])
        unfold startsNumber at h
        split at h
        · rename_i d ds heq
          cases heq
          simp only [afterFraction?, h, if_true, Option.getD_some]
          exact List.dropWhile_suffix _
        · rename_i heq; cases heq; exact absurd h hd
        · cases h
    exact (numberSuffix_suffix _ _).trans ((getD_afterExponent?_suffix _).trans hm)

/-! ## Tokens -/

theorem isIdentContinue_of_isIdentStart {c : Char} (h : isIdentStart c = true) :
    isIdentContinue c = true := by
  simp only [isIdentStart, isIdentContinue, Text.isWordChar, Bool.or_eq_true] at *
  exact h.imp_right Or.inl

theorem punctuation?_suffix {c : Char} {mark : Punct} {rest : List Char}
    (h : punctuation? (c :: cs) = some (mark, rest)) : rest <:+ cs := by
  unfold punctuation? at h
  split at h <;> cases h <;> rename_i heq <;> cases heq
  all_goals first | exact List.suffix_rfl | exact List.suffix_cons _ _

/-- **Every token takes at least one character.** -/
theorem scan_within (c : Char) (cs : List Char) : (scan c cs).2.Within (c :: cs) cs := by
  unfold scan
  split
  · exact literal_within _ c cs (Nat.lt_succ_self _)
  split
  · rename_i hn
    exact number_suffix c hn
  split
  · rename_i hi
    rw [List.dropWhile_cons_of_pos (isIdentContinue_of_isIdentStart hi)]
    exact List.dropWhile_suffix _
  split
  · exact punctuation?_suffix ‹_›
  · exact ⟨List.suffix_rfl, List.suffix_cons _ _, List.suffix_rfl⟩

/-- What a token is read as is no `eof`. -/
theorem scan_ne_eof (c : Char) (cs : List Char) : (scan c cs).1 ≠ .eof := by
  have hs (isReal : Bool) (ds : List Char) : (numberSuffix isReal ds).1 ≠ .eof := by
    unfold numberSuffix
    split
    · split <;> simp
    · split
      · simp
      · split <;> simp
  have hn (ds : List Char) : (number ds).1 ≠ .eof := by
    unfold number
    split
    · simp
    · exact hs _ _
  have hw (w : String) : wordKind w ≠ .eof := by
    unfold wordKind
    split <;> simp
  have hl : literalKind (c :: cs) ≠ .eof := by
    unfold literalKind
    split
    · simp
    · split <;> simp
    · simp
  unfold scan
  split
  · exact hl
  split
  · exact hn _
  split
  · exact hw _
  split <;> simp

end CommandModules

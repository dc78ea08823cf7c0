/-
  Command modules — how far the reading of a token looks.

  * `number_local`, `punctuation?_local` and `scan_local`: where the reading of the
    token at the head of `front ++ back` leaves `mid ++ back`, that of
    `front ++ back'` gives the same token and leaves `mid ++ back'`, if `back'` ends
    tokens;
  * `gapEnd_trivia`: trivia is skipped whole, whatever it mixes;
  * `gapEnd_local`: the skipping of a gap that ends before `back` ends before `back'` as well, if
    `back'` stops tokens.
-/
import CommandModules.Proofs.Token.LiteralLocal
import CommandModules.Proofs.Token.Tiling

namespace CommandModules

variable {front mid back back' : List Char}

/-! ## Numbers -/

theorem isIdentContinue_of_isAlphanum {c : Char} (h : c.isAlphanum = true) :
    isIdentContinue c = true := by
  simp only [Char.isAlphanum, Bool.or_eq_true] at h
  simp only [isIdentContinue, Text.isWordChar, Bool.or_eq_true]
  rcases h with h | h
  · exact .inr (.inl (Text.isLetter_of_isAlpha h))
  · exact .inr (.inr (Text.isNumeral_of_isDigit h))

section
variable {c : Char} (h : ¬ isIdentContinue c = true)
include h

theorem not_isDigit : ¬ c.isDigit = true :=
  mt (fun hc => isIdentContinue_of_isAlphanum (by simp [Char.isAlphanum, hc])) h

theorem not_isAlpha : ¬ c.isAlpha = true :=
  mt (fun hc => isIdentContinue_of_isAlphanum (by simp [Char.isAlphanum, hc])) h

theorem ne_bar : c ≠ '_' := by
  rintro rfl
  exact h (by decide)

theorem not_digitOrBar : ¬ isDigitOrBar c = true := by
  simp [isDigitOrBar, not_isDigit h, ne_bar h]

theorem not_hexDigitOrBar : ¬ isHexDigitOrBar c = true := by
  have hl : ¬ ('a' ≤ c ∧ c ≤ 'f') := by
    rintro ⟨h1, h2⟩
    refine not_isAlpha h (Bool.or_eq_true_iff.2 (.inr ?_))
    exact Bool.and_eq_true_iff.2 ⟨decide_eq_true h1,
      decide_eq_true (Char.le_trans h2 (by decide : 'f' ≤ 'z'))⟩
  have hu : ¬ ('A' ≤ c ∧ c ≤ 'F') := by
    rintro ⟨h1, h2⟩
    refine not_isAlpha h (Bool.or_eq_true_iff.2 (.inl ?_))
    exact decide_eq_true ⟨h1, Char.le_trans h2 (by decide : 'F' ≤ 'Z')⟩
  simp only [isHexDigitOrBar, Bool.or_eq_true, Bool.and_eq_true, decide_eq_true_eq, beq_iff_eq]
  rintro (((hd | hd) | hd) | hd)
  exacts [not_isDigit h hd, hl hd, hu hd, ne_bar h hd]

/-- No letter that means something in a number goes on here. -/
theorem ne_letter {d : Char} (hd : d.isAlpha = true) : c ≠ d := by
  rintro rfl
  exact not_isAlpha h hd

theorem not_integerSuffix : ¬ isIntegerSuffix c = true := by
  have hne {d : Char} (hd : d.isAlpha = true) : c ≠ d := ne_letter h hd
  simp [isIntegerSuffix, hne]

theorem not_realSuffix : ¬ isRealSuffix c = true := by
  have hne {d : Char} (hd : d.isAlpha = true) : c ≠ d := ne_letter h hd
  simp [isRealSuffix, hne]

end

/-- What ends tokens begins with no character of a class of word characters. -/
theorem EndsToken.head_not {cs : List Char} (hb : EndsToken cs) {p : Char → Prop}
    (hp : ∀ c, ¬ isIdentContinue c = true → ¬ p c) (c : Char) (hc : cs.head? = some c) : ¬ p c :=
  hp c (hb.not_continue c hc)

theorem afterIntegerSuffix_stop {cs : List Char}
    (h : ∀ c, cs.head? = some c → ¬ isIntegerSuffix c = true) : afterIntegerSuffix cs = cs := by
  unfold afterIntegerSuffix
  split
  · rw [if_neg (h _ rfl)]
  · rw [if_neg (h _ rfl)]
  · rfl

theorem afterIntegerSuffix_one {c : Char} {cs : List Char} (hc : isIntegerSuffix c = true)
    (h : ∀ d, cs.head? = some d → ¬ isIntegerSuffix d = true) : afterIntegerSuffix (c :: cs) = cs := by
  cases cs with
  | nil => rw [afterIntegerSuffix, if_pos hc]
  | cons d ds => rw [afterIntegerSuffix, if_pos hc, if_neg (h d rfl)]

theorem eq_nil_of_suffix (h : mid ++ back <:+ back) : mid = [] := by
  have := h.length_le
  rw [List.length_append] at this
  exact List.eq_nil_of_length_eq_zero (by omega)

theorem afterIntegerSuffix_local (hb : EndsToken back')
    (h : afterIntegerSuffix (front ++ back) = mid ++ back) :
    afterIntegerSuffix (front ++ back') = mid ++ back' := by
  have hb' := hb.head_not fun c => not_integerSuffix
  cases front with
  | nil =>
    obtain rfl := eq_nil_of_suffix (h ▸ afterIntegerSuffix_suffix back)
    exact afterIntegerSuffix_stop hb'
  | cons c front =>
    by_cases hc : isIntegerSuffix c = true
    · cases front with
      | nil =>
        by_cases hd : ∀ d, back.head? = some d → ¬ isIntegerSuffix d = true
        · rw [List.singleton_append, afterIntegerSuffix_one hc hd] at h
          obtain rfl : [] = mid := List.append_cancel_right (show [] ++ back = _ from h)
          exact afterIntegerSuffix_one hc hb'
        · -- both letters of the suffix would be taken, the second one from `back`
          simp only [not_forall, not_not] at hd
          obtain ⟨d, hd, hs⟩ := hd
          obtain ⟨ds, rfl⟩ := List.head?_eq_some_iff.1 hd
          simp only [List.singleton_append, afterIntegerSuffix, hc, hs, if_true] at h
          exact (Leaves.not_append mid (.cons ⟨[], h.symm⟩)).elim
      | cons d front =>
        simp only [List.cons_append, afterIntegerSuffix, hc, if_true] at h ⊢
        split at h
        · rw [if_pos ‹_›, List.append_cancel_right h]
        · rw [if_neg ‹_›, ← List.append_cancel_right (show (d :: front) ++ back = _ from h)]
          rfl
    · have hc' (cs : List Char) : afterIntegerSuffix (c :: cs) = c :: cs :=
        afterIntegerSuffix_stop fun d hd => Option.some_inj.1 hd ▸ hc
      rw [List.cons_append, hc'] at h ⊢
      rw [← List.append_cancel_right (show (c :: front) ++ back = _ from h)]
      rfl

theorem afterFraction?_eq_some {cs rest : List Char} : afterFraction? cs = some rest ↔
    ∃ d ds, cs = '.' :: d :: ds ∧ d.isDigit = true ∧ rest = (d :: ds).dropWhile isDigitOrBar := by
  constructor
  · intro h
    unfold afterFraction? at h
    split at h
    · split at h
      · exact ⟨_, _, rfl, ‹_›, (Option.some_inj.1 h).symm⟩
      · cases h
    · cases h
  · rintro ⟨d, ds, rfl, hd, rfl⟩
    rw [afterFraction?, if_pos hd]

theorem afterFraction?_some (hb : EndsToken back')
    (h : afterFraction? (front ++ back) = some (mid ++ back)) :
    afterFraction? (front ++ back') = some (mid ++ back') := by
  obtain ⟨d, ds, hf, hd, hr⟩ := afterFraction?_eq_some.1 h
  have hs : mid ++ back <:+ ds := by
    rw [hr, List.dropWhile_cons_of_pos (by simp [isDigitOrBar, hd])]
    exact List.dropWhile_suffix _
  obtain ⟨front', rfl, rfl⟩ := exists_append_of_append ['.', d] hf hs
  refine afterFraction?_eq_some.2 ⟨d, front' ++ back', rfl, hd, ?_⟩
  exact (@dropWhile_local (d :: front') _ _ _ _ (hb.head_not fun c => not_digitOrBar) hr.symm).1.symm

theorem afterFraction?_none (hb : EndsToken back') (h : afterFraction? (front ++ back) = none) :
    afterFraction? (front ++ back') = none := by
  by_contra hne
  obtain ⟨rest, hr⟩ := Option.ne_none_iff_exists'.1 hne
  obtain ⟨d, ds, hf, hd, -⟩ := afterFraction?_eq_some.1 hr
  cases front with
  | nil => exact hb.head?_ne (d := '.') (by simp) (by rw [show back' = _ from hf]; rfl)
  | cons c front =>
    obtain ⟨rfl, hf₁⟩ := List.cons.inj hf
    cases front with
    | nil =>
      rw [show back' = d :: ds from hf₁] at hb
      exact hb.head_not (fun c => not_isDigit) d rfl hd
    | cons e front =>
      obtain ⟨rfl, -⟩ := List.cons.inj hf₁
      have := afterFraction?_eq_some.2 ⟨e, front ++ back, rfl, hd, rfl⟩
      rw [← List.cons_append, ← List.cons_append, h] at this
      cases this

theorem afterExponent?_eq_some {cs rest : List Char} : afterExponent? cs = some rest ↔
    ∃ c ds d es, cs = c :: ds ∧ (c == 'e' || c == 'E') = true ∧ afterSign ds = d :: es ∧
      d.isDigit = true ∧ rest = es.dropWhile isDigitOrBar := by
  constructor
  · intro h
    unfold afterExponent? at h
    split at h
    · split at h
      · split at h
        · split at h
          · exact ⟨_, _, _, _, rfl, ‹_›, ‹_›, ‹_›, (Option.some_inj.1 h).symm⟩
          · cases h
        · cases h
      · cases h
    · cases h
  · rintro ⟨c, ds, d, es, rfl, hc, hs, hd, rfl⟩
    simp only [afterExponent?, hc, hs, hd, if_true]

theorem afterSign_cons_append (c : Char) (cs ds : List Char) :
    afterSign (c :: cs ++ ds) = afterSign (c :: cs) ++ ds := by
  simp only [List.cons_append, afterSign]
  split <;> rfl

theorem afterExponent?_some (hb : EndsToken back')
    (h : afterExponent? (front ++ back) = some (mid ++ back)) :
    afterExponent? (front ++ back') = some (mid ++ back') := by
  obtain ⟨c, ds, d, es, hf, hc, hs, hd, hr⟩ := afterExponent?_eq_some.1 h
  have hes : d :: es <:+ ds := hs ▸ afterSign_suffix ds
  have hr' : mid ++ back <:+ es := hr ▸ List.dropWhile_suffix _
  obtain ⟨front', rfl, rfl⟩ := exists_append_of_append [c] hf
    (hr'.trans ((List.suffix_cons d es).trans hes))
  cases front' with
  | nil =>
    exact (Leaves.not_append mid (.of_suffix (.cons hr') hes)).elim
  | cons a front' =>
    rw [afterSign_cons_append] at hs
    obtain ⟨digits, ha, rfl⟩ := exists_append_of_append [d] hs hr'
    refine afterExponent?_eq_some.2 ⟨c, a :: front' ++ back', d, digits ++ back', rfl, hc, ?_, hd, ?_⟩
    · rw [afterSign_cons_append, ha]
      rfl
    · exact (dropWhile_local (hb.head_not fun c => not_digitOrBar) hr.symm).1.symm

theorem afterSign_stop {cs : List Char} (hb : EndsToken cs) : afterSign cs = cs := by
  cases cs with
  | nil => rfl
  | cons c cs =>
    have h1 : c ≠ '+' := fun h => hb.head?_ne (d := '+') (by simp) (by rw [h]; rfl)
    have h2 : c ≠ '-' := fun h => hb.head?_ne (d := '-') (by simp) (by rw [h]; rfl)
    simp [afterSign, h1, h2]

theorem afterExponent?_none (hb : EndsToken back') (h : afterExponent? (front ++ back) = none) :
    afterExponent? (front ++ back') = none := by
  by_contra hne
  obtain ⟨rest, hr⟩ := Option.ne_none_iff_exists'.1 hne
  obtain ⟨c, ds, d, es, hf, hc, hs, hd, -⟩ := afterExponent?_eq_some.1 hr
  cases front with
  | nil =>
    rw [show back' = c :: ds from hf] at hb
    refine hb.not_continue c rfl (isIdentContinue_of_isAlphanum ?_)
    rcases Bool.or_eq_true_iff.1 hc with hc | hc <;> rw [beq_iff_eq.1 hc] <;> decide
  | cons a front =>
    obtain ⟨rfl, rfl⟩ := List.cons.inj hf
    cases front with
    | nil =>
      rw [List.append_eq, List.nil_append, afterSign_stop hb] at hs
      rw [hs] at hb
      exact hb.head_not (fun c => not_isDigit) d rfl hd
    | cons e front =>
      have hs' : afterSign (e :: front ++ back') = d :: es := hs
      rw [afterSign_cons_append] at hs'
      cases ha : afterSign (e :: front) with
      | nil =>
        rw [ha, List.nil_append] at hs'
        rw [hs'] at hb
        exact hb.head_not (fun c => not_isDigit) d rfl hd
      | cons d' digits =>
        rw [ha] at hs'
        obtain ⟨rfl, -⟩ := List.cons.inj hs'
        have := afterExponent?_eq_some.2 ⟨a, e :: front ++ back, d', digits ++ back, rfl, hc,
          by rw [afterSign_cons_append, ha]; rfl, hd, rfl⟩
        rw [← List.cons_append, h] at this
        cases this

theorem numberSuffix_kind {isReal : Bool} {cs : List Char} (h : (numberSuffix isReal cs).2 = cs) :
    (numberSuffix isReal cs).1 = if isReal then .realLiteral else .integerLiteral := by
  cases cs with
  | nil => rfl
  | cons c cs =>
    unfold numberSuffix at h ⊢
    dsimp only at h ⊢
    split at h
    · exact absurd h (List.cons_ne_self c cs).symm
    · rw [if_neg ‹_›]
      cases isReal <;> rfl

theorem numberSuffix_stop {isReal : Bool} {cs : List Char} (hb : EndsToken cs) :
    (numberSuffix isReal cs).2 = cs := by
  cases cs with
  | nil => rfl
  | cons c cs =>
    unfold numberSuffix
    dsimp only
    rw [if_neg (hb.head_not (fun c => not_realSuffix) c rfl)]
    split
    · rfl
    · exact afterIntegerSuffix_stop (hb.head_not fun c => not_integerSuffix)

theorem numberSuffix_local {isReal : Bool} {kind : TokenKind} (hb : EndsToken back')
    (h : numberSuffix isReal (front ++ back) = (kind, mid ++ back)) :
    numberSuffix isReal (front ++ back') = (kind, mid ++ back') := by
  cases front with
  | nil =>
    have h2 : (numberSuffix isReal back).2 = mid ++ back := congrArg Prod.snd h
    obtain rfl := eq_nil_of_suffix (h2 ▸ numberSuffix_suffix isReal back)
    have hk : (numberSuffix isReal back).1 = kind := congrArg Prod.fst h
    have hs : (numberSuffix isReal back').2 = back' := numberSuffix_stop hb
    refine Prod.ext ?_ hs
    rw [List.nil_append, numberSuffix_kind hs, ← hk, numberSuffix_kind h2]
  | cons c front =>
    simp only [List.cons_append, numberSuffix] at h ⊢
    split at h
    · obtain ⟨rfl, hr⟩ := Prod.mk.inj h
      rw [if_pos ‹_›, List.append_cancel_right hr]
    rw [if_neg ‹_›]
    split at h
    · obtain ⟨rfl, hr⟩ := Prod.mk.inj h
      rw [if_pos ‹_›, ← List.append_cancel_right (show (c :: front) ++ back = _ from hr)]
      rfl
    · obtain ⟨rfl, hr⟩ := Prod.mk.inj h
      rw [if_neg ‹_›, ← List.cons_append, afterIntegerSuffix_local hb hr]

theorem hasRadix_iff {cs : List Char} : hasRadix cs = true ↔
    ∃ c ds, cs = '0' :: c :: ds ∧ (c == 'x' || c == 'X' || c == 'b' || c == 'B') = true := by
  constructor
  · intro h
    unfold hasRadix at h
    split at h
    · exact ⟨_, _, rfl, h⟩
    · cases h
  · rintro ⟨c, ds, rfl, h⟩
    exact h

theorem hasRadix_local (hb : EndsToken back') (hf : front ≠ [])
    (h : hasRadix (front ++ back') = true) : hasRadix (front ++ back) = true := by
  obtain ⟨c, ds, hcs, hc⟩ := hasRadix_iff.1 h
  cases front with
  | nil => exact absurd rfl hf
  | cons a front =>
    obtain ⟨rfl, hcs₁⟩ := List.cons.inj hcs
    cases front with
    | nil =>
      rw [show back' = c :: ds from hcs₁] at hb
      refine absurd (isIdentContinue_of_isAlphanum ?_) (hb.not_continue c rfl)
      simp only [Bool.or_eq_true, beq_iff_eq] at hc
      rcases hc with ((rfl | rfl) | rfl) | rfl <;> decide
    | cons d front =>
      obtain ⟨rfl, -⟩ := List.cons.inj hcs₁
      exact hasRadix_iff.2 ⟨d, front ++ back, rfl, hc⟩

theorem getD_afterFraction?_suffix (cs : List Char) : (afterFraction? cs).getD cs <:+ cs := by
  cases h : afterFraction? cs with
  | none => exact List.suffix_rfl
  | some rest => exact (afterFraction?_suffix h).trans (List.tail_suffix cs)

/-- What a stage of a number leaves, if the stage is there. -/
theorem getD_local {stage : List Char → Option (List Char)}
    (hs : ∀ mid, stage (front ++ back) = some (mid ++ back) → stage (front ++ back') = some (mid ++ back'))
    (hn : stage (front ++ back) = none → stage (front ++ back') = none)
    (h : (stage (front ++ back)).getD (front ++ back) = mid ++ back) :
    (stage (front ++ back')).getD (front ++ back') = mid ++ back' ∧
      (stage (front ++ back')).isSome = (stage (front ++ back)).isSome := by
  cases ho : stage (front ++ back) with
  | none =>
    rw [ho] at h
    rw [hn ho, ← List.append_cancel_right (show front ++ back = _ from h)]
    exact ⟨rfl, rfl⟩
  | some rest =>
    rw [ho] at h
    rw [hs mid (ho.trans (congrArg some h))]
    exact ⟨rfl, rfl⟩

/-- **How a number is read does not depend on what follows it.** -/
theorem number_local {kind : TokenKind} (hb : EndsToken back') (hf : front ≠ [])
    (h : number (front ++ back) = (kind, mid ++ back)) :
    number (front ++ back') = (kind, mid ++ back') := by
  unfold number at h ⊢
  split at h
  · rename_i hr
    obtain ⟨c, ds, hcs, hc⟩ := hasRadix_iff.1 hr
    obtain ⟨rfl, hrest⟩ := Prod.mk.inj h
    have hs : mid ++ back <:+ ds.dropWhile isHexDigitOrBar := by
      rw [← hrest, hcs]
      exact afterIntegerSuffix_suffix _
    obtain ⟨front', rfl, rfl⟩ :=
      exists_append_of_append ['0', c] hcs (hs.trans (List.dropWhile_suffix _))
    obtain ⟨digits, hd, -⟩ := exists_append_of_suffix (List.dropWhile_suffix _) hs
    have hrest' : afterIntegerSuffix ((front' ++ back).dropWhile isHexDigitOrBar) = mid ++ back :=
      hrest
    rw [hd] at hrest'
    have hr' : hasRadix (['0', c] ++ front' ++ back') = true :=
      hasRadix_iff.2 ⟨c, front' ++ back', rfl, hc⟩
    rw [if_pos hr']
    show (TokenKind.integerLiteral,
      afterIntegerSuffix ((front' ++ back').dropWhile isHexDigitOrBar)) = _
    rw [(dropWhile_local (hb.head_not fun c => not_hexDigitOrBar) hd).1,
      afterIntegerSuffix_local hb hrest']
  · rename_i hr
    rw [if_neg fun h => hr (hasRadix_local hb hf h)]
    dsimp only at h ⊢
    -- what is left behind each stage ends with `back`
    have h₃ := congrArg Prod.snd h ▸ numberSuffix_suffix _ _
    have h₂ := h₃.trans (getD_afterExponent?_suffix _)
    have h₁ := h₂.trans (getD_afterFraction?_suffix _)
    obtain ⟨whole, hw, -⟩ := exists_append_of_suffix (List.dropWhile_suffix _) h₁
    rw [hw] at h h₂ h₃
    obtain ⟨mantissa, hm, -⟩ := exists_append_of_suffix (getD_afterFraction?_suffix _) h₂
    rw [hm] at h h₃
    obtain ⟨suffix, he, -⟩ := exists_append_of_suffix (getD_afterExponent?_suffix _) h₃
    rw [he] at h
    rw [(dropWhile_local (hb.head_not fun c => not_digitOrBar) hw).1]
    obtain ⟨hm', hi⟩ := getD_local (fun _ => afterFraction?_some hb) (afterFraction?_none hb) hm
    rw [hm', hi]
    obtain ⟨he', hj⟩ := getD_local (fun _ => afterExponent?_some hb) (afterExponent?_none hb) he
    rw [he', hj]
    exact numberSuffix_local hb h

theorem startsNumber_cons {c : Char} {cs : List Char} : startsNumber (c :: cs) = true ↔
    c.isDigit = true ∨ c = '.' ∧ ∃ d ds, cs = d :: ds ∧ d.isDigit = true := by
  unfold startsNumber
  split
  · rename_i heq
    cases heq
    simp [show ('.').isDigit = false from rfl]
  · rename_i hd heq
    cases heq
    constructor
    · exact .inl
    · rintro (h | ⟨rfl, d, ds, rfl, -⟩)
      · exact h
      · exact absurd rfl (hd d ds rfl)
  · rename_i heq
    cases heq

/-- A number that begins with a point takes the digit behind it. -/
theorem number_point_suffix {d : Char} {ds : List Char} (hd : d.isDigit = true) :
    (number ('.' :: d :: ds)).2 <:+ ds := by
  have hf : afterFraction? ('.' :: d :: ds) = some ((d :: ds).dropWhile isDigitOrBar) :=
    afterFraction?_eq_some.2 ⟨d, ds, rfl, hd, rfl⟩
  have hw : ('.' :: d :: ds).dropWhile isDigitOrBar = '.' :: d :: ds :=
    List.dropWhile_cons_of_neg (by decide)
  have hr : ¬ hasRadix ('.' :: d :: ds) = true := fun h => by
    obtain ⟨_, _, h, -⟩ := hasRadix_iff.1 h
    exact absurd (List.cons.inj h).1 (by decide)
  unfold number
  rw [if_neg hr, hw]
  dsimp only
  rw [hf]
  refine (numberSuffix_suffix _ _).trans ((getD_afterExponent?_suffix _).trans ?_)
  rw [Option.getD_some, List.dropWhile_cons_of_pos (by simp [isDigitOrBar, hd])]
  exact List.dropWhile_suffix _

/-- Where a number begins depends on the text up to its end only. -/
theorem startsNumber_local {c : Char} (hb : EndsToken back')
    (hm : ∀ d ds, back = d :: ds → front = [] → c = '.' → ¬ d.isDigit = true) :
    startsNumber (c :: (front ++ back')) = startsNumber (c :: (front ++ back)) := by
  rw [Bool.eq_iff_iff, startsNumber_cons, startsNumber_cons]
  refine or_congr Iff.rfl (and_congr_right fun hc => ?_)
  cases front with
  | nil =>
    constructor
    · rintro ⟨d, ds, hd, hd'⟩
      rw [show back' = d :: ds from hd] at hb
      exact absurd hd' (hb.head_not (fun c => not_isDigit) d rfl)
    · rintro ⟨d, ds, hd, hd'⟩
      exact absurd hd' (hm d ds hd rfl hc)
  | cons a front => simp

/-! ## Punctuation marks -/

theorem punctuation?_single {c : Char} {cs : List Char} (h1 : c ≠ ':') (h2 : c ≠ '=') :
    punctuation? (c :: cs) = (punctuation? [c]).map fun m => (m.1, cs) := by
  cases hp : punctuation? [c] with
  | some m =>
    unfold punctuation? at hp
    split at hp <;> cases hp <;> rename_i heq <;> cases heq
    all_goals first | rfl | exact absurd rfl h1 | exact absurd rfl h2
  | none =>
    cases hq : punctuation? (c :: cs) with
    | none => rfl
    | some m =>
      unfold punctuation? at hq
      split at hq <;> cases hq <;> rename_i heq <;> cases heq <;> cases hp

theorem punctuation?_colon {cs : List Char} (h : cs.head? ≠ some ':') :
    punctuation? (':' :: cs) = some (.colon, cs) := by
  rw [punctuation?]
  rintro ds rfl
  exact h rfl

theorem punctuation?_equal {cs : List Char} (h : cs.head? ≠ some '>') :
    punctuation? ('=' :: cs) = some (.equal, cs) := by
  rw [punctuation?]
  rintro ds rfl
  exact h rfl

theorem punctuation?_local {c : Char} {mark : Punct} (hb : EndsToken back')
    (h : punctuation? (c :: (front ++ back)) = some (mark, mid ++ back)) :
    punctuation? (c :: (front ++ back')) = some (mark, mid ++ back') := by
  by_cases h1 : c = ':'
  · subst h1
    by_cases hc : (front ++ back).head? = some ':'
    · obtain ⟨ds, hds⟩ := List.head?_eq_some_iff.1 hc
      rw [hds, punctuation?] at h
      obtain ⟨rfl, rfl⟩ := Prod.mk.inj (Option.some_inj.1 h)
      obtain ⟨front', rfl, hf⟩ := exists_append_of_append [':'] hds List.suffix_rfl
      rw [List.append_cancel_right hf]
      rfl
    · rw [punctuation?_colon hc] at h
      obtain ⟨rfl, hm⟩ := Prod.mk.inj (Option.some_inj.1 h)
      rw [← List.append_cancel_right hm]
      refine punctuation?_colon ?_
      cases front with
      | nil => exact hb.head?_ne (by simp)
      | cons d front => exact hc
  by_cases h2 : c = '='
  · subst h2
    by_cases hc : (front ++ back).head? = some '>'
    · obtain ⟨ds, hds⟩ := List.head?_eq_some_iff.1 hc
      rw [hds, punctuation?] at h
      obtain ⟨rfl, rfl⟩ := Prod.mk.inj (Option.some_inj.1 h)
      obtain ⟨front', rfl, hf⟩ := exists_append_of_append ['>'] hds List.suffix_rfl
      rw [List.append_cancel_right hf]
      rfl
    · rw [punctuation?_equal hc] at h
      obtain ⟨rfl, hm⟩ := Prod.mk.inj (Option.some_inj.1 h)
      rw [← List.append_cancel_right hm]
      refine punctuation?_equal ?_
      cases front with
      | nil => exact hb.head?_ne (by simp)
      | cons d front => exact hc
  · rw [punctuation?_single h1 h2] at h ⊢
    obtain ⟨m, hm, he⟩ := Option.map_eq_some_iff.1 h
    obtain ⟨rfl, hr⟩ := Prod.mk.inj he
    rw [hm, List.append_cancel_right hr]
    rfl

/-! ## Tokens -/

theorem literalKind_cons {c : Char} {cs : List Char} (h : c ≠ '@') :
    literalKind (c :: cs) = if c = '\'' then .charLiteral else .stringLiteral := by
  by_cases hc : c = '\''
  · subst hc
    rfl
  · rw [if_neg hc, literalKind]
    · rintro _ ⟨⟩
      exact hc rfl
    · rintro _ _ ⟨⟩
      exact h rfl

theorem literalKind_local {c : Char} (h : c = '@' → front ≠ []) :
    literalKind (c :: (front ++ back')) = literalKind (c :: (front ++ back)) := by
  by_cases hc : c = '@'
  · subst hc
    obtain ⟨d, front', rfl⟩ := List.exists_cons_of_ne_nil (h rfl)
    rfl
  · rw [literalKind_cons hc, literalKind_cons hc]

/-- **How a token is read does not depend on what follows it.** -/
theorem scan_local {c : Char} {kind : TokenKind} (hb : EndsToken back')
    (h : scan c (front ++ back) = (kind, .closed (mid ++ back))) :
    scan c (front ++ back') = (kind, .closed (mid ++ back')) := by
  unfold scan at h ⊢
  split at h
  · rename_i hc
    obtain ⟨rfl, hl⟩ := Prod.mk.inj h
    have hf : c = '@' → front ≠ [] := by
      rintro rfl rfl
      exact Leaves.not_append mid (atLiteral_leaves (fun d ds hd =>
        literal_within _ d ds (by
          have := hd.length_le
          simp only [List.nil_append, List.length_cons] at this ⊢
          omega)) hl)
    rw [if_pos hc, literal_local hb (Nat.lt_succ_self _) (by rw [List.length_append]; omega) hl,
      literalKind_local hf]
  rw [if_neg ‹_›]
  split at h
  · rename_i hn
    have hm : number (c :: front ++ back) = (kind, mid ++ back) := by
      obtain ⟨hk, hr⟩ := Prod.mk.inj h
      exact Prod.ext hk (Reading.closed.inj hr)
    have hs : startsNumber (c :: (front ++ back')) = true := by
      rw [startsNumber_local hb, hn]
      rintro d ds rfl rfl rfl hd
      have := @number_point_suffix _ ds hd
      rw [show number ('.' :: d :: ds) = _ from hm] at this
      exact Leaves.not_append mid (.cons this)
    have hm' := number_local hb (List.cons_ne_nil c front) hm
    rw [if_pos hs, ← List.cons_append, hm']
  have hs : ¬ startsNumber (c :: (front ++ back')) = true := by
    rw [startsNumber_local hb]
    · assumption
    · rintro d ds rfl rfl rfl hd
      exact absurd (startsNumber_cons.2 (.inr ⟨rfl, d, ds, rfl, hd⟩)) ‹_›
  rw [if_neg hs]
  split at h
  · rename_i hi
    obtain ⟨rfl, hr⟩ := Prod.mk.inj h
    rw [← List.cons_append] at hr ⊢
    obtain ⟨hd, ht⟩ := dropWhile_local hb.not_continue (Reading.closed.inj hr)
    rw [if_pos hi, hd, ht]
    rfl
  rw [if_neg ‹_›]
  split at h
  · rename_i hp
    obtain ⟨rfl, hr⟩ := Prod.mk.inj h
    rw [Reading.closed.inj hr] at hp
    rw [punctuation?_local hb hp]
  · cases h

/-! ## Gaps -/

attribute [local simp] gapEnd

theorem gapEnd_blank {c : Char} {cs : List Char} (h : Text.isBlank c = true) :
    gapEnd .between (c :: cs) = gapEnd .between cs := by
  have hne {d : Char} (hd : Text.isBlank d = false) : c ≠ d := by
    rintro rfl
    rw [h] at hd
    cases hd
  rw [gapEnd, if_pos h] <;> intros <;> exact hne rfl ‹_›

theorem gapEnd_token {c : Char} {cs : List Char} (h : ¬ Text.isBlank c = true) (hc : c ≠ '#')
    (hs : c = '/' → cs.head? ≠ some '/' ∧ cs.head? ≠ some '*') :
    gapEnd .between (c :: cs) = ⟨c :: cs, none⟩ := by
  rw [gapEnd, if_neg h]
  · exact hc
  · rintro ds rfl rfl
    exact (hs rfl).1 rfl
  · rintro ds rfl rfl
    exact (hs rfl).2 rfl

theorem gapEnd_suffix (mode : GapMode) (cs : List Char) : (gapEnd mode cs).rest <:+ cs := by
  obtain ⟨gap, hg, -⟩ := gapEnd_covers mode cs
  exact ⟨gap, hg.symm⟩

/-- No more is left than there was. -/
theorem gapEnd_ne {mode : GapMode} {cs ds : List Char} {open? : Option (List Char)}
    (h : cs.length < ds.length) : gapEnd mode cs ≠ ⟨ds, open?⟩ := by
  intro heq
  have := gapEnd_suffix mode cs
  rw [heq] at this
  exact absurd this.length_le (Nat.not_le.2 h)

theorem gapEnd_block_cons {start : List Char} {c : Char} {cs : List Char}
    (h : c = '*' → cs.head? ≠ some '/') :
    gapEnd (.block start) (c :: cs) = gapEnd (.block start) cs := by
  rw [gapEnd]
  rintro ds rfl rfl
  exact h rfl rfl

/-- Where a block comment began plays no part once it is closed. -/
theorem gapEnd_block {start start' cs rest : List Char}
    (h : gapEnd (.block start) cs = ⟨rest, none⟩) : gapEnd (.block start') cs = ⟨rest, none⟩ := by
  induction cs with
  | nil => cases h
  | cons c cs ih =>
    by_cases hc : c = '*' ∧ cs.head? = some '/'
    · obtain ⟨rfl, hs⟩ := hc
      obtain ⟨ds, rfl⟩ := List.head?_eq_some_iff.1 hs
      exact h
    · rw [gapEnd_block_cons fun h hs => hc ⟨h, hs⟩] at h ⊢
      exact ih h

theorem gapEnd_line {body : List Char} (h : '\n' ∉ body) (cs : List Char) :
    gapEnd .line (body ++ '\n' :: cs) = gapEnd .between cs := by
  induction body with
  | nil => rfl
  | cons c body ih =>
    obtain ⟨hc, hbody⟩ := not_or.1 (List.mem_cons.not.1 h)
    rw [List.cons_append, gapEnd, if_neg (Ne.symm hc)]
    exact ih hbody

theorem gapEnd_closed {start body : List Char} (h : ¬ ['*', '/'] <:+: body) (cs : List Char) :
    gapEnd (.block start) (body ++ '*' :: '/' :: cs) = gapEnd .between cs := by
  induction body with
  | nil => rfl
  | cons c body ih =>
    rw [List.infix_cons_iff, not_or] at h
    rw [List.cons_append, gapEnd_block_cons, ih h.2]
    rintro rfl hd
    cases body with
    | nil => cases hd
    | cons d body =>
      obtain rfl : d = '/' := Option.some_inj.1 hd
      exact h.1 ⟨body, rfl⟩

/-- **Trivia is skipped whole.** -/
theorem gapEnd_trivia {gap : List Char} (h : Trivia False gap) (rest : List Char) :
    gapEnd .between (gap ++ rest) = gapEnd .between rest := by
  induction h with
  | nil => rfl
  | blank hc _ ih => rw [List.cons_append, gapEnd_blank hc, ih]
  | @line opener body cs ho hb _ ih =>
    have hline : gapEnd .line (body ++ '\n' :: (cs ++ rest)) = gapEnd .between rest := by
      rw [gapEnd_line hb, ih]
    rcases ho with rfl | rfl <;> simpa using hline
  | lastLine h => exact h.elim
  | @block body cs hb _ ih =>
    have hblock (start : List Char) :
        gapEnd (.block start) (body ++ '*' :: '/' :: (cs ++ rest)) = gapEnd .between rest := by
      rw [gapEnd_closed hb, ih]
    simpa using hblock _
  | openBlock h => exact h.elim

/-- **The gap before a token does not depend on what follows the token.** -/
theorem gapEnd_local {mode : GapMode} (hb : Stops back') (hm : mid ≠ [])
    (h : gapEnd mode (front ++ back) = ⟨mid ++ back, none⟩) :
    gapEnd mode (front ++ back') = ⟨mid ++ back', none⟩ := by
  have inside {cs : List Char} {m : GapMode} (hs : cs <:+ back)
      (h : gapEnd m cs = ⟨mid ++ back, none⟩) : False := by
    have := gapEnd_suffix m cs
    rw [h] at this
    exact hm (eq_nil_of_suffix (this.trans hs))
  fun_induction gapEnd mode front with
  | case1 | case7 | case10 => exact (inside List.suffix_rfl h).elim
  | case2 cs ih | case3 cs ih | case11 _ cs ih => exact ih h
  | case4 cs ih => exact gapEnd_block (ih (gapEnd_block h))
  | case5 c cs hc hs ht hb ih =>
    rw [List.cons_append, gapEnd_blank hb] at h ⊢
    exact ih h
  | case6 c cs hc hs ht hblank =>
    have hcs {ds : List Char} (hne : cs ≠ []) (hc : c = '/') :
        (cs ++ ds).head? ≠ some '/' ∧ (cs ++ ds).head? ≠ some '*' := by
      obtain ⟨d, es, rfl⟩ := List.exists_cons_of_ne_nil hne
      exact ⟨fun hh => hs es hc (by rw [Option.some_inj.1 hh]),
        fun hh => ht es hc (by rw [Option.some_inj.1 hh])⟩
    rw [List.cons_append] at h ⊢
    by_cases hne : cs = []
    · subst hne
      rw [List.nil_append] at h ⊢
      by_cases h1 : c = '/' ∧ (back.head? = some '/' ∨ back.head? = some '*')
      · -- a comment that reaches into `back`
        obtain ⟨rfl, hh | hh⟩ := h1 <;> obtain ⟨ds, rfl⟩ := List.head?_eq_some_iff.1 hh
        · exact (inside (List.suffix_cons _ ds) (show gapEnd .line ds = _ from h)).elim
        · exact (inside (m := .block _) (List.suffix_cons _ ds) h).elim
      · simp only [not_and, not_or] at h1
        rw [gapEnd_token hblank hc h1] at h
        obtain rfl : [c] = mid := List.append_cancel_right (GapEnd.mk.inj h).1
        exact gapEnd_token hblank hc fun _ => ⟨hb.head?_ne (by simp), hb.head?_ne (by simp)⟩
    · rw [gapEnd_token hblank hc (hcs hne)] at h ⊢
      rw [← List.append_cancel_right (show (c :: cs) ++ back = _ from (GapEnd.mk.inj h).1)]
      rfl
  | case8 cs ih => exact ih h
  | case9 c cs hc ih =>
    rw [List.cons_append, gapEnd, if_neg hc] at h ⊢
    exact ih h
  | case12 start c cs hc ih =>
    have hcs {ds : List Char} (hne : cs ≠ []) : c = '*' → (cs ++ ds).head? ≠ some '/' := by
      intro hc' hh
      obtain ⟨d, es, rfl⟩ := List.exists_cons_of_ne_nil hne
      obtain rfl : d = '/' := Option.some_inj.1 hh
      exact hc es hc' rfl
    rw [List.cons_append] at h ⊢
    by_cases hne : cs = []
    · subst hne
      rw [List.nil_append] at h
      by_cases hq : c = '*' ∧ back.head? = some '/'
      · obtain ⟨rfl, hq⟩ := hq
        obtain ⟨ds, rfl⟩ := List.head?_eq_some_iff.1 hq
        exact (inside (List.suffix_cons _ ds) (show gapEnd .between ds = _ from h)).elim
      · rw [gapEnd_block_cons fun h hs => hq ⟨h, hs⟩] at h
        exact (inside List.suffix_rfl h).elim
    · rw [gapEnd_block_cons (hcs hne)] at h ⊢
      exact ih h

end CommandModules

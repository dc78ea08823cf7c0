/-
  Command modules — how far the reading of a literal looks.

  A literal that was read whole is read again wherever its text stands, as long as
  what follows cannot be taken for a part of it.

  * `EndsToken cs`: no token can go on with the text `cs`; `Stops cs`: and no comment
    begins with it where a slash stands before it;
  * `Leaves cs rest`: `rest` is what is left of `cs` once a character or more is
    taken;
  * `literal_local`: where the reading of the literal at the head of `front ++ back`
    leaves `mid ++ back`, that of `front ++ back'` leaves `mid ++ back'`, if `back'`
    ends tokens; each form of a literal has a lemma of its own.
-/
import CommandModules.Proofs.Token.Suffix

namespace CommandModules

/-! ## Where tokens stop -/

/-- Can no token go on with the character? -/
def endsToken (c : Char) : Bool :=
  !isIdentContinue c && !(['.', '"', ':', '>', '+', '-', '$'].contains c)

/-- Can no token go on with the text? -/
def EndsToken (cs : List Char) : Prop :=
  ∀ c, cs.head? = some c → endsToken c = true

/-- Can no token go on with the character?  A comment can begin with a slash, so
    it does not count. -/
def stopsTokens (c : Char) : Bool :=
  !isIdentContinue c && !(['.', '"', ':', '>', '/', '*', '+', '-', '$'].contains c)

/-- Can no token go on with the text, nor a comment begin with its head and a slash
    before it? -/
def Stops (cs : List Char) : Prop :=
  ∀ c, cs.head? = some c → stopsTokens c = true

namespace EndsToken

variable {cs : List Char}

theorem nil : EndsToken [] := nofun

theorem cons {c : Char} (h : endsToken c = true) : EndsToken (c :: cs) :=
  fun _ hc => Option.some_inj.1 hc ▸ h

theorem not_continue (h : EndsToken cs) (c : Char) (hc : cs.head? = some c) :
    ¬ isIdentContinue c = true := by
  have := h c hc
  simp only [endsToken, Bool.and_eq_true] at this
  simpa using this.1

theorem head?_ne (h : EndsToken cs) {d : Char} (hd : d ∈ ['.', '"', ':', '>', '+', '-', '$']) :
    cs.head? ≠ some d := by
  intro hc
  have := h d hc
  simp only [endsToken, Bool.and_eq_true, Bool.not_eq_true', List.contains_eq_mem,
    decide_eq_false_iff_not] at this
  exact this.2 hd

end EndsToken

namespace Stops

variable {cs : List Char}

theorem nil : Stops [] := nofun

theorem cons {c : Char} (h : stopsTokens c = true) : Stops (c :: cs) :=
  fun _ hc => Option.some_inj.1 hc ▸ h

theorem head?_ne (h : Stops cs) {d : Char} (hd : d ∈ ['/', '*']) : cs.head? ≠ some d := by
  intro hc
  have := h d hc
  simp only [stopsTokens, Bool.and_eq_true, Bool.not_eq_true', List.contains_eq_mem,
    decide_eq_false_iff_not] at this
  exact this.2 (by revert hd; simp; tauto)

theorem ends (h : Stops cs) : EndsToken cs := by
  intro c hc
  have := h c hc
  simp only [stopsTokens, endsToken, Bool.and_eq_true, Bool.not_eq_true', List.contains_eq_mem,
    decide_eq_false_iff_not] at this ⊢
  exact ⟨this.1, fun hd => this.2 (by revert hd; simp; tauto)⟩

end Stops

/-! ## What is left of a text -/

/-- Is `rest` what is left of `cs` once a character or more is taken? -/
def Leaves (cs rest : List Char) : Prop :=
  ∃ c ds, cs = c :: ds ∧ rest <:+ ds

namespace Leaves

variable {c : Char} {cs ds rest : List Char}

theorem cons (h : rest <:+ ds) : Leaves (c :: ds) rest := ⟨c, ds, rfl, h⟩

theorem suffix (h : Leaves cs rest) : rest <:+ cs := by
  obtain ⟨c, ds, rfl, h⟩ := h
  exact h.trans (List.suffix_cons c ds)

theorem of_suffix (h : Leaves cs rest) (hs : cs <:+ ds) : Leaves ds rest := by
  obtain ⟨c, es, rfl, h⟩ := h
  obtain ⟨pre, rfl⟩ := hs
  cases pre with
  | nil => exact ⟨c, es, rfl, h⟩
  | cons d pre =>
    exact ⟨d, pre ++ c :: es, rfl, h.trans ((List.suffix_cons c es).trans (List.suffix_append _ _))⟩

/-- A text does not leave what ends with it. -/
theorem not_append (mid : List Char) : ¬ Leaves cs (mid ++ cs) := by
  rintro ⟨c, ds, rfl, h⟩
  have := h.length_le
  simp only [List.length_append, List.length_cons] at this
  omega

end Leaves

section
variable {front mid back back' : List Char}

/-! ## Runs of characters -/

/-- What is left of a text from before `back` on ends with it. -/
theorem exists_append_of_suffix {rest : List Char} (h : rest <:+ front ++ back)
    (hl : mid ++ back <:+ rest) : ∃ front', rest = front' ++ back ∧ front' <:+ front := by
  obtain ⟨front', rfl⟩ := (List.suffix_append mid back).trans hl
  obtain ⟨pre, hp⟩ := h
  exact ⟨front', rfl, pre, List.append_cancel_right (by rw [← hp, List.append_assoc])⟩

theorem dropWhile_local {p : Char → Bool} (hb : ∀ c, back'.head? = some c → ¬ p c = true)
    (h : (front ++ back).dropWhile p = mid ++ back) :
    (front ++ back').dropWhile p = mid ++ back' ∧
      (front ++ back').takeWhile p = (front ++ back).takeWhile p := by
  induction front with
  | nil =>
    have hlen := (List.dropWhile_suffix p (l := back)).length_le
    rw [List.nil_append] at h
    obtain rfl : mid = [] := by
      rw [h, List.length_append] at hlen
      exact List.eq_nil_of_length_eq_zero (by omega)
    have ht : back.takeWhile p = [] := by
      have := List.takeWhile_append_dropWhile (p := p) (l := back)
      rw [h] at this
      simpa using this
    cases back' with
    | nil => simp [ht]
    | cons c cs =>
      have := hb c rfl
      simp [ht, this]
  | cons c front ih =>
    by_cases hc : p c = true
    · rw [List.cons_append, List.dropWhile_cons_of_pos hc] at h
      simp [hc, ih h]
    · rw [List.cons_append, List.dropWhile_cons_of_neg hc] at h
      have : c :: front = mid := List.append_cancel_right h
      simp [← this, hc]

/-! ## Strings without holes -/

attribute [local simp] regularBody verbatimBody rawBody interpolatedBody

section
variable {whole whole' cs rest : List Char} {quote : Char} {quotes run : Nat}

theorem regularBody_leaves (h : regularBody whole quote cs = .closed rest) : Leaves cs rest := by
  fun_induction regularBody whole quote cs with
  | case1 | case2 | case3 | case4 | case5 => cases h
  | case6 c cs _ ih => exact .cons ((ih h).suffix.trans (List.suffix_cons c cs))
  | case7 => exact Reading.closed.inj h ▸ .cons List.suffix_rfl
  | case8 c cs _ _ _ _ _ ih => exact .cons (ih h).suffix

theorem verbatimBody_leaves (h : verbatimBody whole cs = .closed rest) : Leaves cs rest := by
  fun_induction verbatimBody whole cs with
  | case1 => cases h
  | case2 cs ih => exact .cons ((ih h).suffix.trans (List.suffix_cons _ cs))
  | case3 => exact Reading.closed.inj h ▸ .cons List.suffix_rfl
  | case4 c cs _ _ ih => exact .cons (ih h).suffix

theorem rawBody_suffix (h : rawBody whole quotes run cs = .closed rest) : rest <:+ cs := by
  fun_induction rawBody whole quotes run cs with grind [List.suffix_cons]

theorem regularBody_cons {c : Char} (hn : c ≠ '\n') (hr : c ≠ '\r') (he : c ≠ '\\') :
    regularBody whole quote (c :: cs) =
      if c = quote then .closed cs else regularBody whole quote cs := by
  rw [regularBody] <;> simp_all

theorem regularBody_local (h : regularBody whole quote (front ++ back) = .closed (mid ++ back)) :
    regularBody whole' quote (front ++ back') = .closed (mid ++ back') := by
  -- a backslash that escapes nothing in `front` would escape a character of `back`
  have plain {c : Char} {cs : List Char} (h1 : c = '\\' → cs = [] → False)
      (h2 : ∀ d ds, c = '\\' → cs = d :: ds → False) : c ≠ '\\' := by
    cases cs with
    | nil => exact fun hc => h1 hc rfl
    | cons d ds => exact fun hc => h2 d ds hc rfl
  fun_induction regularBody whole quote front with
  | case1 => exact (Leaves.not_append mid (regularBody_leaves h)).elim
  | case2 | case3 | case5 => simp at h
  | case4 =>
    cases back with
    | nil => simp at h
    | cons c back =>
      simp only [List.cons_append, List.nil_append, regularBody] at h
      split at h
      · cases h
      · exact (Leaves.not_append mid (.cons (regularBody_leaves h).suffix)).elim
  | case6 c cs hc ih =>
    simp only [List.cons_append, regularBody, hc, if_false] at h ⊢
    exact ih h
  | case7 cs hn hr h1 h2 =>
    rw [List.cons_append, regularBody_cons hn hr (plain h1 h2), if_pos rfl] at h ⊢
    rw [List.append_cancel_right (Reading.closed.inj h)]
  | case8 c cs hn hr h1 h2 hc ih =>
    rw [List.cons_append, regularBody_cons hn hr (plain h1 h2), if_neg hc] at h ⊢
    exact ih h

theorem verbatimBody_quote (h : cs.head? ≠ some '"') :
    verbatimBody whole ('"' :: cs) = .closed cs := by
  rw [verbatimBody]
  rintro ds rfl
  exact h rfl

theorem verbatimBody_cons {c : Char} (h : c ≠ '"') :
    verbatimBody whole (c :: cs) = verbatimBody whole cs := by
  rw [verbatimBody] <;> simp_all

theorem verbatimBody_local (hb : EndsToken back')
    (h : verbatimBody whole (front ++ back) = .closed (mid ++ back)) :
    verbatimBody whole' (front ++ back') = .closed (mid ++ back') := by
  fun_induction verbatimBody whole front with
  | case1 => exact (Leaves.not_append mid (verbatimBody_leaves h)).elim
  | case2 cs ih => exact ih h
  | case3 cs hc =>
    by_cases hq : (cs ++ back).head? = some '"'
    · -- the second quote would be the first character of `back`
      obtain ⟨ds, hds⟩ := List.head?_eq_some_iff.1 hq
      cases cs with
      | nil =>
        obtain rfl : back = '"' :: ds := hds
        have := verbatimBody_leaves (show verbatimBody whole ds = _ from h)
        exact (Leaves.not_append mid (.cons this.suffix)).elim
      | cons c cs => exact (hc cs (by rw [(List.cons.inj hds).1])).elim
    · rw [List.cons_append, verbatimBody_quote hq] at h
      rw [← List.append_cancel_right (Reading.closed.inj h), List.cons_append, verbatimBody_quote]
      cases cs with
      | nil => exact hb.head?_ne (by simp)
      | cons c cs => exact hq
  | case4 c cs h1 h2 ih =>
    have hq : c ≠ '"' := by
      cases cs with
      | nil => exact h2
      | cons d ds => exact h2
    rw [List.cons_append, verbatimBody_cons hq] at h ⊢
    exact ih h

theorem rawBody_stop (hq : quotes ≤ run) (h : cs.head? ≠ some '"') :
    rawBody whole quotes run cs = .closed cs := by
  cases cs with
  | nil => rw [rawBody, if_pos hq]
  | cons c cs => rw [rawBody, if_neg (fun hc => h (by rw [hc]; rfl)), if_pos hq]

theorem rawBody_local (hb : EndsToken back')
    (h : rawBody whole quotes run (front ++ back) = .closed (mid ++ back)) :
    rawBody whole' quotes run (front ++ back') = .closed (mid ++ back') := by
  fun_induction rawBody whole quotes run front with
  | case1 run hq =>
    rw [List.nil_append, rawBody_stop hq (hb.head?_ne (by simp))]
    by_cases hc : back.head? = some '"'
    · obtain ⟨ds, rfl⟩ := List.head?_eq_some_iff.1 hc
      rw [List.nil_append, rawBody, if_pos rfl] at h
      exact (Leaves.not_append mid (.cons (rawBody_suffix h))).elim
    · rw [List.nil_append, rawBody_stop hq hc] at h
      rw [← List.append_cancel_right (Reading.closed.inj h : [] ++ back = mid ++ back)]
      rfl
  | case2 run hq =>
    cases back with
    | nil => simp [hq] at h
    | cons c cs =>
      have hs : mid ++ c :: cs <:+ cs := by
        rw [List.nil_append, rawBody] at h
        split at h
        · exact rawBody_suffix h
        · exact rawBody_suffix h
      exact (Leaves.not_append mid (.cons hs)).elim
  | case3 run cs ih =>
    rw [List.cons_append, rawBody, if_pos rfl] at h ⊢
    exact ih h
  | case4 run c cs hc hq =>
    rw [List.cons_append, rawBody, if_neg hc, if_pos hq] at h ⊢
    rw [← List.append_cancel_right (Reading.closed.inj h : (c :: cs) ++ back = mid ++ back)]
    rfl
  | case5 run c cs hc hq ih =>
    rw [List.cons_append, rawBody, if_neg hc, if_neg hq] at h ⊢
    exact ih h

end

/-! ## Holes -/

section
variable {nested nested' : List Char → Reading} {whole whole' cs rest : List Char}
  {c : Char} {fuel depth : Nat}

theorem hole_open : hole nested whole (fuel + 1) depth ('\x7b' :: cs) =
    hole nested whole fuel (depth + 1) cs := by
  cases depth <;> rfl

theorem hole_close : hole nested whole (fuel + 1) (depth + 1) ('\x7d' :: cs) =
    hole nested whole fuel depth cs := rfl

theorem hole_plain (h1 : c ≠ '\x7b') (h2 : c ≠ '\x7d') (hc : ¬ opensLiteral c = true) :
    hole nested whole (fuel + 1) depth (c :: cs) = hole nested whole fuel depth cs := by
  simp [hole, h1, h2, hc]

theorem hole_literal (hc : opensLiteral c = true) (hn : nested (c :: cs) = .closed rest) :
    hole nested whole (fuel + 1) depth (c :: cs) = hole nested whole fuel depth rest := by
  have h1 : c ≠ '\x7b' := by rintro rfl; cases hc
  have h2 : c ≠ '\x7d' := by rintro rfl; cases hc
  simp [hole, h1, h2, hc, hn]

theorem nested_closed_of_hole (hc : opensLiteral c = true)
    (h : hole nested whole (fuel + 1) depth (c :: cs) = .closed rest) :
    ∃ left, nested (c :: cs) = .closed left := by
  have h1 : c ≠ '\x7b' := by rintro rfl; cases hc
  have h2 : c ≠ '\x7d' := by rintro rfl; cases hc
  cases hn : nested (c :: cs) with
  | closed left => exact ⟨left, rfl⟩
  | broken => simp [hole, h1, h2, hc, hn] at h

theorem hole_leaves (hn : TakesLiterals nested cs)
    (h : hole nested whole fuel depth cs = .closed rest) : Leaves cs rest := by
  fun_induction hole nested whole fuel depth cs with
  | case1 | case2 => cases h
  | case3 fuel depth cs ih | case5 fuel cs depth _ ih | case8 fuel depth c cs _ _ _ ih =>
    exact .cons (ih (hn.mono (List.suffix_cons _ _)) h).suffix
  | case4 => exact Reading.closed.inj h ▸ .cons List.suffix_rfl
  | case6 fuel depth c cs _ _ _ left heq ih =>
    have hl := hn c cs List.suffix_rfl
    rw [heq] at hl
    exact .cons ((ih (hn.mono (List.IsSuffix.trans hl (List.suffix_cons _ _))) h).suffix.trans hl)
  | case7 fuel depth c cs _ _ _ hb => exact (hb rest h).elim

/-- Literals in `front` are read alike by both readers, whatever follows. -/
def NestedLocal (nested nested' : List Char → Reading) (front back back' : List Char) : Prop :=
  ∀ front' mid, front' <:+ front → nested (front' ++ back) = .closed (mid ++ back) →
    nested' (front' ++ back') = .closed (mid ++ back')

theorem NestedLocal.mono {front' : List Char} (h : NestedLocal nested nested' front back back')
    (hs : front' <:+ front) : NestedLocal nested nested' front' back back' :=
  fun ds mid hd => h ds mid (hd.trans hs)

theorem hole_local {fuel' : Nat} (hn : TakesLiterals nested (front ++ back))
    (hl : NestedLocal nested nested' front back back') (hf : front.length < fuel')
    (h : hole nested whole fuel depth (front ++ back) = .closed (mid ++ back)) :
    hole nested' whole' fuel' depth (front ++ back') = .closed (mid ++ back') := by
  induction fuel generalizing fuel' depth front with
  | zero => simp [hole] at h
  | succ fuel ih =>
    cases front with
    | nil => exact (Leaves.not_append mid (hole_leaves hn h)).elim
    | cons c front =>
      obtain ⟨fuel', rfl⟩ : ∃ n, fuel' = n + 1 := ⟨fuel' - 1, by omega⟩
      have hs := List.suffix_cons c front
      have hn' := hn.mono (List.suffix_cons c (front ++ back))
      have hf' : front.length < fuel' := by simpa using hf
      by_cases h1 : c = '\x7b'
      · subst h1
        rw [List.cons_append, hole_open] at h ⊢
        exact ih hn' (hl.mono hs) hf' h
      by_cases h2 : c = '\x7d'
      · subst h2
        cases depth with
        | zero => rw [List.append_cancel_right (Reading.closed.inj h : front ++ back = _)]; rfl
        | succ depth =>
          rw [List.cons_append, hole_close] at h ⊢
          exact ih hn' (hl.mono hs) hf' h
      by_cases hc : opensLiteral c = true
      · rw [List.cons_append] at h ⊢
        obtain ⟨left, hleft⟩ := nested_closed_of_hole hc h
        rw [hole_literal hc hleft] at h
        have hw := hn c (front ++ back) List.suffix_rfl
        rw [hleft] at hw
        obtain ⟨front', rfl, hfront⟩ :=
          exists_append_of_suffix hw (hole_leaves (hn'.mono hw) h).suffix
        have hlen := hfront.length_le
        have hleft' : nested' (c :: (front ++ back')) = .closed (front' ++ back') :=
          hl (c :: front) front' List.suffix_rfl hleft
        rw [hole_literal hc hleft']
        exact ih (hn'.mono hw) (hl.mono (hfront.trans hs)) (by omega) h
      · rw [List.cons_append, hole_plain h1 h2 hc] at h ⊢
        exact ih hn' (hl.mono hs) hf' h

/-! ## Interpolated strings -/

variable {verbatim : Bool}

theorem interpolatedBody_breaks (h : (!verbatim && (c == '\n' || c == '\r')) = true) :
    interpolatedBody nested whole verbatim (fuel + 1) (c :: cs) =
      .broken .unterminatedString whole (c :: cs) := by
  unfold interpolatedBody
  rw [if_pos h]

theorem interpolatedBody_escape :
    interpolatedBody nested whole false (fuel + 1) ('\\' :: cs) =
      interpolatedBody nested whole false fuel (afterEscape cs) := by
  simp

theorem interpolatedBody_doubled :
    interpolatedBody nested whole true (fuel + 1) ('"' :: '"' :: cs) =
      interpolatedBody nested whole true fuel cs := rfl

theorem interpolatedBody_close (h : verbatim = true → cs.head? ≠ some '"') :
    interpolatedBody nested whole verbatim (fuel + 1) ('"' :: cs) = .closed cs := by
  cases verbatim with
  | false => simp
  | true =>
    cases cs with
    | nil => rfl
    | cons d ds =>
      have : d ≠ '"' := by simpa using h
      simp [this]

theorem interpolatedBody_brace :
    interpolatedBody nested whole verbatim (fuel + 1) ('\x7b' :: '\x7b' :: cs) =
      interpolatedBody nested whole verbatim fuel cs := by
  simp

theorem interpolatedBody_hole (h : cs.head? ≠ some '\x7b')
    (hh : hole nested whole (cs.length + 1) 0 cs = .closed rest) :
    interpolatedBody nested whole verbatim (fuel + 1) ('\x7b' :: cs) =
      interpolatedBody nested whole verbatim fuel rest := by
  cases cs with
  | nil => simp [hole] at hh
  | cons d ds =>
    have : d ≠ '\x7b' := by simpa using h
    rw [List.length_cons] at hh
    simp [this, hh]

theorem hole_closed_of_interpolatedBody (h : cs.head? ≠ some '\x7b')
    (hi : interpolatedBody nested whole verbatim (fuel + 1) ('\x7b' :: cs) = .closed rest) :
    ∃ left, hole nested whole (cs.length + 1) 0 cs = .closed left := by
  cases cs with
  | nil => simp [hole] at hi
  | cons d ds =>
    have : d ≠ '\x7b' := by simpa using h
    cases hh : hole nested whole ((d :: ds).length + 1) 0 (d :: ds) with
    | closed left => exact ⟨left, rfl⟩
    | broken =>
      rw [List.length_cons] at hh
      simp [this, hh] at hi

theorem interpolatedBody_plain (hn : ¬ (!verbatim && (c == '\n' || c == '\r')) = true)
    (he : ¬ (!verbatim && c == '\\') = true) (hq : c ≠ '"') (hb : c ≠ '\x7b') :
    interpolatedBody nested whole verbatim (fuel + 1) (c :: cs) =
      interpolatedBody nested whole verbatim fuel cs := by
  conv_lhs => unfold interpolatedBody
  rw [if_neg hn, if_neg he, if_neg hq, if_neg hb]

theorem interpolatedBody_leaves (hn : TakesLiterals nested cs)
    (h : interpolatedBody nested whole verbatim fuel cs = .closed rest) : Leaves cs rest := by
  fun_induction interpolatedBody nested whole verbatim fuel cs with
  | case1 | case2 | case3 => cases h
  | case4 fuel c cs _ _ ih =>
    have hs := afterEscape_suffix cs
    exact .cons ((ih (hn.mono (hs.trans (List.suffix_cons c cs))) h).suffix.trans hs)
  | case5 fuel rest hv _ _ ih =>
    subst hv
    exact .cons ((ih (hn.mono suffix_cons_cons) h).suffix.trans (List.suffix_cons _ _))
  | case7 fuel rest _ _ _ ih =>
    exact .cons ((ih (hn.mono suffix_cons_cons) h).suffix.trans (List.suffix_cons _ _))
  | case6 => exact Reading.closed.inj h ▸ .cons List.suffix_rfl
  | case8 fuel cs left heq _ _ _ _ ih =>
    have hs := hn.mono (List.suffix_cons '\x7b' cs)
    have hl := (hole_leaves hs heq).suffix
    simp only [heq] at h
    exact .cons ((ih (hs.mono hl) h).suffix.trans hl)
  | case9 fuel cs _ _ _ _ hb => 
    split at h
    · exact absurd ‹_› (hb _)
    · exact absurd h (hb _)
  | case10 fuel c cs _ _ _ _ ih => exact .cons (ih (hn.mono (List.suffix_cons _ _)) h).suffix

theorem afterEscape_append (c : Char) (cs ds : List Char) :
    afterEscape (c :: cs ++ ds) = afterEscape (c :: cs) ++ ds := by
  unfold afterEscape
  simp only [List.cons_append]
  split <;> rfl

theorem interpolatedBody_local {fuel' : Nat} (hb : EndsToken back')
    (hn : TakesLiterals nested (front ++ back))
    (hl : NestedLocal nested nested' front back back') (hf : front.length < fuel')
    (h : interpolatedBody nested whole verbatim fuel (front ++ back) = .closed (mid ++ back)) :
    interpolatedBody nested' whole' verbatim fuel' (front ++ back') = .closed (mid ++ back') := by
  induction fuel generalizing fuel' front with
  | zero => simp at h
  | succ fuel ih =>
    cases front with
    | nil => exact (Leaves.not_append mid (interpolatedBody_leaves hn h)).elim
    | cons c front =>
      obtain ⟨fuel', rfl⟩ : ∃ n, fuel' = n + 1 := ⟨fuel' - 1, by omega⟩
      -- what is left of `front` when the reading goes on behind some of it
      have go {front' : List Char} (hs : front' <:+ front)
          (h : interpolatedBody nested whole verbatim fuel (front' ++ back) = .closed (mid ++ back)) :
          interpolatedBody nested' whole' verbatim fuel' (front' ++ back') =
            .closed (mid ++ back') := by
        have hlen := hs.length_le
        have hs' := hs.trans (List.suffix_cons c front)
        refine ih (hn.mono ?_) (hl.mono hs') (by simp only [List.length_cons] at hf; omega) h
        obtain ⟨pre, rfl⟩ := hs
        exact ⟨c :: pre, by simp⟩
      have hn' := hn.mono (List.suffix_cons c (front ++ back))
      rw [List.cons_append] at h ⊢
      by_cases h1 : (!verbatim && (c == '\n' || c == '\r')) = true
      · rw [interpolatedBody_breaks h1] at h
        cases h
      by_cases h2 : (!verbatim && c == '\\') = true
      · obtain ⟨rfl, rfl⟩ : verbatim = false ∧ c = '\\' := by simpa using h2
        rw [interpolatedBody_escape] at h ⊢
        cases front with
        | nil =>
          have hs := afterEscape_suffix ([] ++ back)
          have := interpolatedBody_leaves (hn'.mono hs) h
          exact (Leaves.not_append mid (this.of_suffix hs)).elim
        | cons d front =>
          rw [afterEscape_append] at h ⊢
          exact go (afterEscape_suffix _) h
      by_cases h3 : c = '"'
      · subst h3
        by_cases hq : verbatim = true ∧ (front ++ back).head? = some '"'
        · obtain ⟨rfl, hq⟩ := hq
          cases front with
          | nil =>
            -- the second quote would be the first character of `back`
            obtain ⟨ds, hds⟩ := List.head?_eq_some_iff.1 hq
            rw [hds, interpolatedBody_doubled] at h
            rw [hds] at hn'
            have := interpolatedBody_leaves (hn'.mono (List.suffix_cons _ ds)) h
            rw [List.nil_append] at hds
            subst hds
            exact (Leaves.not_append mid (.cons this.suffix)).elim
          | cons d front =>
            obtain rfl : d = '"' := by simpa using hq
            rw [List.cons_append, interpolatedBody_doubled] at h ⊢
            exact go (List.suffix_cons _ _) h
        · rw [interpolatedBody_close fun hv hh => hq ⟨hv, hh⟩] at h
          rw [List.append_cancel_right (Reading.closed.inj h : front ++ back = _)] at hq ⊢
          refine interpolatedBody_close fun hv hh => ?_
          cases mid with
          | nil => exact hb.head?_ne (by simp) hh
          | cons d mid => exact hq ⟨hv, hh⟩
      by_cases h4 : c = '\x7b'
      · subst h4
        by_cases hd : (front ++ back).head? = some '\x7b'
        · cases front with
          | nil =>
            obtain ⟨ds, hds⟩ := List.head?_eq_some_iff.1 hd
            rw [hds, interpolatedBody_brace] at h
            rw [hds] at hn'
            have := interpolatedBody_leaves (hn'.mono (List.suffix_cons _ ds)) h
            rw [List.nil_append] at hds
            subst hds
            exact (Leaves.not_append mid (.cons this.suffix)).elim
          | cons d front =>
            obtain rfl : d = '\x7b' := by simpa using hd
            rw [List.cons_append, interpolatedBody_brace] at h ⊢
            exact go (List.suffix_cons _ _) h
        · obtain ⟨left, hleft⟩ := hole_closed_of_interpolatedBody hd h
          rw [interpolatedBody_hole hd hleft] at h
          have hlv := hole_leaves hn' hleft
          obtain ⟨front', rfl, hfront⟩ := exists_append_of_suffix hlv.suffix
            (interpolatedBody_leaves (hn'.mono hlv.suffix) h).suffix
          have hd' : (front ++ back').head? ≠ some '\x7b' := by
            cases front with
            | nil =>
              rw [List.suffix_nil.1 hfront] at hlv
              exact (Leaves.not_append [] hlv).elim
            | cons d front => exact hd
          have hl' := hl.mono (List.suffix_cons '\x7b' front)
          have hleft' : hole nested' whole' ((front ++ back').length + 1) 0 (front ++ back') =
              .closed (front' ++ back') :=
            hole_local hn' hl' (by rw [List.length_append]; omega) hleft
          rw [interpolatedBody_hole hd' hleft']
          exact go hfront h
      · rw [interpolatedBody_plain h1 h2 h3 h4] at h ⊢
        exact go List.suffix_rfl h

end

/-! ## Literals -/

section
variable {nested nested' : List Char → Reading}

theorem drop_takeWhile_length (p : Char → Bool) (cs : List Char) :
    cs.drop (cs.takeWhile p).length = cs.dropWhile p := by
  induction cs with
  | nil => rfl
  | cons c cs ih => by_cases hc : p c = true <;> simp [hc, ih]

theorem takeWhile_length_le {p : Char → Bool} (hb : ∀ c, back'.head? = some c → ¬ p c = true) :
    ((front ++ back').takeWhile p).length ≤ ((front ++ back).takeWhile p).length := by
  induction front with
  | nil =>
    cases back' with
    | nil => simp
    | cons c cs =>
      have := hb c rfl
      simp [this]
  | cons c front ih => by_cases hc : p c = true <;> simp [hc, ih]

theorem quotedString_local {c : Char} (hb : EndsToken back')
    (h : quotedString (c :: front ++ back) = .closed (mid ++ back)) :
    quotedString (c :: front ++ back') = .closed (mid ++ back') := by
  have hq : ∀ d, back'.head? = some d → ¬ (d == '"') = true := by
    intro d hd hq
    exact hb.head?_ne (by simp) ((beq_iff_eq.1 hq) ▸ hd)
  unfold quotedString at h ⊢
  dsimp only at h ⊢
  rw [drop_takeWhile_length] at h ⊢
  split at h
  · -- a raw string: what follows its opening quotes reaches into `front`
    obtain ⟨front', hf, -⟩ := exists_append_of_suffix (List.dropWhile_suffix _) (rawBody_suffix h)
    obtain ⟨hd, ht⟩ := dropWhile_local hq hf
    rw [ht, if_pos ‹_›, hd]
    rw [hf] at h
    exact rawBody_local hb h
  · rename_i hlt
    have := @takeWhile_length_le (c :: front) back _ _ hq
    rw [if_neg (by omega)]
    exact regularBody_local h

theorem atLiteral_leaves {cs rest : List Char} (hn : TakesLiterals nested cs)
    (h : atLiteral nested ('@' :: cs) = .closed rest) : Leaves cs rest := by
  unfold atLiteral at h
  rw [List.drop_one, List.tail_cons] at h
  split at h
  · exact .cons (verbatimBody_leaves h).suffix
  · rename_i ds
    exact .cons ((interpolatedBody_leaves (hn.mono suffix_cons_cons) h).suffix.trans
      (List.suffix_cons _ _))
  · split at h
    · rename_i c ds _ _ hc
      rw [List.dropWhile_cons_of_pos (isIdentContinue_of_isIdentStart hc)] at h
      exact Reading.closed.inj h ▸ .cons (List.dropWhile_suffix _)
    · cases h
  · cases h

theorem atLiteral_ident {c : Char} {cs : List Char} (hc : isIdentStart c = true) :
    atLiteral nested ('@' :: c :: cs) = .closed ((c :: cs).dropWhile isIdentContinue) := by
  unfold atLiteral
  rw [List.drop_one, List.tail_cons]
  split
  · rename_i heq
    cases heq
    exact absurd hc (by decide)
  · rename_i heq
    cases heq
    exact absurd hc (by decide)
  · rename_i heq
    cases heq
    rw [if_pos hc]
  · rename_i heq
    cases heq

theorem atLiteral_interpolated {cs : List Char} : atLiteral nested ('@' :: '$' :: '"' :: cs) =
    interpolatedBody nested ('@' :: '$' :: '"' :: cs) true (cs.length + 1) cs := rfl

theorem isIdentStart_of_atLiteral {c : Char} {cs rest : List Char} (hq : c ≠ '"')
    (hi : ¬ (c = '$' ∧ cs.head? = some '"'))
    (h : atLiteral nested ('@' :: c :: cs) = .closed rest) : isIdentStart c = true := by
  unfold atLiteral at h
  rw [List.drop_one, List.tail_cons] at h
  split at h
  · rename_i heq
    exact absurd (List.cons.inj heq).1 hq
  · rename_i heq
    cases heq
    exact absurd ⟨rfl, rfl⟩ hi
  · rename_i heq
    cases heq
    split at h
    · assumption
    · cases h
  · cases h

theorem atLiteral_local (hb : EndsToken back') (hn : TakesLiterals nested (front ++ back))
    (hl : NestedLocal nested nested' front back back')
    (h : atLiteral nested ('@' :: (front ++ back)) = .closed (mid ++ back)) :
    atLiteral nested' ('@' :: (front ++ back')) = .closed (mid ++ back') := by
  cases front with
  | nil => exact (Leaves.not_append mid (atLiteral_leaves hn h)).elim
  | cons c front =>
    rw [List.cons_append] at h ⊢
    by_cases hq : c = '"'
    · subst hq
      exact verbatimBody_local hb (show verbatimBody _ (front ++ back) = _ from h)
    by_cases hi : c = '$' ∧ (front ++ back).head? = some '"'
    · obtain ⟨rfl, hi⟩ := hi
      cases front with
      | nil =>
        obtain ⟨ds, rfl⟩ := List.head?_eq_some_iff.1 hi
        rw [List.nil_append, atLiteral_interpolated] at h
        have := interpolatedBody_leaves (hn.mono suffix_cons_cons) h
        exact (Leaves.not_append mid (.cons this.suffix)).elim
      | cons d front =>
        obtain rfl : d = '"' := by simpa using hi
        rw [List.cons_append, atLiteral_interpolated] at h ⊢
        exact interpolatedBody_local hb (hn.mono suffix_cons_cons) (hl.mono suffix_cons_cons)
          (by rw [List.length_append]; omega) h
    · have hc := isIdentStart_of_atLiteral hq hi h
      rw [atLiteral_ident hc, ← List.cons_append] at h ⊢
      rw [(dropWhile_local hb.not_continue (Reading.closed.inj h)).1]

theorem exists_append_of_append {cs : List Char} (pre : List Char) (h : front ++ back = pre ++ cs)
    (hl : mid ++ back <:+ cs) : ∃ front', front = pre ++ front' ∧ cs = front' ++ back := by
  obtain ⟨skipped, rfl⟩ := hl
  refine ⟨skipped ++ mid, ?_, by rw [List.append_assoc]⟩
  exact List.append_cancel_right (h.trans (by simp only [List.append_assoc]))

/-- Does an interpolated string that is not raw go on so behind its quote? -/
def IsOneQuote (cs : List Char) : Prop :=
  ∀ ds, cs ≠ '"' :: '"' :: ds

theorem dollarLiteral_raw {whole cs : List Char}
    (h : whole.dropWhile (· == '$') = '"' :: '"' :: '"' :: cs) :
    dollarLiteral nested whole =
      rawBody whole (3 + (cs.takeWhile (· == '"')).length) 0 (cs.dropWhile (· == '"')) := by
  unfold dollarLiteral
  simp only [h]

theorem dollarLiteral_regular {whole cs : List Char} (h : whole.dropWhile (· == '$') = '"' :: cs)
    (hq : IsOneQuote cs) :
    dollarLiteral nested whole = interpolatedBody nested whole false (cs.length + 1) cs := by
  unfold dollarLiteral
  rw [h]
  split
  · rename_i heq
    exact absurd (List.cons.inj heq).2 (hq _)
  · rename_i heq
    cases heq
    rfl
  · rename_i heq
    cases heq
  · rename_i heq _
    exact absurd rfl (heq cs)

theorem dollarLiteral_verbatim {whole cs : List Char}
    (h : whole.dropWhile (· == '$') = '@' :: '"' :: cs) :
    dollarLiteral nested whole = interpolatedBody nested whole true (cs.length + 1) cs := by
  unfold dollarLiteral
  simp only [h]

/-- The three forms of a literal that begins with `$`. -/
theorem dollarLiteral_closed {whole rest : List Char}
    (h : dollarLiteral nested whole = .closed rest) :
    (∃ cs, whole.dropWhile (· == '$') = '"' :: '"' :: '"' :: cs) ∨
      (∃ cs, whole.dropWhile (· == '$') = '"' :: cs ∧ IsOneQuote cs) ∨
        ∃ cs, whole.dropWhile (· == '$') = '@' :: '"' :: cs := by
  unfold dollarLiteral at h
  split at h
  · rename_i heq
    exact .inl ⟨_, heq⟩
  · rename_i hq heq
    exact .inr (.inl ⟨_, heq, fun ds hds => hq ds hds⟩)
  · rename_i heq
    exact .inr (.inr ⟨_, heq⟩)
  · cases h

theorem dollarLiteral_local (hb : EndsToken back') (hn : TakesLiterals nested (front ++ back))
    (hl : NestedLocal nested nested' front back back')
    (h : dollarLiteral nested ('$' :: (front ++ back)) = .closed (mid ++ back)) :
    dollarLiteral nested' ('$' :: (front ++ back')) = .closed (mid ++ back') := by
  have hd (cs : List Char) : ('$' :: cs).dropWhile (· == '$') = cs.dropWhile (· == '$') :=
    List.dropWhile_cons_of_pos (by decide)
  have hb' {c d : Char} (hc : c ∈ ['"', '$']) (hd : back'.head? = some d) : ¬ (d == c) = true :=
    fun he => hb.head?_ne (by simp at hc ⊢; tauto) ((beq_iff_eq.1 he) ▸ hd)
  -- what stands behind the opening of the literal ends inside `front`
  have opening (pre : List Char) {cs : List Char}
      (hD : ('$' :: (front ++ back)).dropWhile (· == '$') = pre ++ cs) (hr : mid ++ back <:+ cs) :
      ∃ front', cs = front' ++ back ∧ front' <:+ front ∧ front' ++ back <:+ front ++ back ∧
        ('$' :: (front ++ back')).dropWhile (· == '$') = pre ++ (front' ++ back') := by
    rw [hd] at hD ⊢
    have hs : pre ++ cs <:+ front ++ back := hD ▸ List.dropWhile_suffix _
    obtain ⟨front₁, hf, hs₁⟩ := exists_append_of_suffix hs (hr.trans (List.suffix_append pre cs))
    obtain ⟨front', rfl, rfl⟩ := exists_append_of_append _ hf.symm hr
    refine ⟨front', rfl, (List.suffix_append _ _).trans hs₁, (List.suffix_append _ _).trans hs, ?_⟩
    rw [(dropWhile_local (fun c => hb' (by simp)) (hD.trans hf)).1, List.append_assoc]
  have suffix {cs : List Char} (pre : List Char)
      (hD : ('$' :: (front ++ back)).dropWhile (· == '$') = pre ++ cs) : cs <:+ front ++ back := by
    rw [hd] at hD
    exact (List.suffix_append _ _).trans (hD ▸ List.dropWhile_suffix _)
  rcases dollarLiteral_closed h with ⟨cs, hcs⟩ | ⟨cs, hcs, hq⟩ | ⟨cs, hcs⟩
  · rw [dollarLiteral_raw hcs] at h
    obtain ⟨front', rfl, -, -, hD⟩ :=
      opening ['"', '"', '"'] hcs ((rawBody_suffix h).trans (List.dropWhile_suffix _))
    obtain ⟨front₁, hf, -⟩ := exists_append_of_suffix (List.dropWhile_suffix _) (rawBody_suffix h)
    obtain ⟨hw, ht⟩ := dropWhile_local (fun c => hb' (by simp)) hf
    have hD : ('$' :: (front ++ back')).dropWhile (· == '$') = '"' :: '"' :: '"' :: (front' ++ back') :=
      hD
    rw [dollarLiteral_raw hD, ht, hw]
    rw [hf] at h
    exact rawBody_local hb h
  · rw [dollarLiteral_regular hcs hq] at h
    have hlv := interpolatedBody_leaves (hn.mono (suffix ['"'] hcs)) h
    obtain ⟨front', rfl, hs, hs', hD⟩ := opening ['"'] hcs hlv.suffix
    have hD : ('$' :: (front ++ back')).dropWhile (· == '$') = '"' :: (front' ++ back') := hD
    have hq' : IsOneQuote (front' ++ back') := by
      intro ds hds
      cases front' with
      | nil => exact Leaves.not_append mid hlv
      | cons c front' =>
        cases front' with
        | nil =>
          have hback : back' = '"' :: ds := (List.cons.inj hds).2
          exact hb.head?_ne (d := '"') (by simp) (by rw [hback]; rfl)
        | cons d front' =>
          obtain ⟨rfl, rfl⟩ : c = '"' ∧ d = '"' := by
            simp only [List.cons_append, List.cons.injEq] at hds
            exact ⟨hds.1, hds.2.1⟩
          exact hq _ rfl
    rw [dollarLiteral_regular hD hq']
    exact interpolatedBody_local hb (hn.mono hs') (hl.mono hs) (by rw [List.length_append]; omega) h
  · rw [dollarLiteral_verbatim hcs] at h
    have hlv := interpolatedBody_leaves (hn.mono (suffix ['@', '"'] hcs)) h
    obtain ⟨front', rfl, hs, hs', hD⟩ := opening ['@', '"'] hcs hlv.suffix
    have hD : ('$' :: (front ++ back')).dropWhile (· == '$') = '@' :: '"' :: (front' ++ back') := hD
    rw [dollarLiteral_verbatim hD]
    exact interpolatedBody_local hb (hn.mono hs') (hl.mono hs) (by rw [List.length_append]; omega) h

end

theorem literal_leaves {depth : Nat} {cs rest : List Char} (hd : cs.length ≤ depth)
    (h : literal depth cs = .closed rest) : Leaves cs rest := by
  cases cs with
  | nil =>
    cases depth with
    | zero => cases h
    | succ depth => simp [literal, quotedString] at h
  | cons c cs =>
    have := literal_within depth c cs hd
    rw [h] at this
    exact .cons this

/-- **How a literal is read does not depend on what follows it**, nor on the bound on
    the nesting depth. -/
theorem literal_local {depth depth' : Nat} {c : Char} (hb : EndsToken back')
    (hd : (front ++ back).length < depth) (hd' : front.length < depth')
    (h : literal depth (c :: (front ++ back)) = .closed (mid ++ back)) :
    literal depth' (c :: (front ++ back')) = .closed (mid ++ back') := by
  induction depth generalizing c front mid depth' with
  | zero => omega
  | succ depth ih =>
    obtain ⟨depth', rfl⟩ : ∃ n, depth' = n + 1 := ⟨depth' - 1, by omega⟩
    have hn : TakesLiterals (literal depth) (front ++ back) := fun d ds hs =>
      literal_within depth d ds (by have := hs.length_le; simp only [List.length_cons] at this; omega)
    have hl : NestedLocal (literal depth) (literal depth') front back back' := by
      intro front' mid hs h
      have hlen := hs.length_le
      rw [List.length_append] at hd
      cases front' with
      | nil => exact (Leaves.not_append mid (literal_leaves (by simp; omega) h)).elim
      | cons d front' =>
        rw [List.length_cons] at hlen
        exact ih (by rw [List.length_append]; omega) (by omega) h
    unfold literal at h ⊢
    split at h
    · rename_i heq
      cases heq
      exact regularBody_local h
    · rename_i heq
      cases heq
      exact atLiteral_local hb hn hl h
    · rename_i heq
      cases heq
      exact dollarLiteral_local hb hn hl h
    · rename_i h1 h2 h3
      split
      · rename_i heq
        cases heq
        exact absurd rfl (h1 _)
      · rename_i heq
        cases heq
        exact absurd rfl (h2 _)
      · rename_i heq
        cases heq
        exact absurd rfl (h3 _)
      · exact quotedString_local hb h

end

end CommandModules

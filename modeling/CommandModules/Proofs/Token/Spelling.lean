/-
  Command modules — texts that spell tokens.

  * `Reads cs ts rest`: reading goes from the text `cs` through the tokens `ts`,
    without an error, to where `rest` is left; the tokens carry no places;
  * `Spells cs ts`: the text `cs` begins and ends with a token, and wherever it
    stands, it is read as `ts` if what follows stops tokens;
  * `Reads.trivia`: trivia before tokens plays no part;
  * `Cursor.tokens_reads` and `tokenize_of_reads`: a text is read as its
    tokens, and tokens that a text is read as are its tokens;
  * `spells_between`: a stretch of a text spells the tokens in it;
  * `spells_tokensOf`: a text that is read without errors from a first to a last token
    spells its tokens.
-/
import CommandModules.Proofs.Alike.Erase
import CommandModules.Proofs.Token.Local

namespace CommandModules

open Text

/-! ## Reading through tokens -/

/-- Reading goes through `ts`, without an error, from `cs` to where `rest` is
    left. -/
inductive Reads : List Char → List Token → List Char → Prop
  | nil (cs) : Reads cs [] cs
  | token {cs c ds lexeme rest last kind ts} : skipGap cs = ⟨c :: ds, none⟩ →
      scan c ds = (kind, .closed rest) → c :: ds = lexeme ++ rest → Reads rest ts last →
      Reads cs (⟨kind, String.ofList lexeme, default⟩ :: ts) last

namespace Reads

variable {cs ds es front mid back back' : List Char} {ts us : List Token}

theorem trans (h : Reads cs ts ds) (h' : Reads ds us es) : Reads cs (ts ++ us) es := by
  induction h with
  | nil => exact h'
  | token hg hs hl _ ih => exact .token hg hs hl (ih h')

theorem eq_of_nil (h : Reads cs [] ds) : ds = cs := by
  cases h
  rfl

theorem suffix (h : Reads cs ts ds) : ds <:+ cs := by
  induction h with
  | nil => exact List.suffix_rfl
  | @token cs c ds lexeme rest last kind ts hg hs hl _ ih =>
    obtain ⟨gap, hgap, -⟩ := skipGap_covers cs
    rw [hg] at hgap
    have hr : rest <:+ c :: ds := ⟨lexeme, hl.symm⟩
    exact ih.trans (hr.trans ⟨gap, hgap.symm⟩)

end Reads

theorem skipGap_suffix (cs : List Char) : (skipGap cs).rest <:+ cs := by
  obtain ⟨gap, hgap, -⟩ := skipGap_covers cs
  exact ⟨gap, hgap.symm⟩

/-- A token takes a character at least. -/
theorem Reads.length_lt {cs rest : List Char} {ts : List Token} (h : Reads cs ts rest)
    (hne : ts ≠ []) : rest.length < cs.length := by
  cases h with
  | nil => exact absurd rfl hne
  | @token _ c ds lexeme rest _ _ _ hg hs _ h =>
    have hgap := (skipGap_suffix cs).length_le
    have hw := (scan_within c ds).rest.length_le
    have := h.suffix.length_le
    rw [hg] at hgap
    rw [hs] at hw
    simp only [List.length_cons, Reading.rest] at hgap hw
    omega

section
variable {front mid back back' : List Char} {ts us : List Token}

theorem skipGap_cons {c : Char} (h : c ≠ '\uFEFF') (cs : List Char) :
    skipGap (c :: cs) = gapEnd .between (c :: cs) := by
  rw [skipGap]
  rintro ds ⟨⟩
  exact h rfl

/-- Trivia is skipped whole, unless a byte order mark is taken for what comes before it. -/
theorem skipGap_trivia {gap rest : List Char} (h : Trivia False gap)
    (hr : rest.head? ≠ some '\uFEFF') : skipGap (gap ++ rest) = gapEnd .between rest := by
  rw [← gapEnd_trivia h rest]
  cases hg : gap ++ rest with
  | nil => rfl
  | cons c cs =>
    refine skipGap_cons ?_ cs
    rintro rfl
    cases gap with
    | nil => exact hr (by rw [show rest = _ from hg]; rfl)
    | cons d gap =>
      obtain rfl : d = '\uFEFF' := (List.cons.inj hg).1
      rcases h.head with hb | hb | hb <;> exact absurd hb (by decide)

/-- Nothing is left of trivia. -/
theorem skipGap_only_trivia {gap : List Char} (h : Trivia False gap) : skipGap gap = ⟨[], none⟩ := by
  have := @skipGap_trivia gap [] h nofun
  rwa [List.append_nil] at this

theorem skipGap_local (hb : Stops back') (hm : mid ≠ [])
    (h : skipGap (front ++ back) = ⟨mid ++ back, none⟩) :
    skipGap (front ++ back') = ⟨mid ++ back', none⟩ := by
  cases front with
  | nil =>
    have := skipGap_suffix ([] ++ back)
    rw [h] at this
    exact absurd (eq_nil_of_suffix this) hm
  | cons c front =>
    by_cases hc : c = '\uFEFF'
    · subst hc
      exact gapEnd_local hb hm h
    · rw [List.cons_append, skipGap_cons hc] at h ⊢
      exact gapEnd_local hb hm (show gapEnd .between ((c :: front) ++ back) = _ from h)

/-- **What a text is read as does not depend on what follows it.** -/
theorem Reads.local (hb : Stops back') (h : Reads (front ++ back) ts back) :
    Reads (front ++ back') ts back' := by
  generalize hcs : front ++ back = cs at h
  generalize hlast : back = last at h
  induction h generalizing front with
  | nil cs =>
    obtain rfl : front = [] := by
      have := congrArg List.length (hcs.trans hlast.symm)
      rw [List.length_append] at this
      exact List.eq_nil_of_length_eq_zero (by omega)
    exact .nil _
  | @token cs c ds lexeme rest last kind ts hg hs hl h ih =>
    subst hlast hcs
    have hrest : rest <:+ ds := by
      have := scan_within c ds
      rw [hs] at this
      exact this
    have hc : c :: ds <:+ front ++ back := by
      have := skipGap_suffix (front ++ back)
      rwa [hg] at this
    have hback : [] ++ back <:+ rest := h.suffix
    obtain ⟨front₁, hf₁, -⟩ :=
      exists_append_of_suffix hc (hback.trans (hrest.trans (List.suffix_cons c ds)))
    cases front₁ with
    | nil =>
      have hl := (hback.trans hrest).length_le
      have := congrArg List.length hf₁
      simp only [List.nil_append, List.length_cons] at this hl
      omega
    | cons d front₁ =>
      obtain ⟨rfl, rfl⟩ := List.cons.inj hf₁
      obtain ⟨front₂, rfl, -⟩ := exists_append_of_suffix hrest hback
      have hl' : (c :: front₁) ++ back = (lexeme ++ front₂) ++ back :=
        hl.trans (List.append_assoc ..).symm
      refine .token (skipGap_local hb (List.cons_ne_nil c front₁) hg) (scan_local hb.ends hs) ?_
        (ih rfl rfl)
      exact (congrArg (· ++ back') (List.append_cancel_right hl')).trans (List.append_assoc ..)

/-! ## Spelling -/

/-- Does the text begin with a token? -/
def BeginsToken (cs : List Char) : Prop :=
  cs ≠ [] ∧ skipGap cs = ⟨cs, none⟩

/-- The text spells the tokens, without gaps at its ends, wherever it stands before
    something that stops tokens. -/
structure Spells (cs : List Char) (ts : List Token) : Prop where
  begins : ∀ back, Stops back → BeginsToken (cs ++ back)
  reads : ∀ back, Stops back → Reads (cs ++ back) ts back

/-- What is read as tokens somewhere spells them. -/
theorem spells_of_reads (h : Reads (front ++ back) ts back) (hf : front ≠ [])
    (hb : skipGap (front ++ back) = ⟨front ++ back, none⟩) : Spells front ts where
  begins _ hs := ⟨by simp [hf], skipGap_local hs hf hb⟩
  reads _ hs := h.local hs

/-- A byte order mark would have been skipped. -/
theorem BeginsToken.ne_mark {c : Char} {cs : List Char} (h : BeginsToken (c :: cs)) :
    c ≠ '\uFEFF' := by
  rintro rfl
  exact gapEnd_ne (by simp) h.2

theorem BeginsToken.gapEnd_eq {cs : List Char} (h : BeginsToken cs) :
    gapEnd .between cs = ⟨cs, none⟩ := by
  obtain ⟨c, ds, rfl⟩ := List.exists_cons_of_ne_nil h.1
  rw [← skipGap_cons h.ne_mark]
  exact h.2

/-- Trivia before a token is skipped. -/
theorem BeginsToken.behind_trivia {gap cs : List Char} (h : BeginsToken cs) (hg : Trivia False gap) :
    skipGap (gap ++ cs) = ⟨cs, none⟩ := by
  obtain ⟨c, ds, rfl⟩ := List.exists_cons_of_ne_nil h.1
  have hmark : (c :: ds).head? ≠ some '\uFEFF' := fun hm => h.ne_mark (Option.some_inj.1 hm)
  rw [skipGap_trivia hg hmark, h.gapEnd_eq]

theorem Reads.trivia {gap cs rest : List Char} (hg : Trivia False gap) (h : BeginsToken cs)
    (hr : Reads cs ts rest) (hne : ts ≠ []) : Reads (gap ++ cs) ts rest := by
  cases hr with
  | nil => exact absurd rfl hne
  | token hskip hs hl ht =>
    rw [h.2] at hskip
    exact .token (by rw [h.behind_trivia hg, hskip]) hs hl ht

end

/-! ## The tokens of a text -/

theorem gapEnd_openComment_none (mode : GapMode) {cs : List Char} (h : (gapEnd mode cs).rest ≠ []) :
    (gapEnd mode cs).openComment? = none := by
  fun_induction gapEnd mode cs <;> simp_all

theorem skipGap_openComment_none {cs : List Char} (h : (skipGap cs).rest ≠ []) :
    (skipGap cs).openComment? = none := by
  unfold skipGap at h ⊢
  split at h <;> exact gapEnd_openComment_none _ h

namespace Cursor

variable {pre text : List Char}

/-- The next token is the `eof`, or it is cut from the text behind a gap; unless it is no
    token, it is read there. -/
theorem next_reads (h : (behind pre text).next.token.kind ≠ .eof) : ∃ gap lexeme rest,
    text = gap ++ (lexeme ++ rest) ∧ lexeme ≠ [] ∧
      (behind pre text).next.token.span = .covering (pre ++ gap) lexeme ∧
      (behind pre text).next.cursor = behind (pre ++ gap ++ lexeme) rest ∧
      ((behind pre text).next.token.kind ≠ .error → skipGap text = ⟨lexeme ++ rest, none⟩ ∧
        Reads text [erase (behind pre text).next.token] rest) := by
  obtain ⟨gap, hg, -⟩ := skipGap_covers text
  have hrest : (behind pre text).rest = text := rfl
  unfold next at h ⊢
  rw [hrest] at h ⊢
  cases hr : (skipGap text).rest with
  | nil => exact absurd (by simp only [hr]; rfl) h
  | cons c ds =>
    have ho : (skipGap text).openComment? = none := skipGap_openComment_none (by simp [hr])
    have hskip : skipGap text = ⟨c :: ds, none⟩ := by rw [← hr, ← ho]
    have hw := (scan_within c ds).rest
    rw [hr] at hg
    simp only [hr] at h ⊢
    rcases hs : scan c ds with ⟨kind, rest | ⟨cause, start, rest⟩⟩ <;> rw [hs] at hw <;>
      obtain ⟨front, rfl⟩ : rest <:+ ds := hw <;> refine ⟨gap, c :: front, rest, hg, by simp, ?_⟩ <;>
      simp only <;> rw [hg, behind_skipTo, ← List.cons_append, behind_tokenTo, behind_skipTo] <;>
      refine ⟨rfl, rfl, fun hk => ?_⟩
    · rw [hg] at hskip
      exact ⟨hskip, .token hskip hs rfl (.nil rest)⟩
    · exact absurd rfl hk

end Cursor

/-- The tokens of a text are cut from it, up to any of them, and read from it if all of these are
    tokens. -/
theorem Cursor.tokens_reads {fuel : Nat} {text : List Char} {as bs : List Token} (pre : List Char)
    (hf : text.length < fuel) (hb : ((behind pre text).tokens fuel).body = as ++ bs) :
    ∃ mid rest fuel', text = mid ++ rest ∧
      ((∀ t ∈ as, t.kind ≠ .error) → Reads text (erase as) rest) ∧
      (∀ t, as.getLast? = some t → t.span.stop = bytes (pre ++ mid)) ∧
      rest.length < fuel' ∧ ((behind (pre ++ mid) rest).tokens fuel').body = bs := by
  induction as generalizing fuel pre text with
  | nil => exact ⟨[], text, fuel, rfl, fun _ => .nil _, by simp, hf, by simpa using hb⟩
  | cons t as ih =>
    obtain ⟨fuel, rfl⟩ : ∃ n, fuel = n + 1 := ⟨fuel - 1, by omega⟩
    rw [tokens] at hb
    by_cases hk : (behind pre text).next.token.kind = .eof
    · rw [if_pos hk] at hb
      cases hb
    rw [if_neg hk] at hb
    have ht : (behind pre text).next.token = t := (List.cons.inj hb).1
    have hb' : (tokens fuel (behind pre text).next.cursor).body = as ++ bs := (List.cons.inj hb).2
    obtain ⟨gap, lexeme, rest, rfl, hne, hsp, hc, hread⟩ := next_reads hk
    rw [hc] at hb'
    rw [ht] at hsp hread
    have hlen := List.length_pos_iff.2 hne
    simp only [List.length_append] at hf
    obtain ⟨mid, back, fuel', rfl, hr, hstop, hf', hb'⟩ := ih _ (by omega) hb'
    refine ⟨gap ++ lexeme ++ mid, back, fuel', by simp, fun he => ?_, fun u hu => ?_, hf',
      by simpa using hb'⟩
    · obtain ⟨he, hes⟩ := List.forall_mem_cons.1 he
      exact (hread he).2.trans (hr hes)
    · cases as with
      | nil =>
        obtain rfl : mid = [] := by simpa using (hr (by simp)).eq_of_nil
        obtain rfl : t = u := by simpa using hu
        rw [hsp, Span.covering_stop]
        simp
      | cons v as =>
        rw [hstop u (by simpa using hu)]
        simp

/-! ## Back from what is read to tokens -/

/-- What is read without an error is not the error kind. -/
theorem scan_closed_ne_error {c : Char} {cs rest : List Char} {kind : TokenKind}
    (h : scan c cs = (kind, .closed rest)) : kind ≠ .error := by
  have hs (isReal : Bool) (ds : List Char) : (numberSuffix isReal ds).1 ≠ .error := by
    unfold numberSuffix
    grind
  have hn (ds : List Char) : (number ds).1 ≠ .error := by
    unfold number
    split
    · simp
    · exact hs _ _
  unfold scan at h
  split at h
  · obtain ⟨rfl, -⟩ := Prod.mk.inj h
    unfold literalKind
    grind
  split at h
  · obtain ⟨rfl, -⟩ := Prod.mk.inj h
    exact hn _
  split at h
  · obtain ⟨rfl, -⟩ := Prod.mk.inj h
    unfold wordKind
    grind
  split at h
  · obtain ⟨rfl, -⟩ := Prod.mk.inj h
    simp
  · simp at h

/-- All tokens of a text without errors are tokens. -/
theorem Cursor.tokens_ne_error {fuel : Nat} {c : Cursor} (h : (c.tokens fuel).errors = []) :
    ∀ t ∈ (c.tokens fuel).body, t.kind ≠ .error := by
  have hnext {c : Cursor} (h : c.next.errors = []) : c.next.token.kind ≠ .error := by
    unfold next at h ⊢
    cases hr : (skipGap c.rest).rest with
    | nil => simp [hr, tokenTo]
    | cons d ds =>
      simp only [hr] at h ⊢
      rcases hs : scan d ds with ⟨kind, _ | _⟩ <;> simp only [hs] at h ⊢
      · exact scan_closed_ne_error hs
      · cases h
  induction fuel generalizing c with
  | zero => simp [tokens]
  | succ fuel ih =>
    rw [tokens] at h ⊢
    split at h
    · rw [if_pos ‹_›]
      simp
    · rw [if_neg ‹_›]
      obtain ⟨h₁, h₂⟩ := List.append_eq_nil_iff.1 h
      exact List.forall_mem_cons.2 ⟨hnext h₁, ih h₂⟩

theorem tokenize_ne_error {source : String} (h : (tokenize source).errors = []) :
    ∀ t ∈ (tokenize source).body, t.kind ≠ .error :=
  Cursor.tokens_ne_error h

/-- A byte order mark begins no token. -/
theorem scan_mark_ne {cs rest : List Char} {kind : TokenKind} :
    scan '\uFEFF' cs ≠ (kind, .closed rest) := by
  have hl : opensLiteral '\uFEFF' = false := rfl
  have hn : startsNumber ('\uFEFF' :: cs) = false := rfl
  have hi : isIdentStart '\uFEFF' = false := by decide +kernel
  have hp : punctuation? ('\uFEFF' :: cs) = none := rfl
  simp [scan, hl, hn, hi, hp]

theorem gapEnd_idem {mode : GapMode} {cs ds : List Char} (h : gapEnd mode cs = ⟨ds, none⟩) :
    gapEnd .between ds = ⟨ds, none⟩ := by
  fun_induction gapEnd mode cs with
  | case6 c cs hc hl hb hw =>
    obtain ⟨rfl, -⟩ := GapEnd.mk.inj h
    refine gapEnd_token hw hc fun hs => ⟨fun h => ?_, fun h => ?_⟩
    · obtain ⟨ds, rfl⟩ := List.head?_eq_some_iff.1 h
      exact hl ds hs rfl
    · obtain ⟨ds, rfl⟩ := List.head?_eq_some_iff.1 h
      exact hb ds hs rfl
  | _ => simp_all [gapEnd]

/-- Where a token has been found no gap comes first. -/
theorem skipGap_idem {cs ds rest : List Char} {c : Char} {kind : TokenKind}
    (h : skipGap cs = ⟨c :: ds, none⟩) (hs : scan c ds = (kind, .closed rest)) :
    skipGap (c :: ds) = ⟨c :: ds, none⟩ := by
  have hc : c ≠ '\uFEFF' := by
    rintro rfl
    exact scan_mark_ne hs
  rw [skipGap_cons hc]
  unfold skipGap at h
  split at h <;> exact gapEnd_idem h

namespace Cursor

variable {text : List Char}

/-- The next token where a text is read as one. -/
theorem next_of_token (pre : List Char) {c : Char} {ds lexeme rest : List Char} {kind : TokenKind}
    (hg : skipGap text = ⟨c :: ds, none⟩) (hs : scan c ds = (kind, .closed rest))
    (hl : c :: ds = lexeme ++ rest) : ∃ gap, text = gap ++ (lexeme ++ rest) ∧
      (behind pre text).next = ⟨⟨kind, String.ofList lexeme, .covering (pre ++ gap) lexeme⟩, [],
        behind (pre ++ gap ++ lexeme) rest⟩ := by
  obtain ⟨gap, htext, -⟩ := skipGap_covers text
  rw [hg] at htext
  refine ⟨gap, by rw [← hl]; exact htext, ?_⟩
  rw [next, show (behind pre text).rest = text from rfl]
  simp only [hg, hs]
  rw [htext, behind_skipTo, hl, behind_tokenTo, behind_skipTo]

/-- What a text is read as are its tokens, if only a gap is left. -/
theorem tokens_of_reads (pre : List Char) {ts : List Token} {rest : List Char}
    (h : Reads text ts rest) (hr : skipGap rest = ⟨[], none⟩) {fuel : Nat} (hf : text.length < fuel) :
    erase ((behind pre text).tokens fuel).body = ts ∧
      ((behind pre text).tokens fuel).errors = [] := by
  induction h generalizing pre fuel with
  | nil cs =>
    obtain ⟨fuel, rfl⟩ : ∃ n, fuel = n + 1 := ⟨fuel - 1, by omega⟩
    obtain ⟨gap, htext, -⟩ := skipGap_covers cs
    simp [tokens, next, tokenTo, show (behind pre cs).rest = cs from rfl, hr]
  | @token cs c ds lexeme rest last kind ts hg hs hl h ih =>
    obtain ⟨fuel, rfl⟩ : ∃ n, fuel = n + 1 := ⟨fuel - 1, by omega⟩
    obtain ⟨gap, rfl, hn⟩ := next_of_token pre hg hs hl
    have hk : kind ≠ .eof := by
      have := scan_ne_eof c ds
      rwa [hs] at this
    have hlen := (scan_within c ds).rest.length_le
    rw [hs] at hlen
    have := congrArg List.length hl
    simp only [List.length_append, List.length_cons, Reading.rest] at this hf hlen
    obtain ⟨hb, he⟩ := @ih (pre ++ gap ++ lexeme) hr fuel (by omega)
    rw [tokens, hn]
    dsimp only
    rw [if_neg hk]
    exact ⟨by rw [erase_cons, hb]; rfl, by simpa using he⟩

end Cursor

/-- **Tokens that a text is read as are its tokens.** -/
theorem tokenize_of_reads {source : String} {ts : List Token} {rest : List Char}
    (h : Reads source.toList ts rest) (hr : skipGap rest = ⟨[], none⟩) :
    erase (tokenize source).body = ts ∧ (tokenize source).errors = [] :=
  Cursor.tokens_of_reads [] h hr (Nat.lt_succ_self _)

/-! ## Stretches of a text -/

/-- The first token stands behind the gap that its text begins with. -/
theorem Cursor.tokens_head {fuel : Nat} {pre text : List Char} {t : Token} {ts : List Token}
    (hb : ((behind pre text).tokens fuel).body = t :: ts) (he : t.kind ≠ .error) : ∃ gap ds,
      text = gap ++ ds ∧ skipGap text = ⟨ds, none⟩ ∧ t.span.offset = bytes (pre ++ gap) := by
  cases fuel with
  | zero => cases hb
  | succ fuel =>
    rw [tokens] at hb
    by_cases hk : (behind pre text).next.token.kind = .eof
    · rw [if_pos hk] at hb
      cases hb
    rw [if_neg hk] at hb
    obtain ⟨gap, lexeme, rest, rfl, -, hsp, -, hread⟩ := next_reads hk
    rw [(List.cons.inj hb).1] at hsp hread
    exact ⟨gap, lexeme ++ rest, rfl, (hread he).1, by rw [hsp]; rfl⟩

theorem Reads.of_gap {cs ds rest : List Char} {ts : List Token} (h : Reads cs ts rest)
    (hne : ts ≠ []) (hg : skipGap cs = ⟨ds, none⟩) :
    Reads ds ts rest ∧ skipGap ds = ⟨ds, none⟩ := by
  cases h with
  | nil => exact absurd rfl hne
  | token hg' hs hl ht =>
    rw [hg] at hg'
    cases hg'
    exact ⟨.token (skipGap_idem hg hs) hs hl ht, skipGap_idem hg hs⟩

theorem between?_bytes (pre mid post : List Char) :
    between? (bytes pre) (bytes (pre ++ mid)) (pre ++ (mid ++ post)) = some mid := by
  simp [between?, splitAtByte?_bytes]

/-- **A stretch of a text spells the tokens in it, if all of them are tokens**: the text from the
    first of these tokens through the last one, which is cut out of the source. -/
theorem spells_between {source : String} {as bs cs : List Token} {t u : Token}
    (hb : (tokenize source).body = as ++ (bs ++ cs)) (he : ∀ v ∈ bs, v.kind ≠ .error)
    (ht : bs.head? = some t) (hu : bs.getLast? = some u) : ∃ text,
      between? t.span.offset u.span.stop source.toList = some text ∧ Spells text (erase bs) := by
  obtain ⟨pre, rest, fuel, hsource, -, -, hf, hb'⟩ :=
    Cursor.tokens_reads [] (Nat.lt_succ_self _) hb
  obtain ⟨bs', rfl⟩ := List.head?_eq_some_iff.1 ht
  obtain ⟨gap, ds, hrest, hg, hoff⟩ := Cursor.tokens_head hb' (he t (by simp))
  obtain ⟨mid, last, fuel', hrest', hr, hstop, -⟩ := Cursor.tokens_reads _ hf hb'
  obtain ⟨hr', hidem⟩ := (hr he).of_gap (by simp) hg
  obtain ⟨front, rfl⟩ := hr'.suffix
  have hmid : mid = gap ++ front := by
    rw [hrest, ← List.append_assoc] at hrest'
    exact (List.append_cancel_right hrest').symm
  subst hmid
  refine ⟨front, ?_, ?_⟩
  · rw [hsource, hrest', hoff, hstop u hu]
    simpa using between?_bytes (pre ++ gap) front last
  · refine spells_of_reads hr' ?_ hidem
    rintro rfl
    exact absurd (hr'.length_lt (by simp)) (Nat.lt_irrefl _)

/-! ## Whole texts -/

/-- The tokens of a text, without their places. -/
def tokensOf (text : String) : List Token :=
  erase (tokenize text).body

/-- The text is read without errors, and begins and ends with a token. -/
def isSpelling (text : String) : Bool :=
  (tokenize text).errors.isEmpty &&
    (tokenize text).body.head?.any (fun t => t.span.offset == 0) &&
    (tokenize text).body.getLast?.any (fun t => t.span.stop == bytes text.toList)

/-- **A text without errors that begins and ends with a token spells its tokens.** -/
theorem spells_tokensOf {text : String} (h : isSpelling text = true) :
    Spells text.toList (tokensOf text) := by
  simp only [isSpelling, Bool.and_eq_true, List.isEmpty_iff, Option.any_eq_true] at h
  obtain ⟨⟨he, t, ht, ht₀⟩, u, hu, hu₁⟩ := h
  obtain ⟨front, hfront, hs⟩ :=
    @spells_between text [] _ [] t u (by simp) (tokenize_ne_error he) ht hu
  rw [beq_iff_eq.1 ht₀, beq_iff_eq.1 hu₁] at hfront
  have hwhole := between?_bytes [] text.toList []
  simp only [bytes_nil, List.nil_append, List.append_nil] at hwhole
  rw [hwhole] at hfront
  exact Option.some_inj.1 hfront ▸ hs

/-- Behind the tokens of a text comes its `eof`. -/
theorem erase_tokens (text : String) :
    erase (tokenize text).tokens = tokensOf text ++ [⟨.eof, "", default⟩] := by
  rw [Lexed.tokens, (tokenize_ends text).1, erase_append]
  rfl

/-- Tokens that a text spells are its tokens. -/
theorem Spells.tokensOf_eq {text : String} {ts : List Token} (h : Spells text.toList ts) :
    tokensOf text = ts := by
  have hr := h.reads [] .nil
  rw [List.append_nil] at hr
  exact (tokenize_of_reads hr rfl).1

/-- A text that spells tokens is read as these tokens, without an error. -/
theorem Spells.tokenize_eq {text : String} {ts : List Token} (h : Spells text.toList ts) :
    erase (tokenize text).tokens = ts ++ [⟨.eof, "", default⟩] ∧ (tokenize text).errors = [] := by
  have hr := h.reads [] .nil
  rw [List.append_nil] at hr
  exact ⟨by rw [erase_tokens, h.tokensOf_eq], (tokenize_of_reads hr rfl).2⟩

end CommandModules

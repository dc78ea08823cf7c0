/-
  Command modules — texts put together from words and marks.

  * `IsWord w kind`: the text `w` is a word, reserved or not, which is read as a token
    of this kind;
  * `IsWord.reads`, `mark_reads`: words and marks are read as themselves before
    what does not go on with them;
  * `Spells.word`, `Spells.mark` and their like put a text that spells tokens
    behind a word or a mark;
  * `tokenize_isWord`: every identifier of a text is a word.
-/
import Mathlib.Data.List.TakeWhile
import CommandModules.Proofs.Token.Spelling

namespace CommandModules

open Text

/-! ## Words -/

/-- The text is a word, and this is the kind of its token. -/
inductive IsWord : String → TokenKind → Prop
  | plain {c cs} : isIdentStart c = true → (∀ d ∈ cs, isIdentContinue d = true) →
      IsWord (String.ofList (c :: cs)) (wordKind (String.ofList (c :: cs)))
  /-- escaped, so that no reserved word is meant -/
  | escaped {c cs} : isIdentStart c = true → (∀ d ∈ cs, isIdentContinue d = true) →
      IsWord (String.ofList ('@' :: c :: cs)) .identifier

theorem IsWord.of_toList {w : String} {c : Char} {cs : List Char} (hw : w.toList = c :: cs)
    (hc : isIdentStart c = true) (hcs : ∀ d ∈ cs, isIdentContinue d = true) :
    IsWord w (wordKind w) := by
  rw [← String.ofList_toList (s := w), hw]
  exact .plain hc hcs

/-- Does the text begin like a word and go on like one? -/
def hasWordChars (w : String) : Bool :=
  w.toList.head?.any isIdentStart && w.toList.all isIdentContinue

theorem IsWord.of_hasWordChars {w : String} (h : hasWordChars w = true) : IsWord w (wordKind w) := by
  obtain ⟨hstart, hall⟩ := Bool.and_eq_true_iff.1 h
  obtain ⟨c, hc, hstart⟩ := (Option.any_eq_true _ _).1 hstart
  obtain ⟨cs, hcs⟩ := List.head?_eq_some_iff.1 hc
  refine .of_toList hcs hstart fun d hd => List.all_eq_true.1 hall d ?_
  rw [hcs]
  exact List.mem_cons_of_mem c hd

/-- Is the text a word that is not reserved? -/
def isName (w : String) : Bool :=
  hasWordChars w && wordKind w == .identifier

theorem IsWord.of_isName {w : String} (h : isName w = true) : IsWord w .identifier := by
  obtain ⟨hw, hk⟩ := Bool.and_eq_true_iff.1 h
  have := IsWord.of_hasWordChars hw
  rwa [beq_iff_eq.1 hk] at this

theorem Keyword.isWord (k : Keyword) : IsWord k.text (.keyword k) := by
  have hkind : wordKind k.text = .keyword k := by rw [wordKind, ofText?_text]
  rw [← hkind]
  exact .of_hasWordChars (by cases k <;> decide +kernel)

/-- A word is of the kind that its text is read as. -/
theorem IsWord.kind_eq {w : String} {kind : TokenKind} (h : IsWord w kind) :
    kind = wordKind w := by
  cases h with
  | plain => rfl
  | @escaped c cs _ _ =>
    unfold wordKind
    cases hk : Keyword.ofText? (String.ofList ('@' :: c :: cs)) with
    | none => rfl
    | some k =>
      -- no reserved word begins with the escape
      have hne : k.text.toList.head? ≠ some '@' := by cases k <;> decide
      rw [Keyword.text_of_ofText? hk, String.toList_ofList] at hne
      exact absurd rfl hne

/-- The token that a word is read as. -/
def wordToken (kind : TokenKind) (w : String) : Token :=
  ⟨kind, w, default⟩

/-- The token that a mark is read as. -/
def markToken (m : Punct) : Token :=
  ⟨.punct m, m.text, default⟩

/-- The token of a reserved word. -/
def keywordToken (k : Keyword) : Token :=
  wordToken (.keyword k) k.text

/-- Does a word end before the text? -/
def EndsWord (cs : List Char) : Prop :=
  ∀ c, cs.head? = some c → ¬ isIdentContinue c = true

theorem Stops.endsWord {cs : List Char} (h : Stops cs) : EndsWord cs :=
  h.ends.not_continue

section
variable {c : Char} {cs ds : List Char}

theorem takeWhile_word (hc : isIdentContinue c = true) (h : ∀ d ∈ cs, isIdentContinue d = true)
    (he : EndsWord ds) : (c :: (cs ++ ds)).takeWhile isIdentContinue = c :: cs ∧
      (c :: (cs ++ ds)).dropWhile isIdentContinue = ds := by
  have hds : ds.takeWhile isIdentContinue = [] ∧ ds.dropWhile isIdentContinue = ds := by
    cases ds with
    | nil => exact ⟨rfl, rfl⟩
    | cons d ds =>
      have := he d rfl
      exact ⟨List.takeWhile_cons_of_neg this, List.dropWhile_cons_of_neg this⟩
  have hall : ∀ d ∈ c :: cs, isIdentContinue d = true := by
    rintro d (_ | ⟨_, hd⟩)
    exacts [hc, h d hd]
  rw [← List.cons_append, List.takeWhile_append_of_pos hall, List.dropWhile_append_of_pos hall]
  simp [hds]

theorem isIdentStart_ne (hc : isIdentStart c = true) {d : Char} (hd : isIdentStart d = false) :
    c ≠ d := by
  rintro rfl
  rw [hc] at hd
  cases hd

theorem not_isDigit_of_isIdentStart (hc : isIdentStart c = true) : ¬ c.isDigit = true := by
  intro hd
  have hlt : c.toNat < 128 := by
    simp only [Char.isDigit, Bool.and_eq_true, decide_eq_true_eq, UInt32.le_iff_toNat_le,
      ge_iff_le] at hd
    have : c.toNat = c.val.toNat := rfl
    have : '9'.val.toNat = 57 := rfl
    omega
  rcases Bool.or_eq_true_iff.1 hc with h | h
  · obtain rfl := beq_iff_eq.1 h
    exact absurd hd (by decide)
  · rw [isLetter, if_pos hlt] at h
    have h : (decide (c.val ≥ 'A'.val ∧ c.val ≤ 'Z'.val) ||
        (decide (c.val ≥ 'a'.val) && decide (c.val ≤ 'z'.val))) = true := h
    simp only [Char.isDigit, Bool.or_eq_true, Bool.and_eq_true, decide_eq_true_eq,
      UInt32.le_iff_toNat_le, ge_iff_le] at h hd
    simp at h hd
    omega

theorem scan_word (hc : isIdentStart c = true) (h : ∀ d ∈ cs, isIdentContinue d = true)
    (he : EndsWord ds) :
    scan c (cs ++ ds) = (wordKind (String.ofList (c :: cs)), .closed ds) := by
  have hne {d : Char} := isIdentStart_ne (d := d) hc
  have hl : opensLiteral c = false := by
    have h1 : c ≠ '"' := hne (by decide)
    have h2 : c ≠ '\'' := hne (by decide)
    have h3 : c ≠ '@' := hne (by decide)
    have h4 : c ≠ '$' := hne (by decide)
    simp [opensLiteral, h1, h2, h3, h4]
  have hn : ¬ startsNumber (c :: (cs ++ ds)) = true := by
    rw [startsNumber_cons]
    rintro (h | ⟨rfl, -⟩)
    · exact not_isDigit_of_isIdentStart hc h
    · exact hne (by decide) rfl
  obtain ⟨ht, hd⟩ := takeWhile_word (isIdentContinue_of_isIdentStart hc) h he
  simp [scan, hl, hn, hc, ht, hd]

theorem scan_escaped (hc : isIdentStart c = true) (h : ∀ d ∈ cs, isIdentContinue d = true)
    (he : EndsWord ds) : scan '@' (c :: (cs ++ ds)) = (.identifier, .closed ds) := by
  have hl : opensLiteral '@' = true := rfl
  obtain ⟨-, hd⟩ := takeWhile_word (isIdentContinue_of_isIdentStart hc) h he
  rw [scan, if_pos hl]
  have hk : literalKind ('@' :: c :: (cs ++ ds)) = .identifier := by
    simp [literalKind, hc]
  have ha : literal ((c :: (cs ++ ds)).length + 1) ('@' :: c :: (cs ++ ds)) = .closed ds := by
    rw [literal, atLiteral_ident hc, hd]
  rw [hk, ha]

end

/-! ## Reading words and marks -/

/-- A text begins with a token if it is read as one and no gap comes first. -/
theorem beginsToken_cons {c : Char} {cs : List Char} (hb : ¬ isBlank c = true) (hm : c ≠ '\uFEFF')
    (hc : c ≠ '#') (hs : c ≠ '/') : BeginsToken (c :: cs) :=
  ⟨List.cons_ne_nil _ _, by
    rw [skipGap_cons hm]
    exact gapEnd_token hb hc fun h => absurd h hs⟩

theorem Reads.one {cs rest : List Char} {c : Char} {kind : TokenKind} (lexeme : List Char)
    (hb : BeginsToken (c :: cs)) (hs : scan c cs = (kind, .closed rest))
    (hl : c :: cs = lexeme ++ rest) :
    Reads (c :: cs) [⟨kind, String.ofList lexeme, default⟩] rest :=
  .token hb.2 hs hl (.nil rest)

/-- The code points of the blank characters. -/
def blankCodes : List Nat :=
  [9, 10, 11, 12, 13, 0x20, 0x85, 0xA0, 0x1680, 0x2000, 0x2001, 0x2002, 0x2003, 0x2004, 0x2005,
    0x2006, 0x2007, 0x2008, 0x2009, 0x200A, 0x2028, 0x2029, 0x202F, 0x205F, 0x3000]

theorem mem_blankCodes {c : Char} (h : isBlank c = true) : c.toNat ∈ blankCodes := by
  simp only [isBlank, Bool.or_eq_true, Bool.and_eq_true, decide_eq_true_eq, beq_iff_eq] at h
  simp only [blankCodes, List.mem_cons, List.not_mem_nil]
  omega

theorem not_isBlank_of_isIdentStart {c : Char} (h : isIdentStart c = true) : ¬ isBlank c = true := by
  have hall : ∀ n ∈ blankCodes, isIdentStart (Char.ofNat n) = false := by decide +kernel
  intro hb
  have := hall _ (mem_blankCodes hb)
  rw [Char.ofNat_toNat, h] at this
  cases this

namespace IsWord

variable {w : String} {kind : TokenKind} {cs : List Char}

/-- A word begins with a token. -/
theorem begins (h : IsWord w kind) : BeginsToken (w.toList ++ cs) := by
  cases h with
  | plain hc _ =>
    have hne {d : Char} := isIdentStart_ne (d := d) hc
    rw [String.toList_ofList]
    exact beginsToken_cons (not_isBlank_of_isIdentStart hc) (hne (by decide +kernel)) (hne (by decide)) (hne (by decide))
  | escaped =>
    rw [String.toList_ofList]
    exact beginsToken_cons (by decide) (by decide) (by decide) (by decide)

theorem ne_nil (h : IsWord w kind) : w.toList ≠ [] := by
  cases h <;> simp

/-- A word is read as itself. -/
theorem reads (h : IsWord w kind) (he : EndsWord cs) :
    Reads (w.toList ++ cs) [wordToken kind w] cs := by
  have hb : BeginsToken (w.toList ++ cs) := h.begins
  cases h with
  | plain hc hcs =>
    rw [String.toList_ofList] at hb ⊢
    exact .one _ hb (scan_word hc hcs he) rfl
  | escaped hc hcs =>
    rw [String.toList_ofList] at hb ⊢
    exact .one _ hb (scan_escaped hc hcs he) rfl

end IsWord

/-- Can the mark not be taken for the beginning of anything else? -/
def Punct.isPlain : Punct → Bool
  | .dot | .colon | .colonColon | .arrow | .equal | .slash => false
  | _ => true

theorem mark_reads {m : Punct} (hm : m.isPlain = true) (cs : List Char) :
    Reads (m.text.toList ++ cs) [markToken m] cs ∧ BeginsToken (m.text.toList ++ cs) := by
  have main {c : Char} (hc : m.text.toList = [c]) (hs : scan c cs = (.punct m, .closed cs))
      (hb : BeginsToken (c :: cs)) : Reads (m.text.toList ++ cs) [markToken m] cs ∧
        BeginsToken (m.text.toList ++ cs) := by
    have := Reads.one [c] hb hs rfl
    rw [hc]
    refine ⟨?_, hb⟩
    rwa [← hc, String.ofList_toList] at this
  cases m <;> first
    | exact absurd hm (by decide)
    | exact main rfl (by rfl) (beginsToken_cons (by decide) (by decide) (by decide) (by decide))

theorem dot_reads {cs : List Char} (h : ∀ c, cs.head? = some c → ¬ c.isDigit = true) :
    Reads ('.' :: cs) [markToken .dot] cs ∧ BeginsToken ('.' :: cs) := by
  have hb : BeginsToken ('.' :: cs) :=
    beginsToken_cons (by decide) (by decide) (by decide) (by decide)
  have hn : ¬ startsNumber ('.' :: cs) = true := by
    rw [startsNumber_cons]
    rintro (h' | ⟨-, d, ds, rfl, hd⟩)
    · exact absurd h' (by decide)
    · exact h d rfl hd
  have hs : scan '.' cs = (.punct .dot, .closed cs) := by
    rw [scan, if_neg (by decide), if_neg hn, if_neg (by decide)]
    rfl
  exact ⟨.one ['.'] hb hs rfl, hb⟩

/-! ## Putting texts together -/

namespace Spells

variable {w : String} {kind : TokenKind} {m : Punct} {cs ds : List Char} {ts us : List Token}

theorem text_ne_nil (h : Spells cs ts) : cs ≠ [] := by
  simpa using (h.begins [] .nil).1

theorem ne_nil (h : Spells cs ts) : ts ≠ [] := by
  rintro rfl
  have := (h.reads [] .nil).eq_of_nil
  exact h.text_ne_nil (by simpa using this.symm)

/-- What stops tokens still does when more follows, unless it is empty. -/
theorem stops_append (h : Spells ds us) (hs : Stops ds) (back : List Char) : Stops (ds ++ back) := by
  obtain ⟨d, ds, rfl⟩ := List.exists_cons_of_ne_nil h.text_ne_nil
  exact .cons (hs d rfl)

theorem endsWord_append (h : Spells ds us) (he : EndsWord ds) (back : List Char) :
    EndsWord (ds ++ back) := by
  obtain ⟨d, ds, rfl⟩ := List.exists_cons_of_ne_nil h.text_ne_nil
  exact he

theorem word (hw : IsWord w kind) : Spells w.toList [wordToken kind w] where
  begins _ _ := hw.begins
  reads _ hs := hw.reads hs.endsWord

theorem mark (hm : m.isPlain = true) : Spells m.text.toList [markToken m] where
  begins back _ := (mark_reads hm back).2
  reads back _ := (mark_reads hm back).1

theorem append (h : Spells cs ts) (hs : Stops ds) (h' : Spells ds us) :
    Spells (cs ++ ds) (ts ++ us) where
  begins back _ := by
    rw [List.append_assoc]
    exact h.begins _ (h'.stops_append hs back)
  reads back hb := by
    rw [List.append_assoc]
    exact (h.reads _ (h'.stops_append hs back)).trans (h'.reads back hb)

theorem space (h : Spells cs ts) (h' : Spells ds us) : Spells (cs ++ ' ' :: ds) (ts ++ us) where
  begins back _ := by
    rw [List.append_assoc]
    exact h.begins _ (.cons (by decide))
  reads back hb := by
    rw [List.append_assoc]
    refine (h.reads _ (.cons (by decide))).trans ?_
    have hspace : Trivia False [' '] := .blank rfl .nil
    exact .trivia hspace (h'.begins back hb) (h'.reads back hb) h'.ne_nil

theorem word_append (hw : IsWord w kind) (he : EndsWord ds) (h : Spells ds us) :
    Spells (w.toList ++ ds) (wordToken kind w :: us) where
  begins back _ := by
    rw [List.append_assoc]
    exact hw.begins
  reads back hb := by
    rw [List.append_assoc]
    exact (hw.reads (h.endsWord_append he back)).trans (h.reads back hb)

theorem mark_append (hm : m.isPlain = true) (h : Spells ds us) :
    Spells (m.text.toList ++ ds) (markToken m :: us) where
  begins back _ := by
    rw [List.append_assoc]
    exact (mark_reads hm _).2
  reads back hb := by
    rw [List.append_assoc]
    exact (mark_reads hm _).1.trans (h.reads back hb)

theorem dot_append (hd : ∀ c, ds.head? = some c → ¬ c.isDigit = true) (h : Spells ds us) :
    Spells ('.' :: ds) (markToken .dot :: us) := by
  have hd (back : List Char) (c : Char) (hc : (ds ++ back).head? = some c) : ¬ c.isDigit = true := by
    obtain ⟨d, ds, rfl⟩ := List.exists_cons_of_ne_nil h.text_ne_nil
    exact hd c hc
  exact ⟨fun back _ => (dot_reads (hd back)).2, fun back hb =>
    (dot_reads (hd back)).1.trans (h.reads back hb)⟩

end Spells

/-! ## What a word means -/

theorem IsWord.toList {w : String} {kind : TokenKind} (h : IsWord w kind) : ∃ c cs,
    isIdentStart c = true ∧ (∀ d ∈ cs, isIdentContinue d = true) ∧
      (w.toList = c :: cs ∨ w.toList = '@' :: c :: cs) := by
  cases h with
  | @plain c cs hc hcs => exact ⟨c, cs, hc, hcs, .inl String.toList_ofList⟩
  | @escaped c cs hc hcs => exact ⟨c, cs, hc, hcs, .inr String.toList_ofList⟩

/-- What an identifier means begins like a word and goes on like one. -/
theorem IsWord.value_eq {i : Ident} {kind : TokenKind} (h : IsWord i.name kind) : ∃ c cs,
    isIdentStart c = true ∧ (∀ d ∈ cs, isIdentContinue d = true) ∧
      i.value = String.ofList (c :: cs) := by
  obtain ⟨c, cs, hc, hcs, hw | hw⟩ := h.toList
  · have hne : c ≠ '@' := isIdentStart_ne hc (by decide)
    refine ⟨c, cs, hc, hcs, ?_⟩
    unfold Ident.value
    split
    · rename_i heq
      rw [hw] at heq
      exact absurd (List.cons.inj heq).1 hne
    · rw [← hw, String.ofList_toList]
  · exact ⟨c, cs, hc, hcs, by simp [Ident.value, hw]⟩

theorem IsWord.hasWordChars_value {i : Ident} {kind : TokenKind} (h : IsWord i.name kind) :
    hasWordChars i.value = true := by
  obtain ⟨c, cs, hc, hcs, hv⟩ := h.value_eq
  rw [hv, hasWordChars, String.toList_ofList]
  have hstart : isIdentContinue c = true := isIdentContinue_of_isIdentStart hc
  simpa [hc, hstart] using hcs

/-- What an identifier means is a word, which may be reserved. -/
theorem IsWord.value {i : Ident} {kind : TokenKind} (h : IsWord i.name kind) :
    IsWord i.value (wordKind i.value) :=
  .of_hasWordChars h.hasWordChars_value

/-- A word that is not escaped means itself. -/
theorem Ident.value_of_hasWordChars {i : Ident} (h : hasWordChars i.name = true) :
    i.value = i.name := by
  obtain ⟨c, hc, hstart⟩ := (Option.any_eq_true _ _).1 (Bool.and_eq_true_iff.1 h).1
  obtain ⟨cs, hcs⟩ := List.head?_eq_some_iff.1 hc
  unfold Ident.value
  split
  · rename_i heq
    rw [hcs] at heq
    exact absurd (List.cons.inj heq).1 (isIdentStart_ne hstart (by decide))
  · rfl

/-! ## The words of a text -/

/-- Is the token of a word, reserved or not? -/
def TokenKind.isWord (k : TokenKind) : Bool :=
  k.isIdentifier || k.isKeyword

/-- If the token is a word, then its lexeme is one. -/
def Token.IsWorded (t : Token) : Prop :=
  t.kind.isWord = true → IsWord t.lexeme t.kind

theorem isWord_takeWhile {c : Char} (cs : List Char) (hc : isIdentStart c = true) :
    ∃ ds, (c :: cs).takeWhile isIdentContinue = c :: ds ∧ ∀ d ∈ ds, isIdentContinue d = true := by
  rw [List.takeWhile_cons_of_pos (isIdentContinue_of_isIdentStart hc)]
  exact ⟨_, rfl, fun d hd => List.mem_takeWhile_imp hd⟩

theorem number_not_isWord (cs : List Char) : (number cs).1.isWord = false := by
  have hs (isReal : Bool) (ds : List Char) : (numberSuffix isReal ds).1.isWord = false := by
    unfold numberSuffix
    grind [TokenKind.isWord, TokenKind.isIdentifier, TokenKind.isKeyword]
  unfold number
  split
  · rfl
  · exact hs _ _

theorem append_eq_of_dropWhile {p : Char → Bool} {cs lexeme rest : List Char}
    (h : cs = lexeme ++ rest) (hr : cs.dropWhile p = rest) : lexeme = cs.takeWhile p := by
  have := List.takeWhile_append_dropWhile (p := p) (l := cs)
  rw [hr] at this
  exact List.append_cancel_right (h.symm.trans this.symm)

theorem scan_isWord {c : Char} {cs lexeme rest : List Char} {kind : TokenKind}
    (h : scan c cs = (kind, .closed rest)) (hl : c :: cs = lexeme ++ rest)
    (hk : kind.isWord = true) : IsWord (String.ofList lexeme) kind := by
  unfold scan at h
  split at h
  · obtain ⟨rfl, hr⟩ := Prod.mk.inj h
    unfold literalKind at hk ⊢
    split at hk
    · cases hk
    · rename_i d ds heq
      obtain ⟨rfl, rfl⟩ := List.cons.inj heq
      split at hk
      · rename_i hd
        have hr' : atLiteral (literal (d :: ds).length) ('@' :: d :: ds) = .closed rest := hr
        rw [atLiteral_ident hd] at hr'
        have hrest := Reading.closed.inj hr'
        cases lexeme with
        | nil =>
          have := (List.dropWhile_suffix isIdentContinue (l := d :: ds)).length_le
          rw [hrest, ← List.nil_append rest, ← hl] at this
          simp only [List.length_cons] at this
          omega
        | cons e lexeme =>
          obtain ⟨rfl, htail⟩ := List.cons.inj hl
          rw [append_eq_of_dropWhile htail hrest]
          obtain ⟨ds', ht, hds⟩ := isWord_takeWhile ds hd
          rw [ht, if_pos hd]
          exact .escaped hd hds
      · cases hk
    · cases hk
  split at h
  · have hn : (number (c :: cs)).1 = kind := congrArg Prod.fst h
    rw [← hn, number_not_isWord] at hk
    cases hk
  split at h
  · rename_i hc
    obtain ⟨rfl, hr⟩ := Prod.mk.inj h
    rw [append_eq_of_dropWhile hl (Reading.closed.inj hr)]
    obtain ⟨ds, ht, hds⟩ := isWord_takeWhile cs hc
    rw [ht]
    exact .plain hc hds
  split at h
  · obtain ⟨rfl, -⟩ := Prod.mk.inj h
    cases hk
  · cases h

namespace Cursor

theorem next_isWorded (pre text : List Char) : (behind pre text).next.token.IsWorded := by
  intro hk
  obtain ⟨gap, hg, -⟩ := skipGap_covers text
  have hrest : (behind pre text).rest = text := rfl
  unfold next at hk ⊢
  rw [hrest] at hk ⊢
  cases hr : (skipGap text).rest with
  | nil =>
    simp only [hr] at hk
    cases hk
  | cons c cs =>
    have hw := (scan_within c cs).rest
    rw [hr] at hg
    simp only [hr] at hk ⊢
    rcases hs : scan c cs with ⟨kind, rest | _⟩ <;> rw [hs] at hw <;> simp only [hs] at hk ⊢
    · obtain ⟨front, rfl⟩ : rest <:+ cs := hw
      rw [hg, behind_skipTo, ← List.cons_append, behind_tokenTo] at hk ⊢
      exact scan_isWord hs (List.cons_append ..).symm hk
    · cases hk

theorem tokens_isWorded (fuel : Nat) (pre text : List Char) :
    ∀ t ∈ ((behind pre text).tokens fuel).body, t.IsWorded := by
  induction fuel generalizing pre text with
  | zero => simp [tokens]
  | succ fuel ih =>
    rw [tokens]
    split
    · simp
    · intro t ht
      rcases List.mem_cons.1 ht with rfl | ht
      · exact next_isWorded pre text
      · rcases next_behind pre text with ⟨gap, -, -, -, hc⟩ | ⟨gap, lexeme, rest, kind, -, -, -, -, -, hc⟩ <;>
          rw [hc] at ht
        · exact ih _ _ t ht
        · exact ih _ _ t ht

end Cursor

/-- **Identifiers and reserved words of a text are words.** -/
theorem tokenize_isWorded {source : String} {t : Token} (h : t ∈ (tokenize source).body) :
    t.IsWorded :=
  Cursor.tokens_isWorded _ [] _ t h

/-- Are the identifiers of the segments words? -/
def AreWorded (segments : List NameSegment) : Prop :=
  ∀ s ∈ segments, IsWord s.ident.name .identifier

theorem AreWorded.concat {segments : List NameSegment} {s : NameSegment} (h : AreWorded segments)
    (hs : IsWord s.ident.name .identifier) : AreWorded (segments ++ [s]) := by
  intro t ht
  rcases List.mem_append.1 ht with ht | ht
  · exact h t ht
  · exact List.mem_singleton.1 ht ▸ hs

end CommandModules

/-
  Command modules — the basic readers before known tokens.

  * `Shows.peek_kind` and its like: what is known of the current token;
  * each of the basic readers has a lemma that says what it does where the token that it
    asks for stands (`_accepts`), and one where it does not (`_declines`).
-/
import Mathlib.Data.List.Forall2
import CommandModules.Proofs.Printed.Type
import CommandModules.Proofs.Shown.Rules

namespace CommandModules

open ParserState Text

variable {α β : Type} {source : List Char} {s : ParserState} {t u : Token} {ts : List Token}

/-! ## Known tokens -/

theorem ParserState.isAt_iff {kind : TokenKind} : s.isAt kind = true ↔ s.peek.kind = kind :=
  beq_iff_eq

theorem ParserState.isAtMark_iff {mark : Punct} :
    s.isAtMark mark = true ↔ s.peek.kind = .punct mark :=
  isAt_iff

namespace ParserState.Shows

theorem cons (h : s.Shows (t :: ts)) : ∃ u us, s.after = u :: us ∧ erase u = t ∧ erase us = ts :=
  List.map_eq_cons_iff.1 h

theorem peekAt (h : s.Shows ts) {n : Nat} (ht : ts[n]? = some t) : erase (s.peekAt n) = t := by
  have hmap : s.after.map erase = ts := h
  rw [← hmap, List.getElem?_map] at ht
  obtain ⟨u, hu, rfl⟩ := Option.map_eq_some_iff.1 ht
  rw [ParserState.peekAt, hu]
  rfl

theorem peek (h : s.Shows (t :: ts)) : erase s.peek = t :=
  Good.peek_eq s ▸ h.peekAt (n := 0) rfl

theorem peek_kind (h : s.Shows (t :: ts)) : s.peek.kind = t.kind := by
  rw [← h.peek, kind_erase]

theorem peek_lexeme (h : s.Shows (t :: ts)) : s.peek.lexeme = t.lexeme := by
  rw [← h.peek, lexeme_erase]

theorem peekAt_kind (h : s.Shows ts) {n : Nat} (ht : ts[n]? = some t) :
    (s.peekAt n).kind = t.kind := by
  rw [← h.peekAt ht, kind_erase]

theorem length_after (h : s.Shows ts) : s.after.length = ts.length := by
  rw [← h, length_erase]

theorem peek_eof (h : s.Shows []) (hg : s.Good source) : s.peek.kind = .eof :=
  hg.peek_kind_eq_eof.2 (List.map_eq_nil_iff.1 h)

/-- Behind the tokens stands the `eof`. -/
theorem peekAt_of {p : TokenKind → Prop} {n : Nat} (h : s.Shows ts) (hg : s.Good source)
    (ht : ∀ t, ts[n]? = some t → p t.kind) (he : p .eof) : p (s.peekAt n).kind := by
  cases hn : ts[n]? with
  | some t => exact h.peekAt_kind hn ▸ ht t hn
  | none =>
    have hmap : s.after.map erase = ts := h
    rw [← hmap, List.getElem?_map, Option.map_eq_none_iff] at hn
    rw [ParserState.peekAt, hn]
    exact hg.eof_kind ▸ he

theorem peek_of {p : TokenKind → Prop} (h : s.Shows ts) (hg : s.Good source)
    (ht : ∀ t, ts.head? = some t → p t.kind) (he : p .eof) : p s.peek.kind :=
  Good.peek_eq s ▸ h.peekAt_of (n := 0) hg (fun t h0 => ht t (List.head?_eq_getElem? ▸ h0)) he

end ParserState.Shows

namespace Parser

/-! ## Single tokens -/

theorem advance_accepts (h : s.Shows (t :: ts)) :
    Reader.Accepts source s advance fun u s' => erase u = t ∧ s'.Shows ts := by
  refine .of_safe advance_safe fun _ => ?_
  obtain ⟨u, us, ha, rfl, rfl⟩ := h.cons
  have hrun : advance.run s = (u, { s with before := u :: s.before, after := us }) := by
    show (s.peek, s.advance) = _
    simp [ParserState.peek, ParserState.advance, ha]
  rw [hrun]
  exact ⟨rfl, rfl, rfl⟩

theorem advance_shows (h : s.Shows (t :: ts)) :
    Reader.Accepts source s advance fun _ s' => s'.Shows ts :=
  (advance_accepts h).mono fun _ _ hu => hu.2

theorem eat_accepts {kind : TokenKind} (h : s.Shows (t :: ts)) (hk : t.kind = kind) :
    Reader.Accepts source s (eat kind) fun b s' => b = true ∧ s'.Shows ts := by
  refine .get fun _ => ?_
  rw [if_pos (isAt_iff.2 (h.peek_kind.trans hk))]
  exact (advance_shows h).discard.bind fun _ _ hs => .pure ⟨rfl, hs⟩

theorem eat_declines {kind : TokenKind} (h : s.peek.kind ≠ kind) :
    Reader.Accepts source s (eat kind) fun b s' => b = false ∧ s' = s := by
  refine .get fun _ => ?_
  rw [if_neg (mt isAt_iff.1 h)]
  exact .pure ⟨rfl, rfl⟩

theorem expect_accepts {kind : TokenKind} (h : s.Shows (t :: ts)) (hk : t.kind = kind) :
    Parser.Accepts source s (expect kind) fun _ s' => s'.Shows ts := by
  refine .get fun _ => ?_
  rw [if_pos (isAt_iff.2 (h.peek_kind.trans hk))]
  exact .lift (advance_shows h)

theorem failAt_fails {kind : ParseErrorKind} {what : String} :
    Parser.Fails source s (failAt kind what : Parser α) :=
  fun _ => ⟨_, rfl⟩

theorem expect_fails {kind : TokenKind} (h : s.peek.kind ≠ kind) :
    Parser.Fails source s (expect kind) := by
  refine .get ?_
  rw [if_neg (mt isAt_iff.1 h)]
  exact failAt_fails

theorem erase_ident_eq {i j : Ident} (h : i.name = j.name) : erase i = erase j := by
  obtain ⟨name, span⟩ := i
  obtain ⟨name', span'⟩ := j
  obtain rfl : name = name' := h
  rfl

theorem ident_accepts (h : s.Shows (t :: ts)) (hk : t.kind = .identifier) :
    Parser.Accepts source s ident fun i s' => i.name = t.lexeme ∧ s'.Shows ts := by
  refine .get fun _ => ?_
  rw [if_pos (isAt_iff.2 (h.peek_kind.trans hk))]
  refine .andThen (advance_accepts h) fun u _ hu => .pure ⟨?_, hu.2⟩
  rw [← hu.1, lexeme_erase]

theorem ident_fails (h : s.peek.kind ≠ .identifier) : Parser.Fails source s ident := by
  refine .get ?_
  rw [if_neg (mt isAt_iff.1 h)]
  exact failAt_fails

theorem word_accepts (h : s.Shows (t :: ts)) :
    Reader.Accepts source s word fun w s' => w.name = t.lexeme ∧ s'.Shows ts :=
  (advance_accepts h).bind fun _ _ hu => .pure ⟨by rw [← hu.1, lexeme_erase], hu.2⟩

theorem expectClosing_accepts {mark : Punct} (h : s.Shows (t :: ts)) (hk : t.kind = .punct mark) :
    Reader.Accepts source s (expectClosing mark) fun _ s' => s'.Shows ts := by
  refine Reader.Passes.discard (.bind (expect_accepts h hk).run fun r s' hr => ?_)
  obtain ⟨_, rfl, hs'⟩ := hr
  exact .pure hs'

theorem rounds_accepts : Reader.Accepts source s rounds fun n s' =>
    n = s.after.length + 1 ∧ s' = s :=
  .get fun _ => .pure ⟨rfl, rfl⟩

theorem advanceBy_accepts {k : Nat} (hs : s.Shows (ts ++ rest)) (hk : ts.length = k) :
    Reader.Accepts source s (advanceBy k) fun _ s' => s'.Shows rest := by
  have hle : k ≤ s.after.length := by
    rw [hs.length_after, List.length_append]
    omega
  refine .of_safe (advanceBy_safe hle) fun _ => ?_
  have hrun : (advanceBy k).run s = ((), s.advanceBy k) := by
    show (if k ≤ s.after.length then modify (ParserState.advanceBy k)
      else fault .outOfTokens : Reader Unit).run s = _
    rw [if_pos hle]
    rfl
  have herr (k : Nat) (s : ParserState) : (s.advanceBy k).errors = s.errors := by
    induction k generalizing s with
    | zero => rfl
    | succ k ih =>
      rw [ParserState.advanceBy, ih]
      cases h : s.after <;> simp [ParserState.advance, h]
  obtain ⟨us, hlen, hafter, -⟩ := (advanceBy_moves hle).tokens_eq
  rw [hrun]
  refine ⟨herr k s, ?_⟩
  have hs : erase s.after = ts ++ rest := hs
  rw [hafter, erase_append] at hs
  exact (List.append_inj hs (by rw [length_erase, hlen, hk])).2

/-- At a closing brace and at the end of the text, moving on consumes nothing. -/
theorem moveOn_stays {place : Nat} (h : s.peek.kind = .punct .rightBrace ∨ s.after = []) :
    Reader.Accepts source s (moveOn place) fun _ s' => s' = s := by
  refine .of_safe moveOn_safe fun _ => ?_
  have hadv : s.after = [] → s.advance = s := fun ha => by simp [ParserState.advance, ha]
  have hrun : ((moveOn place).run s).2 = s := by
    show (StateT.run (if s.place = place && !s.isAtMark .rightBrace then Functor.discard advance
      else Pure.pure ()) s).2 = s
    split
    · rename_i hc
      refine hadv (h.resolve_left fun hb => ?_)
      simp [isAtMark, isAt, hb] at hc
    · rfl
  rw [hrun]
  exact ⟨rfl, rfl⟩

/-- Cutting a text out consumes nothing. -/
theorem textFrom_accepts {start : Span} (h : start.Inside source) :
    Reader.Accepts source s (textFrom start) fun _ s' => s' = s := by
  refine .get fun hg => .get fun _ => ?_
  have hb : Boundary source (max s.previousSpan.stop start.offset) := by
    rcases Nat.le_total s.previousSpan.stop start.offset with hle | hle
    · rw [Nat.max_eq_right hle]
      exact h.1
    · rw [Nat.max_eq_left hle]
      exact hg.previous_inside.2
  obtain ⟨text, htext⟩ := Option.isSome_iff_exists.1
    (between?_isSome h.1 hb (Nat.le_max_right _ _))
  rw [hg.source_eq, htext]
  exact .pure rfl

/-! ## Lists -/

theorem erase_eq_of_forall₂ {α : Type} [Erase α] {as bs : List α}
    (h : List.Forall₂ (fun a b => erase a = erase b) as bs) : erase as = erase bs := by
  induction h with
  | nil => rfl
  | cons hab _ ih => rw [erase_cons, erase_cons, hab, ih]

/-- Where the condition does not hold, there is no item. -/
theorem whileAt_declines {condition : ParserState → Bool} {item : Parser α}
    (h : condition s = false) :
    Parser.Accepts source s (whileAt condition item) fun as s' => as = [] ∧ s' = s := by
  refine .loop (I := fun as s' => as = [] ∧ s' = s) ⟨rfl, rfl⟩ fun as s' hs => .get fun _ => ?_
  obtain ⟨rfl, rfl⟩ := hs
  rw [if_neg (by simp [h])]
  exact .pure ⟨rfl, rfl⟩

/-- Tokens with commas between them. -/
def commaTokens (ts : List Token) : List Token :=
  ts.intersperse (markToken .comma)

theorem commaTokens_eq (ts : List Token) : commaTokens ts = separated .comma (ts.map ([·])) := by
  induction ts with
  | nil => rfl
  | cons t ts ih =>
    cases ts with
    | nil => rfl
    | cons u us => exact congrArg (t :: markToken .comma :: ·) ih

section
variable {item : Parser α} {Q : α → β → Prop} {f : β → List Token} {bs : List β}

/-- A loop whose rounds read an item and a comma, up to a token that is none. -/
theorem commaLoop_accepts {round : List α → Parser (Round (List α) (List α))}
    (hs : s.Shows (separated .comma (bs.map f) ++ u :: rest)) (hbs : bs ≠ [])
    (hu : u.kind ≠ .punct .comma)
    (h : ∀ b ∈ bs, ∀ v us s', v = markToken .comma ∨ v = u → s'.Shows (f b ++ v :: us) →
      Parser.Accepts source s' item fun a s'' => Q a b ∧ s''.Shows (v :: us))
    (hround : ∀ b ∈ bs, ∀ as us s', s'.Shows (f b ++ us) → ∀ R : Round _ _ → ParserState → Prop,
      Parser.Accepts source s' (itemAndComma item as) R → Parser.Accepts source s' (round as) R) :
    Parser.Accepts source s (loopOrFail round []) fun as s' =>
      List.Forall₂ Q as bs ∧ s'.Shows (u :: rest) := by
  -- the items that were read, and those ahead
  refine .loop (I := fun as s' => ∃ done ahead, bs = done ++ ahead ∧ ahead ≠ [] ∧
    List.Forall₂ Q as done ∧ s'.Shows (separated .comma (ahead.map f) ++ u :: rest))
    ⟨[], bs, rfl, hbs, .nil, hs⟩ fun as s' hI => ?_
  obtain ⟨done, ahead, heq, hne, hQ, hs'⟩ := hI
  obtain ⟨b, ahead, rfl⟩ := List.exists_cons_of_ne_nil hne
  have hQ' {a : α} (ha : Q a b) : List.Forall₂ Q (as ++ [a]) (done ++ [b]) :=
    List.rel_append hQ (.cons ha .nil)
  have hmem : b ∈ bs := by simp [heq]
  cases ahead with
  | nil =>
    have hs' : s'.Shows (f b ++ u :: rest) := by simpa [separated] using hs'
    refine hround b hmem _ _ _ hs' _ ((h b hmem u rest s' (.inr rfl) hs').bind fun a s'' ha => ?_)
    refine .andThen (eat_declines (ha.2.peek_kind ▸ hu)) fun c s₃ hc => ?_
    obtain ⟨rfl, rfl⟩ := hc
    exact .pure ⟨heq ▸ hQ' ha.1, ha.2⟩
  | cons b' ahead =>
    have hs' : s'.Shows (f b ++ markToken .comma ::
        (separated .comma ((b' :: ahead).map f) ++ u :: rest)) := by
      simpa [separated, List.intercalate_cons_cons] using hs'
    refine hround b hmem _ _ _ hs' _ ((h b hmem _ _ s' (.inl rfl) hs').bind fun a s'' ha => ?_)
    refine .andThen (eat_accepts ha.2 rfl) fun c s₃ hc => ?_
    obtain ⟨rfl, hs₃⟩ := hc
    refine .pure ⟨⟨done ++ [b], b' :: ahead, by simp [heq], by simp, hQ' ha.1, hs₃⟩, ?_⟩
    rw [hs₃.length_after, hs'.length_after]
    simp only [List.length_append, List.length_cons]
    omega

/-- **Items with commas between them are read**, up to a token that is no comma, if each of them
    is read before either of these. -/
theorem commaSeparated_accepts (hs : s.Shows (separated .comma (bs.map f) ++ u :: rest))
    (hbs : bs ≠ []) (hu : u.kind ≠ .punct .comma)
    (h : ∀ b ∈ bs, ∀ v us s', v = markToken .comma ∨ v = u → s'.Shows (f b ++ v :: us) →
      Parser.Accepts source s' item fun a s'' => Q a b ∧ s''.Shows (v :: us)) :
    Parser.Accepts source s (commaSeparated item) fun as s' =>
      List.Forall₂ Q as bs ∧ s'.Shows (u :: rest) :=
  commaLoop_accepts hs hbs hu h fun _ _ _ _ _ _ _ ha => ha

/-- **Items are read as long as the condition holds before each.** -/
theorem whileAt_accepts {condition : ParserState → Bool}
    (hs : s.Shows (bs.flatMap f ++ rest)) (hpos : ∀ b ∈ bs, f b ≠ [])
    (hc : ∀ b ∈ bs, ∀ us (s' : ParserState), s'.Shows (f b ++ us) → condition s' = true)
    (hr : ∀ s' : ParserState, s'.Good source → s'.Shows rest → condition s' = false)
    (h : ∀ b ∈ bs, ∀ us s', s'.Shows (f b ++ us) →
      Parser.Accepts source s' item fun a s'' => Q a b ∧ s''.Shows us) :
    Parser.Accepts source s (whileAt condition item) fun as s' =>
      List.Forall₂ Q as bs ∧ s'.Shows rest := by
  refine .loop (I := fun as s' => ∃ done ahead, bs = done ++ ahead ∧ List.Forall₂ Q as done ∧
    s'.Shows (ahead.flatMap f ++ rest)) ⟨[], bs, rfl, .nil, hs⟩ fun as s' hI => .get fun hg => ?_
  obtain ⟨done, ahead, heq, hQ, hs'⟩ := hI
  cases ahead with
  | nil =>
    have hs' : s'.Shows rest := hs'
    rw [if_neg (by simp [hr s' hg hs'])]
    exact .pure ⟨by simpa [heq] using hQ, hs'⟩
  | cons b ahead =>
    have hs' : s'.Shows (f b ++ (ahead.flatMap f ++ rest)) := by simpa using hs'
    have hmem : b ∈ bs := by simp [heq]
    rw [if_pos (hc b hmem _ s' hs')]
    refine (h b hmem _ s' hs').bind fun a s'' ha => .pure ?_
    refine ⟨⟨done ++ [b], ahead, by simp [heq], List.rel_append hQ (.cons ha.1 .nil), ha.2⟩, ?_⟩
    have := List.length_pos_iff.2 (hpos b hmem)
    rw [ha.2.length_after, hs'.length_after, @List.length_append _ (f b)]
    omega

end

end Parser

end CommandModules

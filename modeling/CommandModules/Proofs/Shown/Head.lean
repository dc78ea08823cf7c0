/-
  Command modules — attributes and modifiers before known tokens.

  * `modifiers_accepts`: tokens that can be modifiers are read as modifiers, up to a token
    that cannot;
  * `head_reads`: attributes and modifiers that are written out are read back;
  * `modifiesBefore_of_member`: before a type and a name, a contextual word is a modifier.
-/
import Mathlib.Data.List.Nodup
import CommandModules.Proofs.Shown.Attribute

namespace CommandModules

open ParserState

variable {source : List Char} {s : ParserState} {t u : Token} {ms rest : List Token}

/-! ## Modifiers -/

/-- Do modifiers end before the token? -/
def Token.endsModifiers (t : Token) : Bool :=
  !t.kind.isModifier && t.kind != .keyword .ref &&
    !(t.kind == .identifier && Parser.contextualModifiers.contains t.lexeme)

/-- Is a contextual word before the token a modifier? -/
def Token.continuesModifiers (t : Token) : Bool :=
  Parser.takesModifiers t.kind || Parser.continuesModifiers t

theorem CanModify.continues (h : CanModify t u) : t.continuesModifiers = true := by
  unfold Token.continuesModifiers Parser.continuesModifiers
  rcases h with h | h | ⟨h, hl⟩
  · unfold TokenKind.isModifier at h
    split at h
    · rename_i k hk
      simp [hk, Parser.takesModifiers, h]
    · cases h
  · have := beq_iff_eq.1 (Bool.and_eq_true_iff.1 h).1
    simp [this, Parser.takesModifiers]
  · have := List.contains_iff_mem.1 hl
    simp [h, TokenKind.isIdentifier, this]

/-- An identifier that can be a modifier is a contextual word. -/
theorem CanModify.contextual (h : CanModify t u) (ht : t.kind = .identifier) :
    Parser.contextualModifiers.contains t.lexeme = true := by
  rcases h with h | h | ⟨-, h⟩
  · simp [ht, TokenKind.isModifier] at h
  · simp [isRefBefore, ht] at h
  · exact h

/-! ## Modifiers that are written out -/

theorem Modifier.keyword_of_ofKeyword? {w : String} {f : Modifier} (h : ofKeyword? w = some f) :
    f.keyword = w :=
  beq_iff_eq.1 (List.find?_some (p := fun m : Modifier => m.keyword == w) h)

theorem modifierFlags_nodup {ws : List String} (h : ws.Nodup) : (modifierFlags ws).Nodup := by
  refine List.Nodup.filterMap (fun w w' f hw hw' => ?_) h
  rw [← Modifier.keyword_of_ofKeyword? hw, ← Modifier.keyword_of_ofKeyword? hw']

theorem isChain_of_forall {α : Type} {R : α → α → Prop} {as : List α} {a : α}
    (h : ∀ b ∈ as, ∀ c, R b c) : (as ++ [a]).IsChain R := by
  induction as with
  | nil => exact .singleton a
  | cons b bs ih =>
    obtain ⟨hb, hbs⟩ := List.forall_mem_cons.1 h
    cases bs with
    | nil => exact List.isChain_pair.2 (hb a)
    | cons c cs => exact List.isChain_cons_cons.2 ⟨hb c, ih hbs⟩

theorem WrittenModifiers.lexeme_tokens (m : WrittenModifiers) :
    m.tokens.map Token.lexeme = m.words.map Ident.name := by
  simp [WrittenModifiers.tokens, wordToken]

theorem WrittenModifiers.IsPrintable.canModify {m : WrittenModifiers} (hm : m.IsPrintable)
    (ht : t ∈ m.tokens) (u : Token) : CanModify t u := by
  obtain ⟨w, hw, rfl⟩ := List.mem_map.1 ht
  rcases hm.words w hw with h | h
  · exact .inl h
  · rw [h]
    exact .inr (.inr ⟨by decide +kernel, by decide +kernel⟩)

namespace Parser

/-! ## Reading modifiers -/


theorem isAtModifier_declines (h : s.peek.endsModifiers = true) :
    Reader.Accepts source s isAtModifier fun b s' => b = false ∧ s' = s := by
  simp only [Token.endsModifiers, Bool.and_eq_true, Bool.not_eq_true', bne_iff_ne, ne_eq] at h
  refine .get fun _ => ?_
  rw [if_neg (by simp [h.1.1, isAtRefModifier, isAt, h.1.2])]
  refine .get fun _ => ?_
  rw [if_neg (by simpa [isAt] using h.2)]
  exact .pure ⟨rfl, rfl⟩

/-- Where the tokens `t` and `ahead` stand, the word `t` is taken for a modifier. -/
def ModifiesBefore (source : List Char) (t : Token) (ahead : List Token) : Prop :=
  ∀ s : ParserState, s.Shows (t :: ahead) →
    Reader.Accepts source s isContextualModifier fun b s' => b = true ∧ s'.Shows (t :: ahead)

theorem modifiesBefore_of_continues (hk : t.kind = .identifier)
    (hl : contextualModifiers.contains t.lexeme = true) (hu : u.continuesModifiers = true) :
    ModifiesBefore source t (u :: rest) := by
  intro s hs
  have hnext : erase (s.peekAt 1) = u := hs.peekAt (n := 1) rfl
  have hcont : (takesModifiers (s.peekAt 1).kind || continuesModifiers (s.peekAt 1)) = true := by
    rw [← hnext] at hu
    exact hu
  have hmem := List.contains_iff_mem.1 hl
  refine .get fun _ => ?_
  rw [if_pos (by simp [isAt, hs.peek_kind, hs.peek_lexeme, hk, hmem])]
  dsimp only
  rw [if_pos hcont]
  exact .pure ⟨rfl, hs⟩

theorem isAtModifier_accepts (hs : s.Shows (t :: u :: rest)) (h : CanModify t u)
    (hu : t.kind = .identifier → ModifiesBefore source t (u :: rest)) :
    Reader.Accepts source s isAtModifier fun b s' => b = true ∧ s'.Shows (t :: u :: rest) := by
  have hnext : erase (s.peekAt 1) = u := hs.peekAt (n := 1) rfl
  refine .get fun _ => ?_
  split
  · exact .pure ⟨rfl, hs⟩
  rename_i hc
  rw [Bool.or_eq_true, not_or, hs.peek_kind] at hc
  rcases h with h | h | ⟨hk, -⟩
  · exact absurd h hc.1
  · refine absurd ?_ hc.2
    rw [← hs.peek, ← hnext] at h
    exact h
  · exact hu hk s hs

/-- One more modifier, where the words before it are `ws`. -/
theorem modifierAfter_accepts {m : WrittenModifiers} {ws : List String}
    (hs : s.Shows (t :: u :: rest)) (h : CanModify t u)
    (hu : t.kind = .identifier → ModifiesBefore source t (u :: rest)) (hm : m.Words ws)
    (hn : (modifierFlags (ws ++ [t.lexeme])).Nodup) (hn' : (modifierFlags ws).Nodup) :
    Reader.Accepts source s (modifierAfter m) fun r s' =>
      ∃ m, r = .next m ∧ m.Words (ws ++ [t.lexeme]) ∧ s'.Shows (u :: rest) := by
  refine (isAtModifier_accepts hs h hu).bind fun b s₁ h₁ => ?_
  obtain ⟨rfl, h₁⟩ := h₁
  refine (word_accepts h₁).bind fun w s₂ h₂ => ?_
  have hrep : isRepeated m w = false := by
    rw [← hm.nodup_add hn', h₂.1]
    exact hn
  simp only [hrep, Bool.false_eq_true, if_false]
  exact .pure ⟨_, rfl, h₂.1 ▸ hm.add, h₂.2⟩

/-- **Tokens that can be modifiers are read as modifiers**, if none repeats another one, up
    to a token that can be none. -/
theorem modifiers_accepts (hs : s.Shows (ms ++ u :: rest)) (hc : (ms ++ [u]).IsChain CanModify)
    (hn : (modifierFlags (ms.map Token.lexeme)).Nodup) (hu : u.endsModifiers = true)
    (hu' : ∀ t ∈ ms, t.kind = .identifier → contextualModifiers.contains t.lexeme = true →
      ModifiesBefore source t (u :: rest)) :
    Reader.Accepts source s modifiers fun m s' =>
      m.Words (ms.map Token.lexeme) ∧ s'.Shows (u :: rest) := by
  refine .loop (I := fun m s' => ∃ as bs, ms = as ++ bs ∧ m.Words (as.map Token.lexeme) ∧
    s'.Shows (bs ++ u :: rest)) ⟨[], ms, rfl, .nil, hs⟩ fun m s' hI => ?_
  obtain ⟨as, bs, rfl, hm, hs'⟩ := hI
  cases bs with
  | nil =>
    have hend : s'.peek.endsModifiers = true := by
      rw [← hu, ← ParserState.Shows.peek hs']
      rfl
    refine (isAtModifier_declines hend).bind fun b s₁ h₁ => ?_
    obtain ⟨rfl, rfl⟩ := h₁
    exact .pure ⟨by simpa using hm, hs'⟩
  | cons t bs =>
    have hsub {xs ys : List Token} : List.Sublist (modifierFlags (xs.map Token.lexeme))
        (modifierFlags ((xs ++ ys).map Token.lexeme)) := by
      rw [List.map_append, modifierFlags, modifierFlags, List.filterMap_append]
      exact List.sublist_append_left _ _
    have hn₁ : (modifierFlags (as.map Token.lexeme ++ [t.lexeme])).Nodup := by
      have := (@hsub (as ++ [t]) bs).nodup (by simpa using hn)
      simpa using this
    -- what comes next is one more modifier or the token at which they end
    obtain ⟨v, vs, hv, hcan, hmodifies⟩ : ∃ v vs, bs ++ u :: rest = v :: vs ∧ CanModify t v ∧
        (t.kind = .identifier → ModifiesBefore source t (v :: vs)) := by
      rw [List.append_assoc] at hc
      have hc := hc.right_of_append
      cases bs with
      | nil =>
        have hcan := List.isChain_pair.1 hc
        exact ⟨u, rest, rfl, hcan, fun hk => hu' t (by simp) hk (hcan.contextual hk)⟩
      | cons v vs =>
        have hc := List.isChain_cons_cons.1 hc
        have hcont : v.continuesModifiers = true := by
          cases vs with
          | nil => exact (List.isChain_pair.1 hc.2).continues
          | cons => exact (List.isChain_cons_cons.1 hc.2).1.continues
        refine ⟨v, vs ++ u :: rest, rfl, hc.1, fun hk => modifiesBefore_of_continues hk ?_ hcont⟩
        exact hc.1.contextual hk
    have hs₁ : s'.Shows (t :: v :: vs) := hv ▸ hs'
    refine (modifierAfter_accepts hs₁ hcan hmodifies hm hn₁ (hsub.nodup hn)).mono fun r s₁ hr => ?_
    obtain ⟨m', rfl, hm', h₁⟩ := hr
    refine ⟨⟨as ++ [t], bs, by simp, by simpa using hm', hv ▸ h₁⟩, ?_⟩
    rw [h₁.length_after, hs₁.length_after]
    simp

theorem attributeSections_declines (h : s.peek.kind ≠ .punct .leftBracket) :
    Parser.Accepts source s attributeSections fun as s' => as = [] ∧ s' = s :=
  whileAt_declines (by simpa using mt isAtMark_iff.1 h)

/-- The modifiers that stand here. -/
theorem head_accepts (hs : s.Shows (ms ++ u :: rest)) (hc : (ms ++ [u]).IsChain CanModify)
    (hn : (modifierFlags (ms.map Token.lexeme)).Nodup) (hu : u.endsModifiers = true)
    (hu' : ∀ t ∈ ms, t.kind = .identifier → contextualModifiers.contains t.lexeme = true →
      ModifiesBefore source t (u :: rest))
    (hb : s.peek.kind ≠ .punct .leftBracket) :
    Parser.Accepts source s head fun h s' => h.attributes = [] ∧
      h.modifiers.Words (ms.map Token.lexeme) ∧ s'.Shows (u :: rest) := by
  refine .get fun _ => (attributeSections_declines hb).bind fun as s₁ h₁ => ?_
  obtain ⟨rfl, rfl⟩ := h₁
  exact .andThen (modifiers_accepts hs hc hn hu hu') fun m s₂ h₂ => .pure ⟨rfl, h₂⟩

theorem modifiers_reads {m : WrittenModifiers} (hm : m.IsPrintable)
    (hs : s.Shows (m.tokens ++ u :: rest)) (hu : u.endsModifiers = true)
    (hu' : ∀ t, t.kind = .identifier → contextualModifiers.contains t.lexeme = true →
      ModifiesBefore source t (u :: rest)) :
    Reader.Accepts source s modifiers fun x s' => erase x = erase m ∧ s'.Shows (u :: rest) := by
  have hn : (modifierFlags (m.tokens.map Token.lexeme)).Nodup := by
    rw [m.lexeme_tokens]
    exact modifierFlags_nodup hm.nodup
  refine (modifiers_accepts hs (isChain_of_forall fun t ht v => hm.canModify ht v) hn hu
    fun t _ => hu' t).mono fun x s' h => ⟨?_, h.2⟩
  obtain ⟨flags, words⟩ := x
  obtain ⟨flags', words'⟩ := m
  obtain ⟨hnames, hflags⟩ := h.1
  rw [WrittenModifiers.lexeme_tokens] at hnames hflags
  have herase (is : List Ident) : erase is = is.map fun i => (⟨i.name, default⟩ : Ident) := rfl
  have hwords : erase words = erase words' := by
    have := congrArg (List.map fun w => (⟨w, default⟩ : Ident)) hnames
    simpa [herase, Function.comp_def] using this
  have hflags' : flags = flags' := hflags.trans hm.flags.symm
  simp [hwords, hflags']

/-- **Attributes and modifiers that are written out are read back.** -/
theorem head_reads {as : List AttributeSection} {m : WrittenModifiers}
    (has : ∀ a ∈ as, a.IsPrintable) (hm : m.IsPrintable)
    (hs : s.Shows (headTokens as m ++ u :: rest)) (hu : u.endsModifiers = true)
    (hb : u.kind ≠ .punct .leftBracket)
    (hu' : ∀ t, t.kind = .identifier → contextualModifiers.contains t.lexeme = true →
      ModifiesBefore source t (u :: rest)) :
    Parser.Accepts source s head fun h s' => erase h.attributes = erase as ∧
      erase h.modifiers = erase m ∧ s'.Shows (u :: rest) := by
  rw [headTokens, List.append_assoc] at hs
  have hnext : ∀ t, (m.tokens ++ u :: rest).head? = some t → t.kind ≠ .punct .leftBracket := by
    intro t ht
    rcases hwords : m.tokens with _ | ⟨v, vs⟩
    · rw [hwords] at ht
      obtain rfl : u = t := Option.some_inj.1 ht
      exact hb
    · rw [hwords] at ht
      obtain rfl : v = t := Option.some_inj.1 ht
      intro hk
      have := (hm.canModify (hwords ▸ List.mem_cons_self) v).isWord
      rw [hk] at this
      cases this
  refine .get fun _ => (attributeSections_reads has hnext hs).bind fun xs s₁ h₁ => ?_
  exact .andThen (modifiers_reads hm h₁.2 hu hu') fun x s₂ h₂ => .pure ⟨h₁.1, h₂⟩

/-! ## Where types begin -/

/-- A type that begins with no contextual word does not begin with a modifier. -/
theorem endsModifiers_of_beginsType (h : t.beginsType = true) (hp : t.IsPlain) :
    t.endsModifiers = true := by
  obtain ⟨kind, lexeme, span⟩ := t
  cases kind with
  | keyword k => cases k <;> first | rfl | cases h
  | identifier =>
    have hne : lexeme ∉ contextualModifiers := by
      have : lexeme ∉ contextualWords := hp rfl
      simp only [contextualWords, contextualModifiers, List.mem_cons, not_or] at this ⊢
      simp [this]
    simp [Token.endsModifiers, TokenKind.isModifier, hne]
  | punct p => rfl
  | _ => cases h

theorem ne_bracket_of_beginsType (h : t.beginsType = true) : t.kind ≠ .punct .leftBracket := by
  intro hk
  simp [Token.beginsType, hk, TokenKind.isPredefinedType] at h

theorem type?_accepts {x : TypeSyntax} (hx : x.IsPrintable) (hs : s.Shows (x.tokens ++ rest))
    (hr : EndsType rest) : Reader.Accepts source s type? fun x? s' => x?.isSome = true ∧
      s'.Shows rest := by
  refine .get fun _ => (type_reads hx hs hr).run.bind fun r s₁ h₁ => ?_
  obtain ⟨y, rfl, -, h₁⟩ := h₁
  exact .pure ⟨rfl, h₁⟩

theorem declaresMember_accepts {x : TypeSyntax} (hx : x.IsPrintable)
    (hs : s.Shows (t :: (x.tokens ++ u :: rest))) (hu : u.kind = .identifier) :
    Reader.Accepts source s declaresMember fun b s' =>
      b = true ∧ s'.Shows (t :: (x.tokens ++ u :: rest)) := by
  refine .of_safe declaresMember_safe fun hg => ?_
  -- what is behind the word, before its place is taken again
  have hend : EndsType (u :: rest) := .cons (by simp [Token.endsType, hu])
  have hread : Reader.Accepts source s (discard advance >>= fun _ => type?) fun x? s' =>
      x?.isSome = true ∧ s'.Shows (u :: rest) :=
    (advance_shows hs).discard.bind fun _ s₁ h₁ => type?_accepts hx h₁ hend
  obtain ⟨-, -, hread, -⟩ := hread hg
  obtain ⟨herr, hsome, hshows⟩ := hread ⟨⟩
  generalize hr : (discard advance >>= fun _ => type?).run s = r at herr hsome hshows
  obtain ⟨x?, s'⟩ := r
  have hrun : declaresMember.run s = (x?.isSome &&
      (s'.isAt .identifier || s'.isAt (.keyword .this) || s'.isAt (.keyword .operator)),
        s'.returnTo s) := by
    show (let r := (discard advance >>= fun _ => type?).run s; (r.1.isSome &&
      (r.2.isAt .identifier || r.2.isAt (.keyword .this) || r.2.isAt (.keyword .operator)),
        r.2.returnTo s)) = _
    rw [hr]
  rw [hrun]
  exact ⟨herr, by simp_all [isAt, hshows.peek_kind], hs⟩

/-- Before a type and a name, a contextual word is a modifier. -/
theorem modifiesBefore_of_member {x : TypeSyntax} (hx : x.IsPrintable) (ht : t.kind = .identifier)
    (hl : contextualModifiers.contains t.lexeme = true) (hu : u.kind = .identifier) :
    ModifiesBefore source t (x.tokens ++ u :: rest) := by
  intro s hs
  have hmem := List.contains_iff_mem.1 hl
  refine .get fun _ => ?_
  rw [if_pos (by simp [isAt, hs.peek_kind, hs.peek_lexeme, ht, hmem])]
  dsimp only
  split
  · exact .pure ⟨rfl, hs⟩
  · exact declaresMember_accepts hx hs hu

end Parser

end CommandModules

/-
  Command modules — the tokens of modifiers.

  * `WrittenModifiers.Words m ws`: the modifiers are the words `ws`, and their flags are
    those of the words;
  * `CanModify t u`: the token `t` can be a modifier if `u` comes next;
  * `WrittenModifiers.Written m ts u`: the modifiers are read from the tokens `ts`, none
    of which repeats another one, before the token `u`;
  * `modifiers_gives`: so are the modifiers of a declaration.
-/
import Mathlib.Data.List.Chain
import CommandModules.Proofs.Taken.Type
import CommandModules.Syntax.Parser.Modifier

namespace CommandModules

open ParserState

/-! ## Words and flags -/

/-- The flags of words. -/
def modifierFlags (ws : List String) : List Modifier :=
  ws.filterMap Modifier.ofKeyword?

namespace Modifiers

theorem ofList_append (fs : List Modifier) (f : Modifier) :
    ofList (fs ++ [f]) = (ofList fs).union (singleton f) := by
  rw [ofList, List.foldl_append]
  rfl

theorem contains_ofList {fs : List Modifier} {f : Modifier} :
    (ofList fs).contains f = true ↔ f ∈ fs := by
  induction fs using List.reverseRecOn with
  | nil => simp [ofList]
  | append_singleton fs g ih =>
    simp only [ofList_append, contains_union, Bool.or_eq_true, ih, contains_singleton,
      decide_eq_true_eq, List.mem_append, List.mem_singleton]
    exact or_congr_right eq_comm

end Modifiers

/-- The modifiers are these words. -/
structure WrittenModifiers.Words (m : WrittenModifiers) (ws : List String) : Prop where
  names_eq : m.words.map Ident.name = ws
  flags_eq : m.flags = .ofList (modifierFlags ws)

namespace WrittenModifiers.Words

variable {m : WrittenModifiers} {ws : List String} {w : Ident}

theorem nil : (⟨.none, []⟩ : WrittenModifiers).Words [] :=
  ⟨rfl, rfl⟩

theorem add (h : m.Words ws) : (Parser.addModifier m w).Words (ws ++ [w.name]) := by
  unfold Parser.addModifier
  cases hw : Modifier.ofKeyword? w.name with
  | none => exact ⟨by simp [h.names_eq], by simp [h.flags_eq, modifierFlags, hw]⟩
  | some f =>
    refine ⟨by simp [h.names_eq], ?_⟩
    simp [h.flags_eq, modifierFlags, hw, Modifiers.ofList_append]

/-- A word is repeated if its flag is among those of the words before it. -/
theorem isRepeated_iff (h : m.Words ws) : Parser.isRepeated m w = true ↔
    ∃ f, Modifier.ofKeyword? w.name = some f ∧ f ∈ modifierFlags ws := by
  unfold Parser.isRepeated
  cases Modifier.ofKeyword? w.name with
  | none => simp
  | some f => simp [h.flags_eq, Modifiers.contains_ofList]

theorem nodup_add (h : m.Words ws) (hn : (modifierFlags ws).Nodup) :
    (modifierFlags (ws ++ [w.name])).Nodup ↔ Parser.isRepeated m w = false := by
  rw [← Bool.not_eq_true, h.isRepeated_iff]
  cases hw : Modifier.ofKeyword? w.name with
  | none => simpa [modifierFlags, hw] using hn
  | some f =>
    have happend : modifierFlags (ws ++ [w.name]) = modifierFlags ws ++ [f] := by
      simp [modifierFlags, hw]
    rw [happend, List.nodup_append]
    constructor
    · rintro ⟨-, -, hne⟩ ⟨g, hg, hmem⟩
      exact hne g hmem f (by simp) (Option.some_inj.1 hg).symm
    · intro hf
      refine ⟨hn, by simp, fun g hmem f' hf' hgf => hf ⟨f, rfl, ?_⟩⟩
      rwa [← List.mem_singleton.1 hf', ← hgf]

end WrittenModifiers.Words

/-! ## Tokens that are modifiers -/

/-- Is the token the `ref` of `ref struct`, if the other one comes next? -/
def isRefBefore (t u : Token) : Bool :=
  t.kind == .keyword .ref &&
    (u.kind == .keyword .struct || u.kind == .keyword .readonly || u.isContextual "partial")

/-- Can the token be a modifier, if the other one comes next? -/
def CanModify (t u : Token) : Prop :=
  t.kind.isModifier = true ∨ isRefBefore t u = true ∨
    t.kind = .identifier ∧ Parser.contextualModifiers.contains t.lexeme = true

theorem CanModify.isWord {t u : Token} (h : CanModify t u) : t.kind.isWord = true := by
  rcases h with h | h | ⟨h, -⟩
  · unfold TokenKind.isModifier at h
    split at h
    · simp [*, TokenKind.isWord, TokenKind.isKeyword]
    · cases h
  · have := beq_iff_eq.1 (Bool.and_eq_true_iff.1 h).1
    simp [this, TokenKind.isWord, TokenKind.isKeyword]
  · simp [h, TokenKind.isWord, TokenKind.isIdentifier]

/-- The modifiers are read from the tokens `ts`, before the token `u`. -/
structure WrittenModifiers.Written (m : WrittenModifiers) (ts : List Token) (u : Token) : Prop where
  words : m.Words (ts.map Token.lexeme)
  nodup : (modifierFlags (ts.map Token.lexeme)).Nodup
  worded : ∀ t ∈ ts, IsWord t.lexeme t.kind
  canModify : (ts ++ [u]).IsChain CanModify

namespace Parser

variable {source : List Char} {s : ParserState}

/-! ## Reading modifiers -/

theorem isContextualModifier_gives : Reader.Gives source s isContextualModifier fun b ts _ =>
    ts = [] ∧ (b = true → s.peek.kind = .identifier ∧
      contextualModifiers.contains s.peek.lexeme = true) := by
  refine .get fun _ _ => ?_
  split
  · rename_i hc
    obtain ⟨hi, hl⟩ := Bool.and_eq_true_iff.1 hc
    have hi := beq_iff_eq.1 hi
    dsimp only
    split
    · exact .pure ⟨rfl, fun _ => ⟨hi, hl⟩⟩
    · refine (Reader.Gives.of_safe declaresMember_safe).mono fun _ _ _ hk => ?_
      exact ⟨List.eq_nil_of_length_eq_zero hk, fun _ => ⟨hi, hl⟩⟩
  · exact .pure ⟨rfl, nofun⟩

theorem isAtModifier_gives : Reader.Gives source s isAtModifier fun b ts _ =>
    ts = [] ∧ (b = true → CanModify s.peek (s.peekAt 1) ∧ IsWord s.peek.lexeme s.peek.kind) := by
  refine .get fun hg _ => ?_
  have hword (h : CanModify s.peek (s.peekAt 1)) : CanModify s.peek (s.peekAt 1) ∧
      IsWord s.peek.lexeme s.peek.kind :=
    ⟨h, hg.worded _ (Good.peek_eq s ▸ Good.peekAt_mem s 0) h.isWord⟩
  split
  · rename_i hc
    exact .pure ⟨rfl, fun _ => hword ((Bool.or_eq_true_iff.1 hc).imp_right .inl)⟩
  · refine isContextualModifier_gives.mono fun _ _ _ hb => ⟨hb.1, fun h => ?_⟩
    exact hword (.inr (.inr (hb.2 h)))

theorem word_gives (h : s.peek.kind ≠ .eof) : Reader.Gives source s word fun w ts _ =>
    w.name = s.peek.lexeme ∧ ts = [s.peek] :=
  (advance_gives h).bind fun t ts _ _ => .pure fun ht => by
    rw [List.append_nil]
    exact ⟨by rw [ht.1], ht.2⟩

theorem report_gives {e : ParseError} (h : e.span.Inside source)
    {R : Unit → List Token → ParserState → Prop} : Reader.Gives source s (report e) R := by
  intro hs _
  obtain ⟨k, hk, -⟩ := report_safe h hs
  obtain ⟨ts, -, ht⟩ := hk.takes
  refine ⟨ts, ht, fun he => ?_⟩
  have hne : (report e).run s = ((), s.report e) := rfl
  simp [hne, ParserState.report] at he

/-- The token behind the current one. -/
theorem peek_of_takes_peek {s' : ParserState} (h : Takes [s.peek] s s') : s'.peek = s.peekAt 1 :=
  peek_of_takes_one h ⟨s.peek, rfl, rfl⟩

/-- One more modifier, before the token that comes next. -/
theorem modifierAfter_gives {m : WrittenModifiers} {ts : List Token} :
    Reader.Gives source s (modifierAfter m) fun r us s' => m.Written ts s.peek →
      r.Leads (fun m us s' => m.Written us s'.peek) (fun m us s' => m.Written us s'.peek)
        (ts ++ us) s' := by
  refine .bind_safe isAtModifier_safe isAtModifier_gives fun b us s₁ h₁ hb => ?_
  obtain rfl : us = [] := List.eq_nil_of_length_eq_zero hb.1
  have hpeek : s₁.peek = s.peek := h₁.moves.peek_eq
  split
  · have hne : s₁.peek.kind ≠ .eof := hpeek ▸ hb.2 ‹_›
    refine .bind_safe (word_consumes hne) (word_gives hne) fun w us s₂ h₂ hw => ?_
    refine .join (q := Pure.pure ()) (R := fun _ us _ => us = [] ∧ isRepeated m w = false)
      (fun _ => report_gives hw.1) (fun hc => .pure ⟨rfl, by simpa using hc⟩) fun _ vs s₃ h₃ => ?_
    refine .pure fun hv hu hcan hm => ?_
    obtain ⟨rfl, hrep⟩ := hv
    obtain ⟨hname, rfl⟩ := hu
    have hnext : s₃.peek = s.peekAt 1 := by
      rw [h₃.moves.peek_eq, peek_of_takes_peek h₂, peekAt, h₁.moves.after_eq, h₁.moves.eof_eq]
      rfl
    have hwords := hm.words.add (w := w)
    have hnodup := (hm.words.nodup_add (w := w) hm.nodup).2 hrep
    rw [hname, hpeek] at hwords hnodup
    obtain ⟨hstep, hword⟩ := hcan.2 ‹_›
    simp only [Round.Leads, List.nil_append, List.append_nil, hpeek]
    refine ⟨by simpa using hwords, by simpa using hnodup, fun t ht => ?_, ?_⟩
    · rcases List.mem_append.1 ht with ht | ht
      · exact hm.worded t ht
      · rw [List.mem_singleton.1 ht]
        exact hword
    · rw [hnext]
      exact hm.canModify.append_overlap (List.isChain_pair.2 hstep) (by simp)
  · refine .pure fun _ hm => ?_
    simpa [Round.Leads, hpeek] using hm

/-- **The modifiers of a declaration are read from tokens that can be modifiers**, each
    before the one that comes next, and none of them repeats another one. -/
theorem modifiers_gives : Reader.Gives source s modifiers fun m ts s' => m.Written ts s'.peek :=
  .loop (I := fun m ts s' => m.Written ts s'.peek) (fun _ _ _ _ => modifierAfter_safe)
    ⟨.nil, .nil, by simp, .singleton _⟩ fun _ _ _ _ => modifierAfter_gives

end Parser

end CommandModules

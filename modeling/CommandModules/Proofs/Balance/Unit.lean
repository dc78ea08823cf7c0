/-
  Command modules — whole texts leave no mark open.

  * `membersWithin_turns`, `entriesWithin_turns`: the members of a type and the entries of a
    namespace leave no mark open;
  * `synchronize_turns`: what is passed over behind `extern` is a passage of the tokens;
  * `parse_nested`: the tokens of a text that was read without an error are nested, if the
    passages among them are that are passed over without a glance.
-/
import CommandModules.Proofs.Balance.Member
import CommandModules.Proofs.Taken.Unit

namespace CommandModules

open ParserState

variable {source : List Char} {s : ParserState} {marks : List Punct}

namespace Parser

/-! ## Types -/

theorem isAtType_isFlat (h : isAtType s = true) : s.peek.isFlat = true := by
  refine Token.isFlat_of_kind fun p hp => ?_
  simp [isAtType, isAtRecord, Token.isContextual, hp] at h

theorem typeKind_turns (h : s.peek.isFlat = true) : Reader.Turns source s typeKind marks marks := by
  refine (advance_turns h).bind fun _ _ _ _ => ?_
  split
  case h_5 =>
    refine eatWord_turns.bind fun _ _ _ _ => ?_
    split
    · exact .pure
    · exact eatWord_turns.discard.bind fun _ _ _ _ => .pure
  all_goals exact .pure

theorem baseType_turns : Parser.Turns source s baseType marks marks := by
  refine type_turns.bind fun _ _ _ _ => .get fun _ => ?_
  exact .after (fun h => .lift (skipGroup_turns_at h (by decide))) fun _ _ _ => .pure

theorem baseTypes_turns : Parser.Turns source s baseTypes marks marks := by
  refine .andThen (eatMark_turns (by decide)) fun _ _ _ _ => ?_
  split
  · exact commaSeparated_turns (fun _ _ _ => baseType_safe) fun _ _ _ => baseType_turns
  · exact .pure

theorem enumMemberAfter_turns {ms : List Member} :
    Reader.Turns source s (enumMemberAfter ms) marks marks := by
  refine .get fun _ => ?_
  split
  · refine (orRecover_turns enumMember_safe enumMember_turns).bind fun m? _ _ _ => ?_
    cases m? with
    | some m =>
      refine (eatMark_turns (by decide)).bind fun _ _ _ _ => ?_
      split <;> exact .pure
    | none => exact .pure
  · exact .pure

theorem enumMembers_turns : Reader.Turns source s enumMembers marks marks :=
  .loop (fun _ _ _ _ => enumMemberAfter_safe.mono fun _ _ h => h.1)
    fun _ _ _ _ => enumMemberAfter_turns

section
variable {members : Reader (List Member)} {n : Nat}
  (hs : ∀ s', s'.after.length < n →
    Reader.Safe source s' members fun ms _ => Member.AllWorded ms)
  (h : ∀ s' marks, s'.after.length < n → Reader.Turns source s' members marks marks)
include h

theorem typeBody_turns (hn : s.after.length ≤ n) :
    Parser.Turns source s (typeBody members) marks marks := by
  refine .andThen (eatMark_turns (by decide)) fun _ _ _ h₁ => ?_
  split
  · exact .pure
  refine .bind_safe expectMark_safe.discard (expectMark_opens (by decide)).discard
    fun _ _ s₂ h₂ hpos => ?_
  have := h₁.moves.length_after
  have := h₂.moves.length_after
  refine .andThen (h s₂ _ (by omega)) fun _ _ _ _ => ?_
  refine .andThen (expectClosing_turns (o := .leftBrace) rfl) fun _ _ _ _ => ?_
  exact (Parser.Turns.lift (eatMark_turns (by decide))).discard.bind fun _ _ _ _ => .pure

theorem typeWithMembers_turns {head : Head} (hn : s.after.length ≤ n) (hk : s.peek.isFlat = true) :
    Parser.Turns source s (typeWithMembers members head) marks marks := by
  refine .andThen (typeKind_turns hk) fun kind _ _ h₁ => ident_turns.bind fun _ _ _ h₂ => ?_
  refine typeParameters_turns.bind fun _ _ _ h₃ => .get fun _ => ?_
  refine .join (fun _ => .map parameters_turns) (fun _ => .pure) fun _ _ _ h₄ => ?_
  refine baseTypes_turns.bind fun _ _ _ h₅ => constraintClauses_turns.bind fun _ _ _ h₆ => ?_
  have hlen := (h₁.trans <| h₂.trans <| h₃.trans <| h₄.trans <| h₅.trans h₆).moves.length_after
  refine (typeBody_turns (n := n) (fun s' marks hs' => ?_) (by omega)).bind
    fun _ _ _ _ => .get fun _ => .pure
  split
  · exact enumMembers_turns
  · exact h s' marks hs'

theorem memberWith_turns (hn : s.after.length ≤ n) :
    Parser.Turns source s (memberWith members) marks marks := by
  refine .andThen (eatMark_turns (by decide)) fun _ _ _ h₁ => ?_
  split
  · exact .pure
  refine head_turns.bind fun _ _ _ h₂ => .get fun _ => ?_
  have hlen := (h₁.trans h₂).moves.length_after
  split
  · exact (typeWithMembers_turns h (by omega) (isAtType_isFlat ‹_›)).bind fun _ _ _ _ => .pure
  · exact memberAfter_turns.bind fun _ _ _ _ => .pure

include hs

theorem memberStep_turns {ms : List Member} (hn : s.after.length ≤ n) :
    Reader.Turns source s (memberStep members ms) marks marks := by
  refine .get fun _ => ?_
  split
  · exact fun ht => andMoveOn_gives (f := fun m? => Round.next (ms ++ m?.join.toList))
      (orRecover_consumes ((memberWith_safe hs hn).mono fun _ _ hm => hm.2)
        (memberWith_turns h hn) ht)
  · exact .pure

end

theorem membersWithin_turns {depth : Nat} (h : s.after.length < depth) :
    Reader.Turns source s (membersWithin depth) marks marks := by
  induction depth generalizing s marks with
  | zero => omega
  | succ depth ih =>
    have hs (s' : ParserState) (h' : s'.after.length < depth) :
        Reader.Safe source s' (membersWithin depth) fun ms _ => Member.AllWorded ms :=
      membersWithin_safe h'
    refine .loop (fun _ _ s' h' => ?_) fun _ _ s' h' => ?_
    · have := h'.length_after
      exact memberStep_consumes hs (by omega)
    · have := h'.moves.length_after
      exact memberStep_turns hs (fun _ _ => ih) (by omega)

theorem typeDeclaration_turns {head : Head} (hk : s.peek.isFlat = true) :
    Parser.Turns source s (typeDeclaration head) marks marks := by
  refine typeWithMembers_turns (fun s' marks _ => ?_) (Nat.le_refl s.after.length) hk
  refine .bind_safe rounds_safe rounds_turns fun _ _ s₁ h₁ hr => ?_
  obtain ⟨hr, rfl⟩ := hr
  have := h₁.moves.length_after
  exact membersWithin_turns (by omega)

/-! ## Namespaces -/

theorem usingAlias_turns : Parser.Turns source s usingAlias marks marks := by
  refine .get fun _ => ?_
  split
  · rename_i hc
    obtain ⟨hword, hmark⟩ := Bool.and_eq_true_iff.1 hc
    refine parseAndAdvance_turns (ident_gives.mono fun _ _ _ hi => ?_)
      (isFlat_of_isAt hword nofun) (by simp [Token.isFlat, beq_iff_eq.1 hmark]; decide)
    obtain ⟨t, rfl, -⟩ := hi.2
    rfl
  · exact .pure

theorem using_turns : Parser.Turns source s using_ marks marks := by
  refine .get fun _ => .after (fun h => (Parser.Turns.lift (advance_turns ?_)).discard)
    fun _ _ _ => ?_
  · refine isFlat_of_isWord ?_
    simp [TokenKind.isWord, TokenKind.isIdentifier, (Bool.and_eq_true_iff.1 h).1]
  refine expectWord_turns.discard.bind fun _ _ _ _ => .andThen eatWord_turns fun _ _ _ _ => ?_
  refine usingAlias_turns.bind fun _ _ _ _ => name_turns.bind fun _ _ _ _ => ?_
  exact (expectMark_turns (by decide)).discard.bind fun _ _ _ _ => .get fun _ => .pure

/-- The end of a declaration is looked for in a passage of the tokens. -/
theorem synchronize_gives : Reader.Gives source s synchronize fun _ ts _ =>
    ∃ us, ts = upTo endsDirective [] s.after ++ us ∧ Nested us := by
  refine .loop (I := fun _ ts s' => ts ++ upTo endsDirective [] s'.after =
    upTo endsDirective [] s.after) (fun _ _ _ _ => synchronizeStep_safe.mono fun _ _ hr => hr.1) rfl
    fun _ ts s' _ => .get fun _ _ => ?_
  have ends (hend : endsDirective s'.peek = true) {us : List Token} (hu : Nested us)
      (hI : ts ++ upTo endsDirective [] s'.after = upTo endsDirective [] s.after) :
      ∃ us', ts ++ us = upTo endsDirective [] s.after ++ us' ∧ Nested us' := by
    rw [upTo_of_stop hend, List.append_nil] at hI
    exact ⟨us, by rw [hI], hu⟩
  split
  · rename_i hend
    have hend : endsDirective s'.peek = true := by
      simp only [isAtEof, isAtMark, isAt, Bool.or_eq_true] at hend
      simp only [endsDirective, Bool.or_eq_true]
      tauto
    exact .pure (ends hend .nil)
  split
  · rename_i hmark
    refine (advance_takes_one (peek_ne_eof_of_mark hmark)).discard.bind fun _ us _ _ =>
      .pure fun hu hI => ?_
    rw [List.append_nil]
    have hone : IsOne (.punct .semicolon) us := ⟨s'.peek, hu, beq_iff_eq.1 hmark⟩
    exact ends (by simp [endsDirective, beq_iff_eq.1 hmark]) (hone.nested_mark (by decide)) hI
  split
  · rename_i hmark
    have hopener : ∀ p, s'.peek.kind = .punct p → p.isCloser = false := fun p hp => by
      cases hp.symm.trans (beq_iff_eq.1 hmark)
      rfl
    have hsemicolon : IsFlatKind (.punct .semicolon) := fun p hp => by cases hp; decide
    refine (skipGroup_gives hopener).bind fun _ us _ _ =>
      (eat_nested (by simp) hsemicolon).discard.bind fun _ vs _ _ => .pure fun hv hu hI => ?_
    rw [List.append_nil]
    exact ends (by simp [endsDirective, beq_iff_eq.1 hmark]) (hu.append hv) hI
  · rename_i hend hsemicolon hbrace
    have hgo : endsDirective s'.peek = false := by
      simp only [isAtEof, isAtMark, isAt, Bool.or_eq_true, not_or, Bool.not_eq_true] at *
      simp [endsDirective, *]
    refine (skipGroup_upTo hgo).bind fun _ us s'' _ =>
      .pure fun hu hI => ?_
    rw [List.append_nil]
    exact (List.append_assoc ..).trans (hu ▸ hI)

theorem externAlias_gives (hg : s.Good source) (h : isAtExternAlias s = true) (ht : s.IsTidy) :
    Reader.Gives source s synchronize fun _ ts _ =>
      openBehind? marks ts = some marks ∧ ts ≠ [] := by
  refine synchronize_gives.mono fun _ ts _ hts => ?_
  obtain ⟨us, rfl, hu⟩ := hts
  obtain ⟨hkeyword, halias⟩ := Bool.and_eq_true_iff.1 h
  obtain ⟨t, after, ha⟩ := List.exists_cons_of_ne_nil (hg.after_ne_nil (peek_ne_eof hkeyword nofun))
  have hkind : t.kind = .keyword .extern_ := by simpa [isAt, peek, ha] using hkeyword
  cases after with
  | nil => simp [peekAt, ha, Token.isContextual, hg.eof_kind] at halias
  | cons u rest =>
    have hword : u.isContextual "alias" = true := by simpa [peekAt, ha] using halias
    have hpassage : upTo endsDirective [] s.after = t :: passage s.after := by
      rw [ha, passage_extern hkind hword, upTo, if_neg (by simp [endsDirective, hkind])]
      simp [Group.openBehind, hkind]
    rw [hpassage]
    exact ⟨((Nested.cons (by simp [Token.isFlat, hkind]) ht.nested_after).append hu).openBehind,
      by simp⟩

section
variable {nested : Bool → Reader (List Entry)} {n : Nat}
  (hs : ∀ s' braced, s'.after.length < n →
    Reader.Safe source s' (nested braced) fun es _ => Entry.AllSound source es)
  (h : ∀ s' braced marks, s'.after.length < n → Reader.Turns source s' (nested braced) marks marks)
include hs h

omit hs in
theorem namespaceEntries_turns {isFileScoped : Bool} (hn : s.after.length < n) :
    Parser.Turns source s (namespaceEntries nested isFileScoped) marks marks := by
  refine .ite (fun _ => .lift (h s false marks hn)) fun _ => ?_
  refine (expectMark_opens (by decide)).discard.bind fun _ _ s₁ h₁ => ?_
  have hlen := h₁.moves.length_after
  refine .andThen (h s₁ true _ (by omega)) fun _ _ _ _ => ?_
  refine .andThen (expectClosing_turns (o := .leftBrace) rfl) fun _ _ _ _ => ?_
  exact (Parser.Turns.lift (eatMark_turns (by decide))).discard.bind fun _ _ _ _ => .pure

theorem namespaceWith_turns {start : Span} (hn : s.after.length ≤ n) :
    Parser.Turns source s (namespaceWith nested start) marks marks := by
  refine .bind_safe expectWord_safe.discard expectWord_turns.discard fun _ _ _ h₁ hpos => ?_
  refine name_turns.bind fun _ _ _ h₂ => .andThen (eatMark_turns (by decide)) fun _ _ s₃ h₃ => ?_
  have hlen := (h₁.trans <| h₂.trans h₃).moves.length_after
  rw [List.length_append] at hlen
  refine .bind_safe (namespaceEntries_safe hs (by omega)) (namespaceEntries_turns h (by omega))
    fun es _ _ _ hes => ?_
  dsimp only
  split
  · refine .andThen (report_turns (hes.globalAttributes ‹_›)) fun _ _ _ _ => ?_
    exact .get fun _ => .pure
  · exact .get fun _ => .pure

theorem declarationWith_turns (hn : s.after.length ≤ n) :
    Parser.Turns source s (declarationWith nested) marks marks := by
  refine head_turns.bind fun _ _ s₁ h₁ => .get fun _ => ?_
  have hlen := h₁.moves.length_after
  split
  · exact (namespaceWith_turns hs h (by omega)).bind fun _ _ _ _ => .pure
  split
  · exact delegate_turns.bind fun _ _ _ _ => .pure
  split
  · exact (typeDeclaration_turns (isAtType_isFlat ‹_›)).bind fun _ _ _ _ => .pure
  · exact failAt_turns

/-- Where no error is recorded, an entry consumes a token. -/
theorem entryWith_consumes (hn : s.after.length ≤ n) (ht : s.IsTidy) :
    Reader.Gives source s (entryWith nested) fun _ ts _ =>
      openBehind? marks ts = some marks ∧ ts ≠ [] := by
  have consumes {α : Type} {p : Parser α} {f : α → Entry} {R : α → Nat → Prop}
      (hp : Parser.Safe source s p R) (hpos : ∀ a k, R a k → 0 < k)
      (hm : Parser.Turns source s p marks marks) :
      Reader.Gives source s (orRecover (f <$> p)) fun _ ts _ =>
        openBehind? marks ts = some marks ∧ ts ≠ [] :=
    orRecover_consumes (.map (hp.mono hpos)) (.map hm) ht
  refine .get fun hg _ => ?_
  split
  · refine .bind_safe advance_safe (.of_safe advance_safe) fun _ _ _ _ hspan => ?_
    exact Reader.Gives.bind (R := fun _ _ _ => False) (report_gives hspan.1)
      fun _ _ _ _ => .pure fun hf => hf.elim
  split
  · exact (externAlias_gives hg ‹_› ht).bind fun _ _ _ _ => .pure fun hts => by
      rwa [List.append_nil]
  split
  · exact consumes using_safe (fun _ _ hu => hu.2) using_turns
  split
  · exact consumes attributeSection_safe (fun _ _ ha => ha.2) attributeSection_turns
  · exact consumes (declarationWith_safe hs hn) (fun _ _ hd => hd.2) (declarationWith_turns hs h hn)

theorem entryStep_turns {braced : Bool} {es : List Entry} (hn : s.after.length ≤ n) :
    Reader.Turns source s (entryStep nested braced es) marks marks := by
  refine .get fun _ => ?_
  split
  · exact .pure
  · exact fun ht => andMoveOn_gives (f := fun e? => Round.next (es ++ e?.toList))
      (entryWith_consumes hs h hn ht)

end

theorem entriesWithin_turns {depth : Nat} {braced : Bool} (h : s.after.length < depth) :
    Reader.Turns source s (entriesWithin depth braced) marks marks := by
  induction depth generalizing s braced marks with
  | zero => omega
  | succ depth ih =>
    have hs (s' : ParserState) (braced : Bool) (h' : s'.after.length < depth) :=
      (@entriesWithin_safe source s' depth braced h').mono fun _ _ hes => hes.1
    refine .loop (fun es k s' h' => ?_) fun _ _ s' h' => ?_
    · have := h'.length_after
      exact (entryStep_safe hs (.refl s') (by omega)).mono fun _ _ hr => hr.1
    · have := h'.moves.length_after
      exact entryStep_turns hs (fun _ _ _ => ih) (by omega)

theorem sourceUnit_turns : Reader.Turns source s sourceUnit marks marks := by
  refine .get fun _ => .bind_safe rounds_safe rounds_turns fun _ _ s₁ h₁ hr => ?_
  obtain ⟨hr, rfl⟩ := hr
  have := h₁.moves.length_after
  exact (entriesWithin_turns (by omega)).bind fun _ _ _ _ => .get fun _ => .pure

end Parser

/-! ## Whole texts -/

/-- **The tokens of a text that was read without an error are nested**, if all passages
    among them are that are passed over without a glance. -/
theorem parse_nested {id : Nat} {path text : String}
    (he : (SyntaxTree.parse id path text).errors = []) (ht : Tidy (tokenize text).body) :
    Nested (tokenize text).body := by
  obtain ⟨hl, he⟩ := List.append_eq_nil_iff.1 he
  have hl : (tokenize text).errors = [] := List.map_eq_nil_iff.1 hl
  have hgood := ofText_good text
  have htidy : (ofText text).IsTidy := by
    rw [IsTidy, ofText_after hl]
    exact ht
  obtain ⟨ts, hts, hopen⟩ := Parser.sourceUnit_turns htidy hgood (ofText_spelt hl)
  obtain ⟨k, hk, hend, -⟩ := Parser.sourceUnit_safe hgood
  have hrest : (Parser.sourceUnit.run (ofText text)).2.after = [] := by
    have := hk.length_after
    exact List.eq_nil_of_length_eq_zero (by omega)
  have hall := hts.after_eq
  rw [hrest, List.append_nil, ofText_after hl] at hall
  rw [hall]
  exact hopen he

/-- A text with a passage of each kind. -/
def passagesSample : String :=
  "extern alias x; class A<T> where T : new() \x7b int y = f<A>(1); int operator +(A a); \x7d"

theorem parse_nested_sample :
    (SyntaxTree.parse 0 "" passagesSample).errors = [] ∧ Tidy (tokenize passagesSample).body ∧
      Nested (tokenize passagesSample).body := by
  have he : (SyntaxTree.parse 0 "" passagesSample).errors = [] := by decide +kernel
  have ht : Tidy (tokenize passagesSample).body := by decide +kernel
  exact ⟨he, ht, parse_nested he ht⟩

/-- A passage that is not nested goes unnoticed. -/
example : (SyntaxTree.parse 0 "" "class A \x7b int x = a<(>.b; \x7d").errors = [] ∧
    ¬ Nested (tokenize "class A \x7b int x = a<(>.b; \x7d").body := by decide +kernel

end CommandModules

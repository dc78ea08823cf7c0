/-
  Command modules — reading whole texts is safe.

  * `membersWithin_safe`, `entriesWithin_safe`: the tokens ahead bound the depth of
    types inside types, and of namespaces inside namespaces;
  * `entryWith_safe`: behind a declaration that could not be read, the next one is
    read further on;
  * `parse_safe`: reading a text comes to its end without an undefined operation,
    and its errors stand in the text.
-/
import CommandModules.Proofs.Safe.Lexical
import CommandModules.Proofs.Safe.Member
import CommandModules.Syntax.Tree

namespace CommandModules

open ParserState

variable {source : List Char} {s : ParserState}

/-- Are the identifiers in the names of namespaces, types and delegates words, and do using
    directives have names that are not empty? -/
inductive Declaration.IsWorded : Declaration → Prop
  | namespace_ {n : NamespaceDeclaration} : AreWorded n.name.segments →
      (∀ u ∈ n.usings, u.name.segments ≠ []) → (∀ d ∈ n.members, d.IsWorded) →
      IsWorded (.namespace_ n)
  | type {t : TypeDeclaration} : (Member.type t).IsWorded → IsWorded (.type t)
  | delegate {d : Delegate} : (Member.delegate d).IsWorded → IsWorded (.delegate d)

/-- Are the names in all members words? -/
def Member.AllWorded (ms : List Member) : Prop :=
  ∀ m ∈ ms, m.IsWorded

theorem Member.AllWorded.append {ms ms' : List Member} (h : AllWorded ms) (h' : AllWorded ms') :
    AllWorded (ms ++ ms') :=
  List.forall_mem_append.2 ⟨h, h'⟩

namespace Parser

/-! ## Types -/

theorem typeKind_safe : Reader.Safe source s typeKind fun _ _ => True := by
  refine advance_safe.bind fun _ _ _ _ _ => ?_
  split
  case h_5 =>
    refine eatWord_safe.bind fun _ _ _ _ _ => ?_
    split
    · exact .pure ⟨⟩
    · exact eatWord_passes.discard.bind fun _ _ _ _ _ => .pure ⟨⟩
  all_goals exact .pure ⟨⟩

theorem baseType_safe : Parser.Safe source s baseType fun _ _ => True := by
  refine type_safe.bind fun _ _ _ _ _ => .get fun _ => ?_
  refine .after (R := fun _ => True) (fun _ => .lift (skipGroup_safe.mono fun _ _ _ => ⟨⟩))
    (fun _ => ⟨⟩) fun _ _ _ _ => .pure ⟨⟩

theorem baseTypes_safe : Parser.Safe source s baseTypes fun _ _ => True := by
  refine .andThen eatMark_safe fun _ _ _ _ _ => ?_
  split
  · exact commaSeparated_safe fun _ _ _ => baseType_safe
  · exact .pure ⟨⟩

/-- A round of reading members consumes a token if another one follows, and keeps the names in
    them words. -/
def ReadsWords (ms : List Member) (r : Round (List Member) (List Member)) (k : Nat) : Prop :=
  r.Consumes k ∧ (Member.AllWorded ms → match r with
    | .next ms' | .done ms' => Member.AllWorded ms')

theorem readsWords_loop {round : List Member → Reader (Round (List Member) (List Member))}
    (h : ∀ ms k s', Moves k s s' → Reader.Safe source s' (round ms) (ReadsWords ms)) :
    Reader.Safe source s (loop round []) fun ms _ => Member.AllWorded ms := by
  refine .loop (I := fun ms _ => Member.AllWorded ms) (List.forall_mem_nil _)
    fun ms k s' hk hms => (h ms k s' hk).mono fun r m hr => ?_
  cases r
  exacts [⟨hr.2 hms, hr.1.2⟩, hr.2 hms]

theorem enumMemberAfter_safe {ms : List Member} :
    Reader.Safe source s (enumMemberAfter ms) (ReadsWords ms) := by
  refine .get fun hg => ?_
  split
  · rename_i hin
    simp only [isInBraces, Bool.and_eq_true, Bool.not_eq_true'] at hin
    have hne : s.after ≠ [] := mt hg.peek_kind_eq_eof.2 (by simpa [isAtEof, isAt] using hin.2)
    refine (orRecover_safe enumMember_safe).bind fun m? _ _ _ hm => ?_
    cases m? with
    | some m =>
      have hm (hms : Member.AllWorded ms) : Member.AllWorded (ms ++ [.enumMember m]) :=
        hms.append (List.forall_mem_singleton.2 (.other (by simp) (by simp)))
      refine eatMark_safe.bind fun _ _ _ _ hk => ?_
      split
      · exact .pure ⟨⟨⟨⟩, by have := hk ‹_›; omega⟩, hm⟩
      · exact .pure ⟨⟨⟩, hm⟩
    | none => exact .pure ⟨⟨⟨⟩, by have := hm.2 rfl hne hin.1; omega⟩, id⟩
  · exact .pure ⟨⟨⟩, id⟩

theorem enumMembers_safe : Reader.Safe source s enumMembers fun ms _ => Member.AllWorded ms :=
  readsWords_loop fun _ _ _ _ => enumMemberAfter_safe

section
variable {members : Reader (List Member)} {n : Nat}
  (h : ∀ s', s'.after.length < n →
    Reader.Safe source s' members fun ms _ => Member.AllWorded ms)
include h

theorem typeBody_safe (hn : s.after.length ≤ n) :
    Parser.Safe source s (typeBody members) fun ms _ => Member.AllWorded ms := by
  refine .andThen eatMark_safe fun _ _ s₁ h₁ _ => ?_
  split
  · exact .pure (List.forall_mem_nil _)
  refine expectMark_safe.discard.bind fun _ _ s₂ h₂ _ => .andThen (h s₂ ?_) fun _ _ _ _ hms => ?_
  · have := h₁.length_after
    have := h₂.length_after
    omega
  refine .andThen expectClosing_safe fun _ _ _ _ _ => ?_
  refine (Parser.Safe.lift eatMark_passes).discard.bind fun _ _ _ _ _ => ?_
  exact .pure hms

theorem typeWithMembers_safe {head : Head} (hn : s.after.length ≤ n) :
    Parser.Safe source s (typeWithMembers members head) fun t k =>
      (Member.type t).IsWorded ∧ 0 < k := by
  refine .andThen typeKind_safe fun kind _ _ h₁ _ => ident_safe.bind fun _ _ _ h₂ hi => ?_
  have hpos := hi.2
  refine typeParameters_safe.bind fun _ _ _ h₃ _ => .get fun _ => ?_
  refine .join (R := fun _ _ => True) (fun _ => .map parameters_safe) (fun _ => .pure ⟨⟩)
    fun _ _ _ h₄ _ => ?_
  refine baseTypes_safe.bind fun _ _ _ h₅ _ => constraintClauses_safe.bind fun _ _ _ h₆ _ => ?_
  have hlen := (h₁.trans <| h₂.trans <| h₃.trans <| h₄.trans <| h₅.trans h₆).length_after
  refine (typeBody_safe (n := n) (fun s' hs' => ?_) (by omega)).bind
    fun _ _ _ _ hms => .get fun _ => .pure ⟨.type hi.1 hms, by omega⟩
  split
  · exact enumMembers_safe
  · exact h s' hs'

theorem memberWith_safe (hn : s.after.length ≤ n) :
    Parser.Safe source s (memberWith members) fun m? k =>
      Member.AllWorded m?.toList ∧ 0 < k := by
  refine .andThen eatMark_safe fun _ _ _ h₁ hk => ?_
  split
  · have := hk ‹_›
    exact .pure ⟨List.forall_mem_nil _, by omega⟩
  refine head_safe.bind fun _ _ _ h₂ _ => .get fun _ => ?_
  have hlen := (h₁.trans h₂).length_after
  split
  · exact (typeWithMembers_safe h (by omega)).bind fun _ _ _ _ ht =>
      .pure ⟨List.forall_mem_singleton.2 ht.1, by omega⟩
  · exact memberAfter_safe.bind fun _ _ _ _ hm =>
      .pure ⟨List.forall_mem_singleton.2 hm.1, by omega⟩

theorem memberStep_safe {ms : List Member} (hn : s.after.length ≤ n) :
    Reader.Safe source s (memberStep members ms) (ReadsWords ms) := by
  refine .get fun hg => ?_
  split
  · rename_i hin
    simp only [isInBraces, Bool.and_eq_true, Bool.not_eq_true'] at hin
    have hne : s.after ≠ [] := mt hg.peek_kind_eq_eof.2 (by simpa [isAtEof, isAt] using hin.2)
    refine (orRecover_safe (memberWith_safe h hn)).bind fun m? k s₁ h₁ hm? => ?_
    refine moveOn_safe.bind fun _ m _ _ hm => .pure ⟨⟨⟨⟩, ?_⟩, fun hms => hms.append ?_⟩
    rotate_left
    · cases m? with
      | none => exact List.forall_mem_nil _
      | some m? => exact (hm?.1 m? rfl).1
    rcases Nat.eq_zero_or_pos k with rfl | hpos
    · have := hm h₁.place_eq (h₁.isAtMark_eq ▸ hin.1) (h₁.after_eq ▸ hne)
      omega
    · omega
  · exact .pure ⟨⟨⟩, id⟩

theorem memberStep_consumes {ms : List Member} (hn : s.after.length ≤ n) :
    Reader.Safe source s (memberStep members ms) Round.Consumes :=
  (memberStep_safe h hn).mono fun _ _ hr => hr.1

end

theorem membersWithin_safe {depth : Nat} (h : s.after.length < depth) :
    Reader.Safe source s (membersWithin depth) fun ms _ => Member.AllWorded ms := by
  induction depth generalizing s with
  | zero => omega
  | succ depth ih =>
    refine readsWords_loop fun _ _ s' h' => memberStep_safe (n := depth) (fun _ => ih) ?_
    have := h'.length_after
    omega

theorem members_safe : Reader.Safe source s members fun ms _ => Member.AllWorded ms := by
  refine rounds_safe.bind fun _ _ s₁ h₁ hr => ?_
  obtain ⟨rfl, rfl⟩ := hr
  exact membersWithin_safe (Nat.lt_succ_of_le (h₁.after_eq ▸ Nat.le_refl _))

theorem typeDeclaration_safe {head : Head} :
    Parser.Safe source s (typeDeclaration head) fun t k =>
      (Member.type t).IsWorded ∧ 0 < k :=
  typeWithMembers_safe (fun _ _ => members_safe) (Nat.le_refl s.after.length)

/-! ## Namespaces -/

theorem usingAlias_safe : Parser.Safe source s usingAlias fun _ _ => True := by
  refine .get fun _ => ?_
  split
  · refine ident_safe.bind fun _ _ _ _ _ => ?_
    exact (Parser.Safe.lift advance_passes).discard.bind fun _ _ _ _ _ => .pure ⟨⟩
  · exact .pure ⟨⟩

theorem using_safe : Parser.Safe source s using_ fun u k => u.name.segments ≠ [] ∧ 0 < k := by
  refine .get fun _ => .after (R := fun _ => True)
    (fun _ => (Parser.Safe.lift advance_passes).discard) (fun _ => ⟨⟩) fun _ _ _ _ => ?_
  refine expectWord_safe.discard.bind fun _ _ _ _ _ => .andThen eatWord_safe fun _ _ _ _ _ => ?_
  refine usingAlias_safe.bind fun _ _ _ _ _ => name_safe.bind fun _ _ _ _ hn => ?_
  exact expectMark_safe.discard.bind fun _ _ _ _ _ => .get fun _ => .pure ⟨hn.1, by omega⟩

/-- Does the entry stand in the text if it is attributes, does it have a name if it is a using
    directive, and are its names words if it is a declaration? -/
def Entry.Sound (source : List Char) : Entry → Prop
  | .using_ u => u.name.segments ≠ []
  | .attributes a => a.span.Inside source
  | .declaration d => d.IsWorded

/-- Are all entries sound? -/
def Entry.AllSound (source : List Char) (es : List Entry) : Prop :=
  ∀ e ∈ es, e.Sound source

theorem Entry.AllSound.globalAttributes {es : List Entry} (h : AllSound source es)
    {a : AttributeSection} (ha : (Entry.globalAttributes es).head? = some a) :
    a.span.Inside source := by
  obtain ⟨e, he, hea⟩ := List.mem_filterMap.1 (List.mem_of_head? ha)
  cases e with
  | attributes b =>
    cases hea
    exact h _ he
  | using_ | declaration => cases hea

theorem Entry.AllSound.declarations {es : List Entry} (h : AllSound source es) {d : Declaration}
    (hd : d ∈ Entry.declarations es) : d.IsWorded := by
  obtain ⟨e, he, hed⟩ := List.mem_filterMap.1 hd
  cases e with
  | declaration c =>
    cases hed
    exact h _ he
  | using_ | attributes => cases hed

theorem Entry.AllSound.usings {es : List Entry} (h : AllSound source es) {u : Using}
    (hu : u ∈ Entry.usings es) : u.name.segments ≠ [] := by
  obtain ⟨e, he, heu⟩ := List.mem_filterMap.1 hu
  cases e with
  | using_ v =>
    cases heu
    exact h _ he
  | attributes | declaration => cases heu

theorem Entry.allSound_nil : AllSound source [] := by
  simp [AllSound]

theorem entry_safe {α : Type} {p : Parser α} {entry : α → Entry}
    (h : Parser.Safe source s p fun a _ => (entry a).Sound source) :
    Reader.Safe source s (orRecover (entry <$> p)) fun e? _ =>
      Entry.AllSound source e?.toList := by
  refine (orRecover_safe (Parser.Safe.map (T := fun e _ => e.Sound source) h)).mono
    fun e? _ he => ?_
  intro e hmem
  exact he.1 e (Option.mem_toList.1 hmem)

section
variable {nested : Bool → Reader (List Entry)} {n : Nat}
  (h : ∀ s' braced, s'.after.length < n →
    Reader.Safe source s' (nested braced) fun es _ => Entry.AllSound source es)
include h

theorem namespaceEntries_safe {isFileScoped : Bool} (hn : s.after.length < n) :
    Parser.Safe source s (namespaceEntries nested isFileScoped) fun es _ =>
      Entry.AllSound source es := by
  refine .ite (fun _ => .lift (h s false hn)) fun _ => ?_
  refine expectMark_safe.discard.bind fun _ _ s₁ h₁ _ => ?_
  have hlen := h₁.length_after
  refine .andThen (h s₁ true (by omega)) fun _ _ _ _ hes => .andThen expectClosing_safe fun _ _ _ _ _ => ?_
  exact (Parser.Safe.lift eatMark_passes).discard.bind fun _ _ _ _ _ => .pure hes

theorem namespaceWith_safe {start : Span} (hn : s.after.length ≤ n) :
    Parser.Safe source s (namespaceWith nested start) fun n k =>
      (Declaration.namespace_ n).IsWorded ∧ 0 < k := by
  refine expectWord_safe.discard.bind fun _ _ _ h₁ _ => name_safe.bind fun _ _ _ h₂ hw => ?_
  refine .andThen eatMark_safe fun _ _ s₃ h₃ _ => ?_
  have hlen := (h₁.trans <| h₂.trans h₃).length_after
  refine (namespaceEntries_safe h (by omega)).bind fun es _ _ _ hes => ?_
  have hu : ∀ u ∈ Entry.usings es, u.name.segments ≠ [] := fun _ hu => hes.usings hu
  have hd : ∀ d ∈ Entry.declarations es, d.IsWorded := fun _ hd => hes.declarations hd
  dsimp only
  split
  · refine .andThen (report_safe (hes.globalAttributes ‹_›)) fun _ _ _ _ _ => ?_
    exact .get fun _ => .pure ⟨.namespace_ hw.2 hu hd, by omega⟩
  · exact .get fun _ => .pure ⟨.namespace_ hw.2 hu hd, by omega⟩

theorem declarationWith_safe (hn : s.after.length ≤ n) :
    Parser.Safe source s (declarationWith nested) fun d k => d.IsWorded ∧ 0 < k := by
  refine head_safe.bind fun _ _ s₁ h₁ _ => .get fun _ => ?_
  have hlen := h₁.length_after
  split
  · exact (namespaceWith_safe h (by omega)).bind fun _ _ _ _ hd => .pure ⟨hd.1, by omega⟩
  split
  · exact delegate_safe.bind fun _ _ _ _ hd => .pure ⟨.delegate (.delegate hd.1), by omega⟩
  split
  · exact typeDeclaration_safe.bind fun _ _ _ _ ht => .pure ⟨.type ht.1, by omega⟩
  · exact failAt_safe

theorem entryWith_safe (hn : s.after.length ≤ n) :
    Reader.Safe source s (entryWith nested) fun e? k => Entry.AllSound source e?.toList ∧
      (s.isAtMark .rightBrace = true → 0 < k) := by
  refine .get fun hg => ?_
  split
  · rename_i hb
    have hne := hg.after_ne_nil (peek_ne_eof_of_mark hb)
    refine advance_safe.bind fun _ _ _ _ ht => (report_safe ht.1).bind fun _ _ _ _ _ => .pure ?_
    exact ⟨Entry.allSound_nil, fun _ => by have := ht.2 hne; omega⟩
  rename_i hb
  refine Reader.Safe.mono (R := fun e? _ => Entry.AllSound source e?.toList) ?_
    fun _ _ he => ⟨he, fun h => absurd h hb⟩
  split
  · exact synchronize_safe.bind fun _ _ _ _ _ => .pure Entry.allSound_nil
  split
  · exact entry_safe (using_safe.mono fun _ _ hu => hu.1)
  split
  · exact entry_safe (attributeSection_safe.mono fun _ _ ha => ha.1)
  · exact entry_safe ((declarationWith_safe h hn).mono fun _ _ hd => hd.1)

theorem entryStep_safe {braced : Bool} {es : List Entry} {s₀ : ParserState} {k : Nat}
    (h₀ : Moves k s₀ s) (hn : s.after.length ≤ n) :
    Reader.Safe source s (entryStep nested braced es) fun r m => r.Consumes m ∧
      (Entry.AllSound source es → Round.Holds (fun es _ => Entry.AllSound source es)
        (fun es k => Entry.AllSound source es ∧ (braced = false → k = s₀.after.length)) k r m) := by
  refine .get fun hg => ?_
  have heof : s.isAtEof = true ↔ s.after = [] := beq_iff_eq.trans hg.peek_kind_eq_eof
  split
  · rename_i hc
    refine .pure ⟨⟨⟩, fun hes => ⟨hes, fun hb => ?_⟩⟩
    have hlen := h₀.length_after
    rw [hb, Bool.false_and, Bool.or_false, heof] at hc
    simpa [hc] using hlen
  · rename_i hc
    have hne : s.after ≠ [] := fun hnil => hc (by rw [heof.2 hnil, Bool.true_or])
    refine (entryWith_safe h hn).bind fun e? j s₁ h₁ he => ?_
    refine moveOn_safe.bind fun _ m _ _ hm => .pure ?_
    have hpos : 0 < j + (m + 0) := by
      rcases Nat.eq_zero_or_pos j with rfl | hpos
      · have hb : s.isAtMark .rightBrace = false := by
          by_contra hb
          exact absurd (he.2 (by simpa using hb)) (Nat.lt_irrefl 0)
        have := hm h₁.place_eq (h₁.isAtMark_eq ▸ hb) (h₁.after_eq ▸ hne)
        omega
      · omega
    refine ⟨⟨⟨⟩, hpos⟩, fun hes => ⟨fun e hmem => ?_, hpos⟩⟩
    exact (List.mem_append.1 hmem).elim (hes e) (he.1 e)

end

theorem entriesWithin_safe {depth : Nat} {braced : Bool} (h : s.after.length < depth) :
    Reader.Safe source s (entriesWithin depth braced) fun es k =>
      Entry.AllSound source es ∧ (braced = false → k = s.after.length) := by
  induction depth generalizing s braced with
  | zero => omega
  | succ depth ih =>
    refine .loop (I := fun es _ => Entry.AllSound source es) Entry.allSound_nil fun es k s' h' hes => ?_
    have := h'.length_after
    refine (entryStep_safe (n := depth) (fun s'' braced hs'' => ?_) h' (by omega)).mono
      fun _ _ hr => hr.2 hes
    exact (ih hs'').mono fun _ _ hes => hes.1

/-- Reading a text comes to its end. -/
theorem sourceUnit_safe : Reader.Safe source s sourceUnit fun u k =>
    k = s.after.length ∧ (∀ v ∈ u.usings, v.name.segments ≠ []) ∧ ∀ d ∈ u.members, d.IsWorded := by
  refine .get fun _ => rounds_safe.bind fun _ _ s₁ h₁ hr => ?_
  obtain ⟨rfl, rfl⟩ := hr
  have hs₁ : s₁.after = s.after := h₁.after_eq
  refine (entriesWithin_safe (by rw [hs₁]; exact Nat.lt_succ_self _)).bind fun es k _ _ hk => ?_
  refine .get fun _ => .pure ⟨?_, fun _ hu => hk.1.usings hu, fun _ hd => hk.1.declarations hd⟩
  rw [hk.2 rfl, hs₁]
  omega

end Parser

/-! ## Whole texts -/

/-- Reading the tokens `start` of a text has come to `stop`: no operation was
    undefined, and the errors recorded stand in the text. -/
structure ParserState.Reaches (source : List Char) (start stop : ParserState) : Prop where
  faults_eq : stop.faults = []
  errors_inside : ∀ e ∈ stop.errors, e.span.Inside source
  tokens_eq : stop.tokens = start.tokens

theorem ParserState.Moves.reaches {text : String} {k : Nat} {stop : ParserState}
    (h : Moves k (ofText text) stop) : Reaches text.toList (ofText text) stop where
  faults_eq := h.faults_eq
  errors_inside := by
    obtain ⟨es, he, hi⟩ := h.errors_eq
    rw [he]
    exact hi
  tokens_eq := h.tokens

/-- Using directives have names, and identifiers in the names of namespaces are words. -/
theorem parse_isWorded (id : Nat) (path text : String) :
    (∀ u ∈ (SyntaxTree.parse id path text).root.usings, u.name.segments ≠ []) ∧
      ∀ d ∈ (SyntaxTree.parse id path text).root.members, d.IsWorded := by
  obtain ⟨_, -, -, h⟩ := Parser.sourceUnit_safe (ofText_good text)
  exact h

/-- **Reading a text is safe.**  It reaches the end of the text, where the one `eof`
    is the current token; every loop on the way consumed a token in each round that
    another one followed, and every text was cut out between two characters of the
    source, for else there would be a fault.  All errors of the tree stand in the
    text.  The same holds of reading one type, which may fail; and the span from
    one stretch through another ends where the later one does. -/
theorem parse_safe (id : Nat) (path text : String) :
    (Reaches text.toList (ofText text) (Parser.sourceUnit.run (ofText text)).2 ∧
      (Parser.sourceUnit.run (ofText text)).2.after = [] ∧
      (Parser.sourceUnit.run (ofText text)).2.peek = (ofText text).eof ∧
      (ofText text).eof.kind = .eof ∧ ∀ t ∈ (ofText text).after, t.kind ≠ .eof) ∧
    (∀ e ∈ (SyntaxTree.parse id path text).errors,
      e.span.Inside text.toList ∧ (e.span.slice? text).isSome) ∧
    (Reaches text.toList (ofText text) (Parser.type.run.run (ofText text)).2 ∧
      ∀ e, (Parser.type.run.run (ofText text)).1 = .error e → e.span.Inside text.toList) ∧
    ∀ s t : Span, (s.merge t).stop = max s.stop t.stop := by
  have hg := ofText_good text
  obtain ⟨k, hk, hend, -⟩ := Parser.sourceUnit_safe hg
  obtain ⟨m, hm, herr⟩ := Parser.type_safe hg
  have hafter : (Parser.sourceUnit.run (ofText text)).2.after = [] := by
    have := hk.length_after
    exact List.eq_nil_of_length_eq_zero (by omega)
  refine ⟨⟨hk.reaches, hafter, ?_, hg.eof_kind, hg.ne_eof⟩, fun e he => ?_, ⟨hm.reaches, ?_⟩,
    Span.merge_stop⟩
  · rw [peek, hafter, hk.eof_eq]
    rfl
  · have hin : e.span.Inside text.toList := by
      rcases List.mem_append.1 he with he | he
      · obtain ⟨l, hl, rfl⟩ := List.mem_map.1 he
        exact tokenize_errors_inside hl
      · exact hk.reaches.errors_inside e he
    exact ⟨hin, by simpa [Span.slice?] using hin.sliceChars?⟩
  · intro e he
    rw [he] at herr
    exact herr

end CommandModules

/-
  Command modules — reading whole texts sees no places.

  * `membersWithin_alike`, `entriesWithin_alike`: types and namespaces, by induction
    on their depth;
  * `sourceUnit_alike`: whole texts;
  * `SyntaxTree.isEquivalent_iff`: equivalent trees were read from states that are
    alike;
  * `parse_eq_of_isEquivalent`: equivalent trees differ in places only.
-/
import CommandModules.Proofs.Alike.Member
import CommandModules.Syntax.Tree

namespace CommandModules

namespace Parser

/-! ## Types -/

theorem followsRecordName_alike {s t : ParserState} (h : s.Alike t) (n : Nat) :
    followsRecordName (s.peekAt n) = followsRecordName (t.peekAt n) := by
  rw [followsRecordName, followsRecordName, h.peekAt_isContextual, h.peekAt_kind]

theorem isAtType_alike {s t : ParserState} (h : s.Alike t) : isAtType s = isAtType t := by
  simp only [isAtType, isAtRecord, h.peek_kind, h.peek_isContextual, h.peekAt_kind,
    followsRecordName_alike h]

theorem typeKind_alike : Reader.Alike typeKind typeKind := by
  refine advance_alike.bind fun t u h => ?_
  rw [kind_eq_of_erase h]
  split
  case h_5 =>
    refine (eatWord_alike _).bind fun b b' hb => .ite ?_ (.pure rfl)
      ((eatWord_alike _).discard.bind fun _ _ _ => .pure rfl)
    obtain rfl : b = b' := hb
    rfl
  all_goals exact .pure rfl

theorem baseType_alike : Parser.Alike baseType baseType := by
  refine type_alike.bind fun _ _ h => .get fun s t hs =>
    .after ?_ (.lift skipGroup_alike) (.pure h)
  rw [hs.isAtMark]

theorem baseTypes_alike : Parser.Alike baseTypes baseTypes := by
  refine .andThen (eatMark_alike _) fun b b' hb =>
    .ite ?_ (commaSeparated_alike baseType_alike) (.pure rfl)
  obtain rfl : b = b' := hb
  rfl

theorem isInBraces_alike {s t : ParserState} (h : s.Alike t) : isInBraces s = isInBraces t := by
  rw [isInBraces, isInBraces, h.isAtMark, h.isAtEof]

theorem enumMemberAfter_alike {ms ms' : List Member} (h : erase ms = erase ms') :
    Reader.Alike (enumMemberAfter ms) (enumMemberAfter ms') := by
  refine .get fun s t hs => .ite ?_ ?_ (.pure (by simp [*]))
  · rw [isInBraces_alike hs]
  · refine (orRecover_alike enumMember_alike).bind fun m? m?' hm => ?_
    cases m? <;> cases m?' <;>
      simp only [erase_none, erase_some, reduceCtorEq, Option.some.injEq] at hm
    · exact .pure (by simp [*])
    · refine (eatMark_alike _).bind fun b b' hb => .ite ?_ (.pure (by simp [*])) (.pure (by simp [*]))
      obtain rfl : b = b' := hb
      rfl

theorem enumMembers_alike : Reader.Alike enumMembers enumMembers :=
  loop_alike (fun _ _ => enumMemberAfter_alike) rfl

section
variable {members members' : Reader (List Member)} (h : Reader.Alike members members')
include h

theorem typeBody_alike : Parser.Alike (typeBody members) (typeBody members') := by
  refine .andThen (eatMark_alike _) fun b b' hb => .ite ?_ (.pure rfl) ?_
  · obtain rfl : b = b' := hb
    rfl
  · exact (expectMark_alike _).discard.bind fun _ _ _ => .andThen h fun _ _ hm =>
      .andThen (expectClosing_alike _) fun _ _ _ =>
        (Parser.Alike.lift (eatMark_alike _)).discard.bind fun _ _ _ => .pure hm

theorem typeWithMembers_alike {head head' : Head} (hh : erase head = erase head') :
    Parser.Alike (typeWithMembers members head) (typeWithMembers members' head') := by
  refine .andThen typeKind_alike fun kind kind' hkind => ident_alike.bind fun _ _ _ => ?_
  obtain rfl : kind = kind' := hkind
  refine typeParameters_alike.bind fun _ _ _ => .get fun s t hs => ?_
  refine .join ?_ (parameters_alike.map fun _ _ h => by rw [erase_some, erase_some, h]) (.pure rfl)
    fun _ _ _ => ?_
  · rw [hs.isAtMark]
  refine baseTypes_alike.bind fun _ _ _ => constraintClauses_alike.bind fun _ _ _ => ?_
  refine (typeBody_alike (.ite Iff.rfl enumMembers_alike h)).bind fun _ _ _ => ?_
  refine .get fun _ _ _ => .pure ?_
  simp only [erase_typeDeclaration, Head.attributes_eq hh, Head.modifiers_eq hh, *]

theorem memberWith_alike : Parser.Alike (memberWith members) (memberWith members') := by
  refine .andThen (eatMark_alike _) fun b b' hb => .ite ?_ (.pure rfl) ?_
  · obtain rfl : b = b' := hb
    rfl
  · refine head_alike.bind fun _ _ hh => .get fun s t hs => .ite ?_
      ((typeWithMembers_alike h hh).bind fun _ _ _ => .pure (by simp [*]))
      ((memberAfter_alike hh).bind fun _ _ _ => .pure (by simp [*]))
    rw [isAtType_alike hs]

theorem memberStep_alike {ms ms' : List Member} (hms : erase ms = erase ms') :
    Reader.Alike (memberStep members ms) (memberStep members' ms') := by
  refine .get fun s t hs => .ite ?_ ?_ (.pure (by simp [*]))
  · rw [isInBraces_alike hs]
  · rw [hs.place_eq]
    refine (orRecover_alike (memberWith_alike h)).bind fun m? m?' hm =>
      (moveOn_alike _).bind fun _ _ _ => .pure ?_
    have hjoin : erase m?.join.toList = erase m?'.join.toList := by
      rcases m? with _ | _ | m <;> rcases m?' with _ | _ | m' <;> simp_all
    simp [*]

end

theorem membersWithin_alike (depth : Nat) :
    Reader.Alike (membersWithin depth) (membersWithin depth) := by
  induction depth with
  | zero => exact stall_alike
  | succ depth ih => exact loop_alike (fun _ _ => memberStep_alike ih) rfl

theorem typeDeclaration_alike {head head' : Head} (h : erase head = erase head') :
    Parser.Alike (typeDeclaration head) (typeDeclaration head') :=
  typeWithMembers_alike (rounds_alike.bind fun n m hnm => by
    obtain rfl : n = m := hnm
    exact membersWithin_alike n) h

/-! ## Namespaces -/

instance : Erase Entry where
  erase
    | .using_ u => .using_ (erase u)
    | .attributes a => .attributes (erase a)
    | .declaration d => .declaration (erase d)

section
variable {es es' : List Entry} (h : erase es = erase es')
include h

theorem Entry.filterMap_alike {α : Type} [Erase α] {f : Entry → Option α}
    (hf : ∀ e, f (erase e) = erase (f e)) : erase (es.filterMap f) = erase (es'.filterMap f) := by
  have he (es : List Entry) : (erase es).filterMap f = erase (es.filterMap f) := by
    induction es with
    | nil => rfl
    | cons e es ih =>
      rw [erase_cons, List.filterMap_cons, List.filterMap_cons, hf]
      cases f e <;> simp [ih]
  rw [← he, h, he]

theorem Entry.usings_alike : erase (Entry.usings es) = erase (Entry.usings es') :=
  filterMap_alike h fun e => by cases e <;> rfl

theorem Entry.globalAttributes_alike :
    erase (Entry.globalAttributes es) = erase (Entry.globalAttributes es') :=
  filterMap_alike h fun e => by cases e <;> rfl

theorem Entry.declarations_alike : erase (Entry.declarations es) = erase (Entry.declarations es') :=
  filterMap_alike h fun e => by cases e <;> rfl

end

theorem usingAlias_alike : Parser.Alike usingAlias usingAlias := by
  refine .get fun s t h => .ite ?_ ?_ (.pure rfl)
  · rw [h.isAt, h.peekAt_kind]
  · exact ident_alike.bind fun _ _ _ => (Parser.Alike.lift advance_alike).discard.bind fun _ _ _ =>
      .pure (by simp [*])

theorem using_alike : Parser.Alike using_ using_ := by
  refine .get fun s t h => ?_
  rw [h.peek_isContextual]
  refine .after Iff.rfl (Parser.Alike.lift advance_alike).discard ?_
  refine (expect_alike _).discard.bind fun _ _ _ => .andThen (eatWord_alike _) fun b b' hb => ?_
  obtain rfl : b = b' := hb
  exact usingAlias_alike.bind fun _ _ _ => name_alike.bind fun _ _ _ =>
    (expectMark_alike _).discard.bind fun _ _ _ => .get fun _ _ _ => .pure (by simp [*])

section
variable {nested nested' : Bool → Reader (List Entry)}
  (h : ∀ braced, Reader.Alike (nested braced) (nested' braced))
include h

theorem namespaceEntries_alike (isFileScoped : Bool) :
    Parser.Alike (namespaceEntries nested isFileScoped) (namespaceEntries nested' isFileScoped) :=
  .ite Iff.rfl (.lift (h false)) <| (expectMark_alike _).discard.bind fun _ _ _ =>
    .andThen (h true) fun _ _ hes => .andThen (expectClosing_alike _) fun _ _ _ =>
      (Parser.Alike.lift (eatMark_alike _)).discard.bind fun _ _ _ => .pure hes

theorem namespaceWith_alike (start start' : Span) :
    Parser.Alike (namespaceWith nested start) (namespaceWith nested' start') := by
  refine (expect_alike _).discard.bind fun _ _ _ => name_alike.bind fun _ _ _ => ?_
  refine .andThen (eatMark_alike _) fun b b' hb => ?_
  obtain rfl : b = b' := hb
  refine (namespaceEntries_alike h b).bind fun es es' hes => ?_
  have hnamespace (start start' : Span) {name name' : Name} (hname : erase name = erase name') :
      Parser.Alike
        (do return (⟨name, b, Entry.usings es, Entry.declarations es, (← get).spanFrom start⟩ :
          NamespaceDeclaration))
        (do return (⟨name', b, Entry.usings es', Entry.declarations es', (← get).spanFrom start'⟩ :
          NamespaceDeclaration)) :=
    .get fun _ _ _ => .pure (by
      simp only [erase_namespaceDeclaration, hname, Entry.usings_alike hes,
        Entry.declarations_alike hes])
  have hattributes := Entry.globalAttributes_alike hes
  dsimp only
  cases hl : Entry.globalAttributes es <;> cases hl' : Entry.globalAttributes es' <;>
    rw [hl, hl'] at hattributes
  · exact hnamespace _ _ ‹_›
  · cases hattributes
  · cases hattributes
  · exact .andThen (report_alike rfl) fun _ _ _ => hnamespace _ _ ‹_›

theorem declarationWith_alike :
    Parser.Alike (declarationWith nested) (declarationWith nested') := by
  refine head_alike.bind fun _ _ hh => .get fun s t hs => .ite ?_
    ((namespaceWith_alike h _ _).bind fun _ _ _ => .pure (by simp [*])) <| .ite ?_
    ((delegate_alike hh).bind fun _ _ _ => .pure (by simp [*])) <| .ite ?_
    ((typeDeclaration_alike hh).bind fun _ _ _ => .pure (by simp [*])) (failAt_alike _ _)
  · rw [hs.isAt]
  · rw [hs.isAt]
  · rw [isAtType_alike hs]

theorem entryWith_alike : Reader.Alike (entryWith nested) (entryWith nested') := by
  refine .get fun s t hs => .ite ?_ ?_ <| .ite ?_ ?_ <| .ite ?_ ?_ <| .ite ?_ ?_ ?_
  · rw [hs.isAtMark]
  · exact advance_alike.bind fun _ _ _ => .bind (report_alike rfl) fun _ _ _ => .pure rfl
  · simp only [isAtExternAlias, hs.isAt, hs.peekAt_isContextual]
  · exact synchronize_alike.bind fun _ _ _ => .pure rfl
  · simp only [isAtUsing, hs.isAt, hs.peek_isContextual, hs.peekAt_kind]
  · exact orRecover_alike (using_alike.map fun _ _ => congrArg Entry.using_)
  · simp only [isAtGlobalAttributes, hs.isAtMark, hs.peekAt_isContextual, hs.peekAt_kind]
  · exact orRecover_alike (attributeSection_alike.map fun _ _ => congrArg Entry.attributes)
  · exact orRecover_alike ((declarationWith_alike h).map fun _ _ => congrArg Entry.declaration)

theorem entryStep_alike (braced : Bool) {es es' : List Entry} (hes : erase es = erase es') :
    Reader.Alike (entryStep nested braced es) (entryStep nested' braced es') := by
  refine .get fun s t hs => .ite ?_ (.pure (by simp [*])) ?_
  · rw [hs.isAtEof, hs.isAtMark]
  · rw [hs.place_eq]
    refine (entryWith_alike h).bind fun e? e?' he => (moveOn_alike _).bind fun _ _ _ => .pure ?_
    have htoList : erase e?.toList = erase e?'.toList := by
      cases e? <;> cases e?' <;> simp_all
    simp [*]

end

theorem entriesWithin_alike (depth : Nat) (braced : Bool) :
    Reader.Alike (entriesWithin depth braced) (entriesWithin depth braced) := by
  induction depth generalizing braced with
  | zero => exact stall_alike
  | succ depth ih => exact loop_alike (fun _ _ => entryStep_alike ih braced) rfl

theorem sourceUnit_alike : Reader.Alike sourceUnit sourceUnit := by
  refine .get fun _ _ _ => rounds_alike.bind fun n m h => ?_
  obtain rfl : n = m := h
  refine (entriesWithin_alike n false).bind fun es es' hes => .get fun _ _ _ => .pure ?_
  simp only [erase_sourceUnit, Entry.usings_alike hes, Entry.globalAttributes_alike hes,
    Entry.declarations_alike hes]

end Parser

/-! ## Equivalent trees -/

theorem SyntaxTree.differenceAt?_eq_none {ts us : List Token} (h : differenceAt? ts us = none) :
    erase ts = erase us := by
  fun_induction differenceAt? ts us with
  | case1 => rfl
  | case2 t ts u us htu ih =>
    simp only [Token.agrees, Bool.and_eq_true, beq_iff_eq] at htu
    rw [erase_cons, erase_cons, ih (Option.map_eq_none_iff.1 h), erase_token, erase_token, htu.1,
      htu.2]
  | case3 => cases h
  | case4 => cases h

theorem ParserState.ofText_alike {text text' : String} {id id' : Nat} {path path' : String}
    (h : (SyntaxTree.parse id path text).isEquivalent (SyntaxTree.parse id' path' text') = true) :
    (ofText text).Alike (ofText text') := by
  have ht := SyntaxTree.differenceAt?_eq_none (Option.isNone_iff_eq_none.1 h)
  change erase ((ofText text).after ++ [(ofText text).eof]) =
    erase ((ofText text').after ++ [(ofText text').eof]) at ht
  rw [erase_append, erase_append] at ht
  obtain ⟨hafter, heof⟩ := List.append_inj' ht rfl
  rw [Alike, ofText, ofText, erase_mk, erase_mk]
  simp_all [ofText]

theorem ParseError.map_eq_of_erase {es es' : List ParseError} (h : erase es = erase es') :
    es.map (fun e => (e.kind, e.message)) = es'.map fun e => (e.kind, e.message) := by
  have he (es : List ParseError) : (erase es).map (fun e => (e.kind, e.message)) =
      es.map fun e => (e.kind, e.message) := by
    rw [show erase es = es.map erase from rfl, List.map_map]
    rfl
  rw [← he, h, he]

/-- **Equivalent trees differ in places only.**  Two texts with the same tokens, blanks
    and comments aside, have the same syntax but for spans and verbatim texts, and
    behind the errors of their tokens the same errors in the same order. -/
theorem parse_eq_of_isEquivalent (id id' : Nat) (path path' text text' : String)
    (h : (SyntaxTree.parse id path text).isEquivalent (SyntaxTree.parse id' path' text') = true) :
    erase (SyntaxTree.parse id path text).root = erase (SyntaxTree.parse id' path' text').root ∧
    ∃ es es', (SyntaxTree.parse id path text).errors =
        (tokenize text).errors.map ParseError.ofLexError ++ es ∧
      (SyntaxTree.parse id' path' text').errors =
        (tokenize text').errors.map ParseError.ofLexError ++ es' ∧
      es.map (fun e => (e.kind, e.message)) = es'.map fun e => (e.kind, e.message) := by
  obtain ⟨hroot, hstate⟩ := Parser.sourceUnit_alike _ _ (ParserState.ofText_alike h)
  exact ⟨hroot, (Parser.sourceUnit.run (.ofText text)).2.errors,
    (Parser.sourceUnit.run (.ofText text')).2.errors, rfl, rfl,
    ParseError.map_eq_of_erase hstate.errors_eq⟩

/-- Comments, a line about nullable references and a stray character change nothing
    but places. -/
theorem parse_eq_with_trivia :
    (SyntaxTree.parse 0 "One.cs" "class A\x7b\x7d").isEquivalent
      (SyntaxTree.parse 1 "Two.cs" "#nullable enable\nclass /* a */ A \\ \x7b \x7d // end") = true ∧
    erase (SyntaxTree.parse 0 "One.cs" "class A\x7b\x7d").root =
      erase (SyntaxTree.parse 1 "Two.cs"
        "#nullable enable\nclass /* a */ A \\ \x7b \x7d // end").root ∧
    ∃ es es', (SyntaxTree.parse 0 "One.cs" "class A\x7b\x7d").errors =
        (tokenize "class A\x7b\x7d").errors.map ParseError.ofLexError ++ es ∧
      (SyntaxTree.parse 1 "Two.cs"
          "#nullable enable\nclass /* a */ A \\ \x7b \x7d // end").errors =
        (tokenize "#nullable enable\nclass /* a */ A \\ \x7b \x7d // end").errors.map
          ParseError.ofLexError ++ es' ∧
      es.map (fun e => (e.kind, e.message)) = es'.map fun e => (e.kind, e.message) :=
  ⟨by decide +kernel, parse_eq_of_isEquivalent 0 1 "One.cs" "Two.cs" _ _ (by decide +kernel)⟩

end CommandModules

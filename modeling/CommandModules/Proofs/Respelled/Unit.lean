/-
  Command modules — equivalent trees are written with the same tokens.

  * `Declaration.Respells`: two declarations differ in places, and the types in them are
    written with the same tokens;
  * `membersWithin_abreast`, `entriesWithin_abreast`: members and declarations that are read
    abreast are written with the same tokens, by induction on their depth;
  * `SyntaxTree.IsRead.respells`: so are the units of equivalent trees, if they were read
    without an error.
-/
import CommandModules.Proofs.Respelled.Member
import CommandModules.Proofs.Syntax.Read

namespace CommandModules

open ParserState

/-! ## Declarations that are written with the same tokens -/

mutual

/-- The declarations differ in places, and the types in them are written with the same
    tokens. -/
inductive Declaration.Respells : Declaration → Declaration → Prop
  | namespace_ {n m : NamespaceDeclaration} : Erase.erase n.name = Erase.erase m.name →
      Erase.erase n.usings = Erase.erase m.usings → Declaration.AllRespell n.members m.members →
      Declaration.Respells (.namespace_ n) (.namespace_ m)
  | type {t u : TypeDeclaration} : t.Respells u → Declaration.Respells (.type t) (.type u)
  | delegate {d e : Delegate} : Erase.erase d = Erase.erase e → Declaration.Respells (.delegate d) (.delegate e)

/-- The declarations are written with the same tokens, one by one. -/
inductive Declaration.AllRespell : List Declaration → List Declaration → Prop
  | nil : Declaration.AllRespell [] []
  | cons {d e : Declaration} {ds es : List Declaration} : d.Respells e →
      Declaration.AllRespell ds es → Declaration.AllRespell (d :: ds) (e :: es)

end

/-- The using directives differ in places, and the declarations are written with the same
    tokens. -/
structure SourceUnit.Respells (u v : SourceUnit) : Prop where
  usings : erase u.usings = erase v.usings
  members : Declaration.AllRespell u.members v.members

mutual

theorem Declaration.Respells.refl : ∀ d : Declaration, d.Respells d
  | .namespace_ ⟨_, _, _, members, _⟩ => .namespace_ rfl rfl (Declaration.AllRespell.refl members)
  | .type t => .type (.refl t)
  | .delegate _ => .delegate rfl

theorem Declaration.AllRespell.refl : ∀ ds : List Declaration, Declaration.AllRespell ds ds
  | [] => .nil
  | d :: ds => .cons (.refl d) (.refl ds)

end

theorem SourceUnit.Respells.refl (u : SourceUnit) : u.Respells u :=
  ⟨rfl, .refl u.members⟩

mutual

/-- What is declared in the declarations is written with the same tokens, one by one. -/
theorem TypeDeclaration.Respells.declared {t u : TypeDeclaration} :
    t.Respells u → List.Forall₂ Declaration.Respells t.declared u.declared
  | .intro he hbases hmembers => by
    rw [TypeDeclaration.declared_eq, TypeDeclaration.declared_eq]
    exact .cons (.type (.intro he hbases hmembers)) hmembers.declared

theorem Member.Respells.declared {m n : Member} :
    m.Respells n → List.Forall₂ Declaration.Respells m.declared n.declared
  | .type h => h.declared
  | .method _ => .nil
  | .delegate h => .cons (.delegate h) .nil
  | .leaf hm hn => by
    rw [hm.declared_eq, hn.declared_eq]
    exact .nil

theorem Member.AllRespell.declared {ms ns : List Member} : Member.AllRespell ms ns →
    List.Forall₂ Declaration.Respells (Member.allDeclared ms) (Member.allDeclared ns)
  | .nil => .nil
  | .cons h hs => List.rel_append h.declared hs.declared

end

mutual

theorem Declaration.Respells.declared {d e : Declaration} :
    d.Respells e → List.Forall₂ Declaration.Respells d.declared e.declared
  | .namespace_ (n := n) (m := m) _ _ hmembers => by
    show List.Forall₂ Declaration.Respells n.declared m.declared
    rw [NamespaceDeclaration.declared_eq, NamespaceDeclaration.declared_eq]
    exact hmembers.declared
  | .type h => h.declared
  | .delegate h => .cons (.delegate h) .nil

theorem Declaration.AllRespell.declared {ds es : List Declaration} : Declaration.AllRespell ds es →
    List.Forall₂ Declaration.Respells (Declaration.allDeclared ds) (Declaration.allDeclared es)
  | .nil => .nil
  | .cons h hs => List.rel_append h.declared hs.declared

end

theorem SourceUnit.Respells.declared {u v : SourceUnit} (h : u.Respells v) :
    List.Forall₂ Declaration.Respells u.declared v.declared :=
  h.members.declared

theorem Declaration.allRespell_of_forall₂ {ds es : List Declaration}
    (h : List.Forall₂ Declaration.Respells ds es) : Declaration.AllRespell ds es := by
  induction h with
  | nil => exact .nil
  | cons hd _ ih => exact .cons hd ih

namespace Parser

/-! ## Types -/

theorem baseType_abreast : Parser.Abreast baseType baseType TypeSyntax.Respells := by
  refine type_abreast.bind fun _ _ ht => .get fun s t hs => .after ?_
    (.of_safe (.lift skipGroup_alike) (fun _ _ => .lift skipGroup_safe) fun _ _ => .lift skipGroup_safe)
    (.pure ht fun hR => hR)
  rw [hs.alike.isAtMark]

theorem baseTypes_abreast : Parser.Abreast baseTypes baseTypes (List.Forall₂ TypeSyntax.Respells) := by
  refine .skipReader (eatMark_alike _) (fun _ _ => eatMark_safe) fun b b' hb =>
    .ite ?_ (commaSeparated_abreast baseType_abreast) (.pure rfl .nil)
  obtain rfl : b = b' := hb
  rfl

theorem enumMemberAfter_abreast {ms ms' : List Member} (h : erase ms = erase ms') :
    Reader.Abreast (enumMemberAfter ms) (enumMemberAfter ms') fun r r' =>
      List.Forall₂ Member.Respells ms ms' →
        Round.Rel (List.Forall₂ Member.Respells) (List.Forall₂ Member.Respells) r r' := by
  refine .get fun s t hs => .ite ?_ ?_ (.pure (by simp [*]) fun hms => hms)
  · rw [isInBraces_alike hs.alike]
  · refine .skip (orRecover_alike enumMember_alike) (fun _ _ => orRecover_safe enumMember_safe)
      fun m? m?' hm => ?_
    cases m? <;> cases m?' <;>
      simp only [erase_none, erase_some, reduceCtorEq, Option.some.injEq] at hm
    · exact .pure (by simp [*]) fun hms => hms
    · have hleaf {m m' : EnumMember} (hms : List.Forall₂ Member.Respells ms ms') :
          List.Forall₂ Member.Respells (ms ++ [.enumMember m]) (ms' ++ [.enumMember m']) :=
        List.rel_append hms (.cons (.leaf ⟨nofun, nofun, nofun⟩ ⟨nofun, nofun, nofun⟩) .nil)
      refine .skip (eatMark_alike _) (fun _ _ => eatMark_safe) fun b b' hb =>
        .ite ?_ (.pure (by simp [*]) hleaf) (.pure (by simp [*]) hleaf)
      obtain rfl : b = b' := hb
      rfl

theorem enumMembers_abreast :
    Reader.Abreast enumMembers enumMembers (List.Forall₂ Member.Respells) :=
  loop_abreast (I := List.Forall₂ Member.Respells) .nil (fun _ _ => enumMemberAfter_abreast) .nil

section
variable {members members' : Reader (List Member)}
  (h : Reader.Abreast members members' (List.Forall₂ Member.Respells))
include h

theorem typeBody_abreast :
    Parser.Abreast (typeBody members) (typeBody members') (List.Forall₂ Member.Respells) := by
  refine .skipReader (eatMark_alike _) (fun _ _ => eatMark_safe) fun b b' hb => .ite ?_ (.pure rfl .nil) ?_
  · obtain rfl : b = b' := hb
    rfl
  · exact .skip (expectMark_alike _).discard (fun _ _ => expectMark_safe.discard)
      fun _ _ _ => .andThen h fun _ _ hm =>
        .skipReader (expectClosing_alike _) (fun _ _ => expectClosing_safe)
          fun _ _ _ => .skip (Parser.Alike.lift (eatMark_alike _)).discard
            (fun _ _ => (Parser.Safe.lift eatMark_passes).discard) fun _ _ _ => .pure hm fun hR => hR

theorem typeWithMembers_abreast {head head' : Head} (hh : erase head = erase head') :
    Parser.Abreast (typeWithMembers members head) (typeWithMembers members' head')
      TypeDeclaration.Respells := by
  refine .skipReader typeKind_alike (fun _ _ => typeKind_safe) fun kind kind' hkind => ?_
  obtain rfl : kind = kind' := hkind
  refine .skip ident_alike (fun _ _ => ident_safe) fun _ _ _ => ?_
  refine .skip typeParameters_alike (fun _ _ => typeParameters_safe) fun _ _ _ => .get fun s t hs => ?_
  refine .join (R := fun _ _ => True) ?_ (parameters_abreast.map
    (fun _ _ h => by rw [erase_some, erase_some, h]) fun _ _ _ => ⟨⟩) (.pure rfl ⟨⟩) fun _ _ _ => ?_
  · rw [hs.alike.isAtMark]
  refine baseTypes_abreast.bind fun _ _ _ => ?_
  refine .skip constraintClauses_alike (fun _ _ => constraintClauses_safe) fun _ _ _ => ?_
  refine (typeBody_abreast (.ite Iff.rfl enumMembers_abreast h)).bind fun _ _ _ => .get fun _ _ _ => ?_
  have hattributes := Head.attributes_eq hh
  have hmodifiers := Head.modifiers_eq hh
  refine .pure (by simp only [erase_typeDeclaration, *]) fun hmembers hbases _ => ?_
  exact .intro (by simp only [erase_typeDeclaration, *]) hbases (Member.allRespell_iff.2 hmembers)

theorem memberWith_abreast :
    Parser.Abreast (memberWith members) (memberWith members') (Option.Rel Member.Respells) := by
  refine .skipReader (eatMark_alike _) (fun _ _ => eatMark_safe) fun b b' hb => .ite ?_ (.pure rfl .none) ?_
  · obtain rfl : b = b' := hb
    rfl
  · refine head_abreast.bind fun _ _ hh => .get fun s t hs => .ite ?_
      ((typeWithMembers_abreast h hh).bind fun _ _ _ => .pure (by simp [*]) fun ht _ => .some (.type ht))
      ((memberAfter_abreast hh).bind fun _ _ _ => .pure (by simp [*]) fun hm hattributes =>
        .some (hm hattributes))
    rw [isAtType_alike hs.alike]

theorem memberStep_abreast {ms ms' : List Member} (hms : erase ms = erase ms') :
    Reader.Abreast (memberStep members ms) (memberStep members' ms') fun r r' =>
      List.Forall₂ Member.Respells ms ms' →
        Round.Rel (List.Forall₂ Member.Respells) (List.Forall₂ Member.Respells) r r' := by
  refine .get fun s t hs => .ite ?_ ?_ (.pure (by simp [*]) fun hms => hms)
  · rw [isInBraces_alike hs.alike]
  · rw [hs.alike.place_eq]
    refine (orRecover_abreast (memberWith_abreast h)).bind fun m? m?' hm =>
      .skip (moveOn_alike _) (fun _ _ => moveOn_safe) fun _ _ _ => .pure ?_ fun hR hms => ?_
    · have hjoin : erase m?.join.toList = erase m?'.join.toList := by
        rcases m? with _ | _ | m <;> rcases m?' with _ | _ | m' <;> simp_all
      simp [*]
    · refine List.rel_append hms ?_
      cases hR with
      | none => exact .nil
      | some hR =>
        cases hR with
        | none => exact .nil
        | some hR => exact .cons hR .nil

end

theorem membersWithin_abreast (depth : Nat) :
    Reader.Abreast (membersWithin depth) (membersWithin depth) (List.Forall₂ Member.Respells) := by
  induction depth with
  | zero => exact stall_abreast .nil
  | succ depth ih =>
    exact loop_abreast (I := List.Forall₂ Member.Respells) .nil (fun _ _ => memberStep_abreast ih) .nil

theorem typeDeclaration_abreast {head head' : Head} (h : erase head = erase head') :
    Parser.Abreast (typeDeclaration head) (typeDeclaration head') TypeDeclaration.Respells :=
  typeWithMembers_abreast (.skip rounds_alike (fun _ _ => rounds_safe) fun n m hnm => by
    obtain rfl : n = m := hnm
    exact membersWithin_abreast n) h

/-! ## Namespaces -/

/-- The declarations among the entries are written with the same tokens. -/
def EntriesRespell (es es' : List Entry) : Prop :=
  List.Forall₂ Declaration.Respells (Entry.declarations es) (Entry.declarations es')

theorem EntriesRespell.append {es es' fs fs' : List Entry} (h : EntriesRespell es es')
    (h' : EntriesRespell fs fs') : EntriesRespell (es ++ fs) (es' ++ fs') := by
  rw [EntriesRespell, Entry.declarations, Entry.declarations, List.filterMap_append,
    List.filterMap_append]
  exact List.rel_append h h'

section
variable {nested nested' : Bool → Reader (List Entry)}
  (h : ∀ braced, Reader.Abreast (nested braced) (nested' braced) EntriesRespell)
include h

theorem namespaceEntries_abreast (isFileScoped : Bool) :
    Parser.Abreast (namespaceEntries nested isFileScoped) (namespaceEntries nested' isFileScoped)
      EntriesRespell :=
  .ite Iff.rfl (.lift (h false)) <|
    .skip (expectMark_alike _).discard (fun _ _ => expectMark_safe.discard) fun _ _ _ =>
      .andThen (h true) fun _ _ hes =>
        .skipReader (expectClosing_alike _) (fun _ _ => expectClosing_safe) fun _ _ _ =>
          .skip (Parser.Alike.lift (eatMark_alike _)).discard
            (fun _ _ => (Parser.Safe.lift eatMark_passes).discard) fun _ _ _ => .pure hes fun hR => hR

theorem namespaceWith_abreast (start start' : Span) :
    Parser.Abreast (namespaceWith nested start) (namespaceWith nested' start') fun n m =>
      (Declaration.namespace_ n).Respells (.namespace_ m) := by
  refine .skip (expect_alike _).discard (fun _ _ => expectWord_safe.discard) fun _ _ _ => ?_
  refine .skip name_alike (fun _ _ => name_safe) fun name name' hname => ?_
  refine .skipReader (eatMark_alike _) (fun _ _ => eatMark_safe) fun b b' hb => ?_
  obtain rfl : b = b' := hb
  refine (namespaceEntries_abreast h b).bind fun es es' hes => ?_
  have husings := Entry.usings_alike hes
  have hdeclarations := Entry.declarations_alike hes
  have hnamespace : Parser.Abreast
      (do return (⟨name, b, Entry.usings es, Entry.declarations es, (← get).spanFrom start⟩ :
        NamespaceDeclaration))
      (do return (⟨name', b, Entry.usings es', Entry.declarations es', (← get).spanFrom start'⟩ :
        NamespaceDeclaration)) fun n m => EntriesRespell es es' →
          (Declaration.namespace_ n).Respells (.namespace_ m) :=
    .get fun _ _ _ => .pure (by simp only [erase_namespaceDeclaration, *]) fun hR =>
      .namespace_ hname husings (Declaration.allRespell_of_forall₂ hR)
  have hattributes := Entry.globalAttributes_alike hes
  dsimp only
  cases hl : Entry.globalAttributes es <;> cases hl' : Entry.globalAttributes es' <;>
    rw [hl, hl'] at hattributes
  · exact hnamespace
  · cases hattributes
  · cases hattributes
  · exact .pass (.lift (report_abreast rfl)) fun _ _ _ => hnamespace

theorem declarationWith_abreast :
    Parser.Abreast (declarationWith nested) (declarationWith nested') Declaration.Respells := by
  refine .skip head_alike (fun _ _ => head_safe) fun _ _ hh => .get fun s t hs => .ite ?_
    ((namespaceWith_abreast h _ _).bind fun _ _ _ => .pure (by simp [*]) fun hn => hn) <| .ite ?_
    ((Parser.Abreast.of_safe (delegate_alike hh) (fun _ _ => delegate_safe)
      fun _ _ => delegate_safe).pass fun _ _ hd => .pure (by simp [*]) (.delegate hd)) <| .ite ?_
    ((typeDeclaration_abreast hh).bind fun _ _ _ => .pure (by simp [*]) fun ht => .type ht)
    (failAt_abreast _ _)
  · rw [hs.alike.isAt]
  · rw [hs.alike.isAt]
  · rw [isAtType_alike hs.alike]

theorem entryWith_abreast : Reader.Abreast (entryWith nested) (entryWith nested') fun e? e?' =>
    EntriesRespell e?.toList e?'.toList := by
  have recover {p q : Parser Entry} (hp : Parser.Abreast p q fun e e' => EntriesRespell [e] [e']) :
      Reader.Abreast (orRecover p) (orRecover q) fun e? e?' => EntriesRespell e?.toList e?'.toList :=
    (orRecover_abreast hp).mono fun e? e?' he => by
      cases he with
      | none => exact .nil
      | some he => exact he
  refine .get fun s t hs => .ite ?_ ?_ <| .ite ?_ ?_ <| .ite ?_ (recover ?_) <|
    .ite ?_ (recover ?_) (recover ?_)
  · rw [hs.alike.isAtMark]
  · exact .skip advance_alike (fun _ _ => advance_passes) fun _ _ _ =>
      .pass (report_abreast rfl) fun _ _ _ => .pure rfl .nil
  · simp only [isAtExternAlias, hs.alike.isAt, hs.alike.peekAt_isContextual]
  · exact .skip synchronize_alike (fun _ _ => synchronize_safe) fun _ _ _ => .pure rfl .nil
  · simp only [isAtUsing, hs.alike.isAt, hs.alike.peek_isContextual, hs.alike.peekAt_kind]
  · exact (Parser.Abreast.of_safe using_alike (fun _ _ => using_safe) fun _ _ => using_safe).map
      (fun _ _ => congrArg Entry.using_) fun _ _ _ => .nil
  · simp only [isAtGlobalAttributes, hs.alike.isAtMark, hs.alike.peekAt_isContextual,
      hs.alike.peekAt_kind]
  · exact attributeSection_abreast.map (fun _ _ => congrArg Entry.attributes) fun _ _ _ => .nil
  · exact (declarationWith_abreast h).map (fun _ _ => congrArg Entry.declaration)
      fun _ _ hd => .cons hd .nil

theorem entryStep_abreast (braced : Bool) {es es' : List Entry} (hes : erase es = erase es') :
    Reader.Abreast (entryStep nested braced es) (entryStep nested' braced es') fun r r' =>
      EntriesRespell es es' → Round.Rel EntriesRespell EntriesRespell r r' := by
  refine .get fun s t hs => .ite ?_ (.pure (by simp [*]) fun hR => hR) ?_
  · rw [hs.alike.isAtEof, hs.alike.isAtMark]
  · rw [hs.alike.place_eq]
    refine (entryWith_abreast h).bind fun e? e?' he => .skip (moveOn_alike _) (fun _ _ => moveOn_safe)
      fun _ _ _ => .pure ?_ fun hR hes => hes.append hR
    have htoList : erase e?.toList = erase e?'.toList := by
      cases e? <;> cases e?' <;> simp_all
    simp [*]

end

theorem entriesWithin_abreast (depth : Nat) (braced : Bool) :
    Reader.Abreast (entriesWithin depth braced) (entriesWithin depth braced) EntriesRespell := by
  induction depth generalizing braced with
  | zero => exact stall_abreast .nil
  | succ depth ih =>
    exact loop_abreast (I := EntriesRespell) .nil (fun _ _ => entryStep_abreast ih braced) .nil

theorem sourceUnit_abreast : Reader.Abreast sourceUnit sourceUnit SourceUnit.Respells := by
  refine .get fun _ _ _ => .skip rounds_alike (fun _ _ => rounds_safe) fun n m h => ?_
  obtain rfl : n = m := h
  refine (entriesWithin_abreast n false).bind fun es es' hes => .get fun _ _ _ => .pure ?_ fun hR => ?_
  · simp only [erase_sourceUnit, Entry.usings_alike hes, Entry.globalAttributes_alike hes,
      Entry.declarations_alike hes]
  · exact ⟨Entry.usings_alike hes, Declaration.allRespell_of_forall₂ hR⟩

end Parser

/-! ## Equivalent trees -/

namespace SyntaxTree

theorem differenceAt?_of_erase {ts us : List Token} (h : erase ts = erase us) :
    differenceAt? ts us = none := by
  induction ts generalizing us with
  | nil =>
    cases us with
    | nil => rfl
    | cons u us => cases h
  | cons t ts ih =>
    cases us with
    | nil => cases h
    | cons u us =>
      rw [erase_cons, erase_cons, List.cons.injEq, erase_token, erase_token, Token.mk.injEq] at h
      rw [differenceAt?, ih h.2, if_pos (by rw [Token.agrees, h.1.1, h.1.2.1]; simp)]
      rfl

/-- Trees are equivalent if their tokens differ in places only. -/
theorem isEquivalent_iff {t u : SyntaxTree} :
    t.isEquivalent u = true ↔ erase t.tokens = erase u.tokens := by
  rw [isEquivalent, Option.isNone_iff_eq_none]
  exact ⟨differenceAt?_eq_none, differenceAt?_of_erase⟩

theorem isEquivalent_symm {t u : SyntaxTree} (h : t.isEquivalent u = true) : u.isEquivalent t = true :=
  isEquivalent_iff.2 (isEquivalent_iff.1 h).symm

end SyntaxTree

/-- The beginnings of texts without errors that have the same tokens. -/
theorem ParserState.ofText_abreast {id id' : Nat} {path path' text text' : String}
    (h : (SyntaxTree.parse id path text).isEquivalent (SyntaxTree.parse id' path' text') = true)
    (ht : (tokenize text).errors = []) (ht' : (tokenize text').errors = []) :
    (ofText text).Abreast (ofText text') where
  alike := ofText_alike h
  left := ⟨ofText_good text, ofText_spelt ht⟩
  right := ⟨ofText_good text', ofText_spelt ht'⟩

/-- **Equivalent trees are written with the same tokens**, if they were read without an
    error. -/
theorem SyntaxTree.IsRead.respells {t u : SyntaxTree} (ht : t.IsRead) (hu : u.IsRead)
    (h : t.isEquivalent u = true) : t.root.Respells u.root := by
  obtain ⟨⟨id, path, text, rfl⟩, he⟩ := ht
  obtain ⟨⟨id', path', text', rfl⟩, he'⟩ := hu
  obtain ⟨hl, hs⟩ := List.append_eq_nil_iff.1 he
  obtain ⟨hl', -⟩ := List.append_eq_nil_iff.1 he'
  have habreast := ParserState.ofText_abreast h (List.map_eq_nil_iff.1 hl) (List.map_eq_nil_iff.1 hl')
  exact ((Parser.sourceUnit_abreast _ _ habreast).2.2 hs).2

end CommandModules

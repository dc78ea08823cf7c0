/-
  Command modules — fragments of classes that are written with the same tokens.

  * `Options.LeavesLines`: what options put into a fragment is closed, so that no line of it
    reaches into the lines below;
  * `Method.Respells.command`: commands are taken over from methods with the same tokens;
  * `TypeDeclaration.Respells.part_alike`: parts of classes that are written with the same
    tokens are alike;
  * `TypeDeclaration.Respells.fragment_isEquivalent`: so the trees of the fragments are
    equivalent.
-/
import CommandModules.Proofs.Compilation.Respelled
import CommandModules.Proofs.Registration.Readable
import CommandModules.Proofs.Token.Closed

namespace CommandModules

/-- What the options put into a fragment is closed: the indentation, and the three lines. -/
structure Options.LeavesLines (o : Options) : Prop where
  indent : IsClosed o.indent
  hook : IsClosed (s!"protected override {o.hookSignature}" ++ "\n")
  collection : IsClosed (s!"return new {o.collectionType}[]" ++ "\n")
  builder : IsClosed (s!"new {o.builderType}()" ++ "\n")

/-- Options leave the lines alone if they are indented with blanks and spell tokens. -/
theorem Options.LeavesLines.of_isSpelling {o : Options} (hi : ∀ c ∈ o.indent.toList, Text.isBlank c = true)
    (hh : isSpelling s!"protected override {o.hookSignature}" = true)
    (hc : isSpelling s!"return new {o.collectionType}[]" = true)
    (hb : isSpelling s!"new {o.builderType}()" = true) : o.LeavesLines where
  indent := .of_blanks hi
  hook := (spells_tokensOf hh).isClosed
  collection := (spells_tokensOf hc).isClosed
  builder := (spells_tokensOf hb).isClosed

/-- Options that fit the host leave the lines alone. -/
theorem Options.FitsHost.leavesLines {o : Options} (h : o.FitsHost) : o.LeavesLines := by
  refine .of_isSpelling h.isBlank_indent ?_ ?_ ?_
  · rw [h.hookSignature]
    decide +kernel
  · rw [h.collectionType]
    decide +kernel
  · rw [h.builderType]
    decide +kernel

/-! ## Declarations -/

theorem map_eq_of_erase {α β : Type} [Erase α] {f : α → β} (hf : ∀ a, f (erase a) = f a)
    {as bs : List α} (h : erase as = erase bs) : as.map f = bs.map f := by
  have he (as : List α) : (erase as).map f = as.map f := by
    rw [show erase as = as.map erase from rfl, List.map_map]
    exact List.map_congr_left fun a _ => hf a
  rw [← he, h, he]

section
variable {t u : TypeDeclaration}

namespace TypeDeclaration.Respells

theorem erase_eq (h : t.Respells u) : Erase.erase t = Erase.erase u := by
  cases h with
  | intro h _ _ => exact h

/-- The methods are written with the same tokens. -/
theorem methods (h : t.Respells u) : List.Forall₂ Method.Respells t.methods u.methods := by
  cases h with
  | intro _ _ hmembers =>
    refine List.rel_filterMap (fun m n hmn => ?_) (Member.allRespell_iff.1 hmembers)
    cases hmn with
    | type => exact .none
    | method h => exact .some h
    | delegate => exact .none
    | leaf hm hn =>
      cases m with
      | method x => exact absurd rfl (hm.not_method x)
      | _ =>
        cases n with
        | method x => exact absurd rfl (hn.not_method x)
        | _ => exact .none

theorem kind_eq (h : t.Respells u) : t.kind = u.kind :=
  (t.head_of_erase h.erase_eq).2.1

theorem name_eq (h : t.Respells u) : t.name.name = u.name.name :=
  (congrArg Ident.name (t.head_of_erase h.erase_eq).2.2.1 :)

theorem words_eq (h : t.Respells u) :
    t.modifiers.words.map Ident.name = u.modifiers.words.map Ident.name :=
  map_eq_of_erase (fun _ => rfl) (congrArg WrittenModifiers.words (t.head_of_erase h.erase_eq).1 :)

theorem parameterNames_eq (h : t.Respells u) : t.parameterNames = u.parameterNames :=
  map_eq_of_erase (fun _ => rfl) (t.head_of_erase h.erase_eq).2.2.2

/-- Their parts begin with the same line. -/
theorem header_eq (h : t.Respells u) : t.header = u.header := by
  have hempty (t : TypeDeclaration) : t.modifiers.words.isEmpty =
      (t.modifiers.words.map Ident.name).isEmpty := List.isEmpty_map.symm
  have hparameters (t : TypeDeclaration) : t.typeParameters.isEmpty = t.parameterNames.isEmpty :=
    List.isEmpty_map.symm
  simp only [TypeDeclaration.header, WrittenModifiers.text, hempty, hparameters, h.words_eq, h.kind_eq,
    h.name_eq, ← TypeDeclaration.parameterNames.eq_1, h.parameterNames_eq]

end TypeDeclaration.Respells

end

/-! ## Commands -/

/-- Names and types of parameters are written with the same tokens. -/
structure Command.Respells (c d : Command) : Prop where
  name : Option.Rel SpellAlike c.name? d.name?
  types : List.Forall₂ SpellAlike c.parameterTypes d.parameterTypes

/-- A text is a word if it is written with the same token. -/
theorem SpellAlike.eq_word_iff {a b w : String} (h : SpellAlike a b) (hw : IsWord w .identifier) :
    a = w ↔ b = w := by
  have main {a b : String} (h : SpellAlike a b) (ha : a = w) : b = w := by
    subst ha
    have := ((h _).1 (Spells.word hw)).eq_lexeme
    exact String.toList_injective this
  exact ⟨main h, main h.symm⟩

namespace Method.Respells

variable {m n : Method} {marker : String}

theorem allAttributes (h : m.Respells n) : List.Forall₂ Attribute.Respells m.allAttributes n.allAttributes :=
  List.rel_flatMap h.attributes fun _ _ hs => hs

/-- The first attributes that are written like the marker are written with the same tokens. -/
theorem marker? (h : m.Respells n) (hw : IsWord marker .identifier) : Option.Rel Attribute.Respells
    (m.allAttributes.find? fun a => a.name.text == marker)
    (n.allAttributes.find? fun a => a.name.text == marker) := by
  have := h.allAttributes
  generalize m.allAttributes = as, n.allAttributes = bs at this
  induction this with
  | nil => exact .none
  | @cons a b as bs hab _ ih =>
    have hbeq : (a.name.text == marker) = (b.name.text == marker) := by
      rw [Bool.eq_iff_iff, beq_iff_eq, beq_iff_eq]
      exact hab.name.eq_word_iff hw
    rw [List.find?_cons, List.find?_cons, ← hbeq]
    cases a.name.text == marker with
    | true => exact .some hab
    | false => exact ih

theorem isMarked_iff (h : m.Respells n) (hw : IsWord marker .identifier) :
    m.IsMarked marker ↔ n.IsMarked marker := by
  have hsome {m : Method} : m.IsMarked marker ↔
      (m.allAttributes.find? fun a => a.name.text == marker).isSome = true := by
    simp [Method.IsMarked]
  rw [hsome, hsome, rel_isSome (h.marker? hw)]

/-- **What is taken over from a method** is written with the same tokens. -/
theorem command (h : m.Respells n) (hw : IsWord marker .identifier) :
    (m.command marker).Respells (n.command marker) where
  name := by
    refine rel_map (R := fun e e' => SpellAlike e.text e'.text) ?_ fun _ _ he => he
    refine rel_bind (R := AttributeArgument.Respells) ?_ fun _ _ hx => hx
    refine rel_bind (h.marker? hw) fun a b hab => ?_
    have := hab.arguments
    generalize a.arguments = as, b.arguments = bs at this
    cases this with
    | nil => exact .none
    | cons hx _ => exact .some hx
  types := by
    rw [Method.command, Method.command, List.forall₂_map_left_iff, List.forall₂_map_right_iff]
    exact h.parameters

end Method.Respells

/-- The marked methods of a class. -/
theorem TypeDeclaration.Respells.marked {t u : TypeDeclaration} (h : t.Respells u) {marker : String}
    (hw : IsWord marker .identifier) :
    List.Forall₂ Command.Respells (t.marked marker) (u.marked marker) := by
  rw [TypeDeclaration.marked, TypeDeclaration.marked, List.forall₂_map_left_iff,
    List.forall₂_map_right_iff]
  refine (List.rel_filter (fun m n hmn => ?_) h.methods).imp fun m n hmn => hmn.command hw
  simpa using hmn.isMarked_iff hw

/-! ## Layouts -/

/-- A text that is written with the tokens of another one spells them. -/
theorem SpellAlike.spells {a b : String} (h : SpellAlike a b) (ha : Spells a.toList (tokensOf a)) :
    Spells b.toList (tokensOf b) ∧ tokensOf b = tokensOf a := by
  have hb := (h _).1 ha
  exact ⟨hb.tokensOf_eq ▸ hb, hb.tokensOf_eq⟩

namespace Layout.Alike

variable {ls ms body body' : List Layout} {tail : String}

/-- Groups in braces are alike if what is in them is. -/
theorem braces (ht : isSpelling ("\x7d" ++ tail) = true) (h : Alike body body') :
    Alike [.braces body tail] [.braces body' tail] :=
  .block (Spells.mark (m := .leftBrace) rfl).isClosed (spells_tokensOf ht).isClosed h

theorem lines {f : String → String} {as bs : List String}
    (h : List.Forall₂ (fun a b => LinesAlike (f a) (f b)) as bs) :
    Alike (as.map fun a => .line (f a)) (bs.map fun b => .line (f b)) := by
  induction h with
  | nil => exact .nil
  | cons hab _ ih => exact .cons_line hab ih

end Layout.Alike

section
variable {c d : Command} {cs ds : List Command} {o : Options}

theorem SpellAlike.name_lines {a b : String} (h : SpellAlike a b) (ha : Spells a.toList (tokensOf a)) :
    LinesAlike s!"Name = {a}," s!"Name = {b}," := by
  obtain ⟨hb, heq⟩ := h.spells ha
  exact .of_spells (Command.spells_name ha) (by
    rw [Command.nameTokens, ← heq]
    exact Command.spells_name hb)

theorem SpellAlike.type_lines {a b : String} (h : SpellAlike a b) (ha : Spells a.toList (tokensOf a)) :
    LinesAlike s!"typeof({a})," s!"typeof({b})," := by
  obtain ⟨hb, heq⟩ := h.spells ha
  exact .of_spells (Command.spells_type ha) (by
    rw [Command.typeTokens, ← heq]
    exact Command.spells_type hb)

/-- **Entries of commands that are written with the same tokens are alike.** -/
theorem Command.Respells.registration_alike (ho : o.LeavesLines) (h : c.Respells d) (hc : c.IsWritten) :
    Layout.Alike (c.registration o) (d.registration o) := by
  refine .cons_line (.refl ho.builder) (.braces (by decide +kernel) (.append ?_ ?_))
  · have hname := h.name
    have hspells := hc.name
    generalize c.name? = a?, d.name? = b? at hname hspells
    cases hname with
    | none => exact .nil
    | some hab => exact .one (hab.name_lines (hspells _ rfl).2)
  · have htypes := h.types
    have hspells := hc.types
    have hempty : c.parameterTypes.isEmpty = d.parameterTypes.isEmpty := by
      rw [Bool.eq_iff_iff, List.isEmpty_iff_length_eq_zero, List.isEmpty_iff_length_eq_zero,
        htypes.length_eq]
    rw [List.isEmpty_map, List.isEmpty_map, hempty]
    split
    · exact .nil
    · refine .cons_line (.refl (spells_tokensOf (by decide +kernel)).isClosed)
        (.braces (by decide +kernel) (.lines ?_))
      rw [List.forall₂_iff_zip] at htypes ⊢
      exact ⟨htypes.1, fun hab => (htypes.2 hab).type_lines (hspells _ (List.of_mem_zip hab).1).2⟩

theorem entries_alike (ho : o.LeavesLines) (h : List.Forall₂ Command.Respells cs ds)
    (hcs : ∀ c ∈ cs, c.IsWritten) :
    Layout.Alike (cs.flatMap (Command.registration o)) (ds.flatMap (Command.registration o)) := by
  induction h with
  | nil => exact .nil
  | cons hcd _ ih =>
    obtain ⟨hc, hcs⟩ := List.forall_mem_cons.1 hcs
    exact .append (hcd.registration_alike ho hc) (ih hcs)

end

/-! ## Trees -/

/-- Trees of texts with the same tokens are equivalent, wherever the texts stand. -/
theorem SyntaxTree.isEquivalent_of_tokens {text text' : String}
    (h : tokensFrom text.toList = tokensFrom text'.toList) (id id' : Nat) (path path' : String) :
    (SyntaxTree.parse id path text).isEquivalent (.parse id' path' text') = true := by
  have hafter (text : String) : erase (ParserState.ofText text).after =
      (tokensFrom text.toList).filter fun t => t.kind != .error := by
    rw [← erase_tokenize, ← erase_filter fun _ => rfl]
    rfl
  have heof (text : String) : erase (ParserState.ofText text).eof = ⟨.eof, "", default⟩ :=
    congrArg erase (tokenize_ends text).1
  have htokens (id : Nat) (path text : String) : erase (SyntaxTree.parse id path text).tokens =
      (tokensFrom text.toList).filter (fun t => t.kind != .error) ++ [⟨.eof, "", default⟩] := by
    show erase ((ParserState.ofText text).after ++ [(ParserState.ofText text).eof]) = _
    rw [erase_append, hafter, erase_cons, heof]
    rfl
  rw [isEquivalent_iff, htokens, htokens, h]

theorem tokensFrom_of_begins {cs : List Char} (h : BeginsToken cs) : tokensFrom cs = tokensBelow cs :=
  tokensFrom_congr (by rw [h.2, skipGap_newline, h.gapEnd_eq])

/-- Layouts that are alike have equivalent trees, if they begin with a line of tokens. -/
theorem Layout.Alike.isEquivalent {unit line : String} {ts : List Token} {ls ms : List Layout}
    (hu : IsClosed unit) (hline : Spells line.toList ts)
    (h : Alike (.line line :: ls) (.line line :: ms)) (id id' : Nat) (path path' : String) :
    (SyntaxTree.parse id path (render unit (.line line :: ls))).isEquivalent
      (.parse id' path' (render unit (.line line :: ms))) = true := by
  have hbegins (ls : List Layout) : BeginsToken (render unit (.line line :: ls)).toList := by
    have hne : line.isEmpty = false := by simpa using hline.text_ne_nil
    have := hline.begins ('\n' :: (String.join ((linesOfAll 0 ls).map (lineText unit))).toList)
      (.cons (by decide))
    simpa [render, linesOfAll, Layout.lines, lineText, hne] using this
  refine SyntaxTree.isEquivalent_of_tokens ?_ id id' path path'
  rw [tokensFrom_of_begins (hbegins ls), tokensFrom_of_begins (hbegins ms), h.tokens_eq hu]

/-! ## Fragments -/

namespace TypeDeclaration.Respells

variable {t u : TypeDeclaration} {cs ds : List Command} {o : Options}
  (h : t.Respells u) (ho : o.LeavesLines) (hk : t.kind = .class_) (ht : t.IsWritten)
  (hcs : List.Forall₂ Command.Respells cs ds) (hwritten : ∀ c ∈ cs, c.IsWritten)
include h ho hk ht hcs hwritten

/-- **Parts of classes that are written with the same tokens are alike.** -/
theorem part_alike : Layout.Alike (t.part cs o) (u.part ds o) := by
  obtain ⟨ms, _, -, hw⟩ := ht.modifiers hk
  have hheader := spells_header hk ht hw.worded hw.words.names_eq
  rw [TypeDeclaration.part, TypeDeclaration.part, ← h.header_eq]
  exact .cons_line (.refl hheader.isClosed) <| .braces (by decide +kernel) <|
    .cons_line (.refl ho.hook) <| .braces (by decide +kernel) <|
      .cons_line (.refl ho.collection) <| .braces (by decide +kernel) (entries_alike ho hcs hwritten)

/-- **The trees of their fragments are equivalent**, in the same namespace or in none. -/
theorem fragment_isEquivalent {namespace? : Option String}
    (hn : ∀ name, namespace? = some name → ∃ ts, Spells s!"namespace {name}".toList ts)
    (id id' : Nat) (path path' : String) :
    (SyntaxTree.parse id path (t.fragment cs o namespace?)).isEquivalent
      (.parse id' path' (u.fragment ds o namespace?)) = true := by
  have hpart := h.part_alike ho hk ht hcs hwritten
  cases namespace? with
  | none =>
    obtain ⟨ms, _, -, hw⟩ := ht.modifiers hk
    have hheader := spells_header hk ht hw.worded hw.words.names_eq
    rw [TypeDeclaration.part, TypeDeclaration.part, ← h.header_eq] at hpart
    rw [TypeDeclaration.fragment, TypeDeclaration.fragment, TypeDeclaration.part,
      TypeDeclaration.part, ← h.header_eq]
    exact hpart.isEquivalent ho.indent hheader id id' path path'
  | some name =>
    obtain ⟨ts, hline⟩ := hn name rfl
    have hbraces : Layout.Alike [.braces (t.part cs o) ""] [.braces (u.part ds o) ""] :=
      .braces (by decide +kernel) hpart
    exact (Layout.Alike.cons_line (.refl hline.isClosed) hbraces).isEquivalent ho.indent hline id id' path path'

end TypeDeclaration.Respells

end CommandModules

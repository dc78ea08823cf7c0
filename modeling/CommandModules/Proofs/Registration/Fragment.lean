/-
  Command modules — fragments are read again.

  * `Command.IsNested`: the expression that names a command is nested; in the entry of a
    command this is all that can go wrong;
  * `TypeDeclaration.IsPartOf`: a type is one more part of another one, with one method;
  * `fragment_parses`: a fragment is read just if the names of its commands are nested, and
    then it holds one more part of its class; `fragment_parses_in` says this of a fragment
    in a namespace, no piece of whose name may be a reserved word.
-/
import CommandModules.Proofs.Registration.Spelling

namespace CommandModules

open ParserState

/-! ## Nested entries -/

/-- The phrases of a fragment between its braces are nested. -/
theorem nested_phrase : ∀ phrase ∈ ["new CommandInfoBuilder()", "Name =",
    "ParameterTypes = new Type[]", ".Build(),", "return new CommandInfo[]"],
    Nested (tokensOf phrase) := by
  decide +kernel

/-- How the lines with a closing brace are read. -/
theorem tokensOf_closing :
    tokensOf "\x7d," = [markToken .rightBrace, markToken .comma] ∧
      tokensOf "\x7d.Build()," = markToken .rightBrace :: tokensOf ".Build()," ∧
      tokensOf "\x7d;" = [markToken .rightBrace, markToken .semicolon] := by
  decide +kernel

namespace Command

variable {c : Command} {outer : List Punct} {eof : Token} {rest : List Token}

/-- Is the expression that names the command nested? -/
def IsNested (c : Command) : Prop :=
  ∀ name, c.name? = some name → Nested (tokensOf name)

instance (c : Command) : Decidable c.IsNested :=
  inferInstanceAs (Decidable (∀ name, c.name? = some name → Nested (tokensOf name)))

theorem nested_typeTokens {type : String} (h : Nested (tokensOf type)) : Nested (typeTokens type) := by
  have hgroup : Nested (markToken .leftParen :: (tokensOf type ++ [markToken .rightParen])) :=
    .group rfl rfl rfl h
  have := Nested.cons (t := keywordToken .typeof) rfl (hgroup.append (.one (t := markToken .comma) rfl))
  simpa [typeTokens] using this

theorem nested_parameterTokens (h : c.IsWritten) : Nested c.parameterTokens := by
  unfold parameterTokens
  split
  · exact .nil
  have htypes : Nested (c.parameterTypes.flatMap typeTokens) := by
    have hall := fun type ht => (h.types type ht).1
    clear h
    generalize c.parameterTypes = types at hall
    induction types with
    | nil => exact .nil
    | cons type types ih =>
      obtain ⟨ht, hts⟩ := List.forall_mem_cons.1 hall
      exact (nested_typeTokens ht).append (ih hts)
  have hgroup : Nested (markToken .leftBrace :: (c.parameterTypes.flatMap typeTokens ++
      [markToken .rightBrace])) := .group rfl rfl rfl htypes
  have := (nested_phrase "ParameterTypes = new Type[]" (by simp)).append
    (hgroup.append (.one (t := markToken .comma) rfl))
  simpa [tokensOf_closing] using this

/-- The entry of a command whose name is nested is nested. -/
theorem nested_entryTokens (h : c.IsWritten) (hn : c.IsNested) : Nested c.entryTokens := by
  have hname : Nested (c.name?.toList.flatMap nameTokens) := by
    cases hc : c.name? with
    | none => exact .nil
    | some name =>
      have := (nested_phrase "Name =" (by simp)).append
        ((hn name hc).append (.one (t := markToken .comma) rfl))
      simpa [nameTokens] using this
  have hgroup : Nested (markToken .leftBrace :: (c.name?.toList.flatMap nameTokens ++ c.parameterTokens ++
      [markToken .rightBrace])) := .group rfl rfl rfl (hname.append (nested_parameterTokens h))
  have := (nested_phrase "new CommandInfoBuilder()" (by simp)).append
    (hgroup.append (nested_phrase ".Build()," (by simp)))
  simpa [entryTokens, tokensOf_closing] using this

/-- In braces that are closed, the entry of a command can only be read if its name is
    nested. -/
theorem isNested_of_take (h : c.IsWritten)
    (he : (Group.take eof (.leftBrace :: outer) (c.entryTokens ++ rest)).errors = []) :
    c.IsNested := by
  intro name hc
  have htokens : c.entryTokens ++ rest = tokensOf "new CommandInfoBuilder()" ++ (markToken .leftBrace ::
      (tokensOf "Name =" ++ (tokensOf name ++ ((markToken .comma :: c.parameterTokens) ++
        markToken .rightBrace :: (tokensOf ".Build()," ++ rest))))) := by
    simp [entryTokens, hc, nameTokens, tokensOf_closing]
  rw [htokens, Group.take_append_of_nested (nested_phrase _ (by simp)) (by simp),
    Group.take_opener rfl rfl,
    Group.take_append_of_nested (nested_phrase _ (by simp)) (by simp)] at he
  exact Keeps.nested_of_take (h.name name hc).1 (.cons rfl (nested_parameterTokens h)) rfl he

end Command

variable {cs : List Command} {eof : Token} {outer : List Punct} {rest : List Token}

theorem nested_entries (h : ∀ c ∈ cs, c.IsWritten) (hn : ∀ c ∈ cs, c.IsNested) :
    Nested (cs.flatMap Command.entryTokens) := by
  induction cs with
  | nil => exact .nil
  | cons c cs ih =>
    obtain ⟨hc, hcs⟩ := List.forall_mem_cons.1 h
    obtain ⟨hc', hcs'⟩ := List.forall_mem_cons.1 hn
    exact (Command.nested_entryTokens hc hc').append (ih hcs hcs')

theorem isNested_of_take (h : ∀ c ∈ cs, c.IsWritten)
    (he : (Group.take eof (.leftBrace :: outer) (cs.flatMap Command.entryTokens ++ rest)).errors = []) :
    ∀ c ∈ cs, c.IsNested := by
  induction cs with
  | nil => nofun
  | cons c cs ih =>
    obtain ⟨hc, hcs⟩ := List.forall_mem_cons.1 h
    rw [List.flatMap_cons, List.append_assoc] at he
    have hn := Command.isNested_of_take hc he
    rw [Group.take_append_of_nested (Command.nested_entryTokens hc hn) (by simp)] at he
    exact List.forall_mem_cons.2 ⟨hn, ih hcs he⟩

/-- The method that registers commands is nested if the names of the commands are. -/
theorem nested_registrationTokens (h : ∀ c ∈ cs, c.IsWritten) (hn : ∀ c ∈ cs, c.IsNested) :
    Nested (registrationTokens cs) := by
  have hgroup : Nested (markToken .leftBrace :: (cs.flatMap Command.entryTokens ++
      [markToken .rightBrace])) := .group rfl rfl rfl (nested_entries h hn)
  have := (nested_phrase "return new CommandInfo[]" (by simp)).append
    (hgroup.append (.one (t := markToken .semicolon) rfl))
  simpa [registrationTokens, tokensOf_closing] using this

/-- In braces that are closed, the method can only be read if the names of the commands
    are nested. -/
theorem isNested_of_closes (h : ∀ c ∈ cs, c.IsWritten)
    (he : (Group.take eof [] (markToken .leftBrace ::
      (registrationTokens cs ++ markToken .rightBrace :: rest))).errors = []) :
    ∀ c ∈ cs, c.IsNested := by
  rw [Group.take_opener rfl rfl, registrationTokens, List.append_assoc,
    Group.take_append_of_nested (nested_phrase _ (by simp)) (by simp), List.cons_append,
    Group.take_opener rfl rfl, List.append_assoc] at he
  exact isNested_of_take h he

theorem closesIfNested_registrationTokens (h : ∀ c ∈ cs, c.IsWritten) (rest : List Token) :
    ClosesIfNested (registrationTokens cs) rest :=
  fun _ he => nested_registrationTokens h (isNested_of_closes h he)

/-- **The method is nested just if the names of the commands are.** -/
theorem nested_registrationTokens_iff (h : ∀ c ∈ cs, c.IsWritten) :
    Nested (registrationTokens cs) ↔ ∀ c ∈ cs, c.IsNested := by
  refine ⟨fun hn => @isNested_of_closes cs (markToken .semicolon) [] h ?_,
    nested_registrationTokens h⟩
  rw [Group.take_nested rfl rfl rfl hn]

/-! ## Modifiers -/

theorem isChain_erase {ts : List Token} {u v : Token}
    (hv : ∀ t, CanModify t u → CanModify (erase t) v) (h : (ts ++ [u]).IsChain CanModify) :
    (erase ts ++ [v]).IsChain CanModify := by
  induction ts with
  | nil => exact .singleton v
  | cons t ts ih =>
    cases ts with
    | nil => exact List.isChain_pair.2 (hv t (List.isChain_pair.1 h))
    | cons t' ts =>
      obtain ⟨hc, h⟩ := List.isChain_cons_cons.1 h
      exact List.isChain_cons_cons.2 ⟨hc, ih h⟩

theorem lexeme_erase_list (ts : List Token) : (erase ts).map Token.lexeme = ts.map Token.lexeme := by
  induction ts with
  | nil => rfl
  | cons t ts ih => simp [ih]

theorem WrittenModifiers.Written.areModifiers {m : WrittenModifiers} {ts : List Token} {u : Token}
    (h : m.Written ts u) (hu : u.kind = .keyword .class_) : AreModifiers (erase ts) where
  canModify := by
    refine isChain_erase (fun t ht => ?_) h.canModify
    rcases ht with ht | ht | ht
    · exact .inl ht
    · simp [isRefBefore, hu, Token.isContextual] at ht
    · exact .inr (.inr ht)
  nodup := by
    rw [lexeme_erase_list]
    exact h.nodup

/-! ## Fragments -/

theorem SourceUnit.Holds.mono {u : SourceUnit} {P Q : Declaration → Prop} (h : u.Holds P)
    (hPQ : ∀ d, P d → Q d) : u.Holds Q :=
  ⟨h.usings, h.members.imp fun d hd => ⟨hd.1, hPQ d hd.2⟩⟩

theorem NamespaceDeclaration.Holds.mono {n : NamespaceDeclaration} {path : List String}
    {P Q : TypeDeclaration → Prop} (h : n.Holds path P) (hPQ : ∀ t, P t → Q t) : n.Holds path Q :=
  ⟨h.name, h.usings, h.members.imp fun t ht => ⟨ht.1, hPQ t ht.2⟩⟩

theorem Options.FitsHost.isBlank_indent {o : Options} (h : o.FitsHost) :
    ∀ c ∈ o.indent.toList, Text.isBlank c = true := by
  rw [h.indent]
  exact List.all_eq_true.1 (by decide)

/-- The type is one more part of the other one, with one method. -/
structure TypeDeclaration.IsPartOf (p t : TypeDeclaration) : Prop where
  words : p.modifiers.words.map Ident.name = t.modifiers.words.map Ident.name
  flags : p.modifiers.flags = t.modifiers.flags
  kind : p.kind = t.kind
  name : p.name.name = t.name.name
  parameterNames : p.parameterNames = t.parameterNames
  bases : p.bases = []
  members : ∃ m, p.members = [.method m]

namespace TypeDeclaration

variable {p t : TypeDeclaration} {ts : List Token} {u : Token} {o : Options}

theorem IsPart.isPartOf (h : p.IsPart (ts.map Token.lexeme) t.name.name t.parameterNames)
    (ht : t.modifiers.Words (ts.map Token.lexeme)) (hk : t.kind = .class_) : p.IsPartOf t where
  words := h.modifiers.names_eq.trans ht.names_eq.symm
  flags := h.modifiers.flags_eq.trans ht.flags_eq.symm
  kind := h.kind.trans hk.symm
  name := h.name
  parameterNames := h.typeParameters
  bases := h.bases
  members := h.members

section
variable (ho : o.FitsHost) (hk : t.kind = .class_) (ht : t.IsWritten)
  (hcs : ∀ c ∈ cs, c.IsWritten) (id : Nat) (file : String)
include ho hk ht hcs

/-- **A fragment is read just if the names of its commands are nested**, and then it holds
    one more part of its class. -/
theorem fragment_parses :
    let tree := SyntaxTree.parse id file (t.fragment cs o none)
    (tree.errors = [] ↔ ∀ c ∈ cs, c.IsNested) ∧
      (tree.errors = [] → tree.root.Holds fun d => ∃ p, d = .type p ∧ p.IsPartOf t) := by
  obtain ⟨ts, u, hu, hw⟩ := ht.modifiers hk
  obtain ⟨htokens, hlex⟩ := Layout.tokenize_render ho.isBlank_indent
    (spell_part ho hk ht hw.worded hw.words.names_eq hcs)
  have hread := parse_passes id file hlex htokens fun source s hs =>
    Parser.sourceUnit_part_passes (closesIfNested_registrationTokens hcs _) (hw.areModifiers hu) hs
  refine ⟨hread.1.trans (nested_registrationTokens_iff hcs), fun he => ?_⟩
  refine (hread.2 (hread.1.1 he)).mono ?_
  rintro _ ⟨p, rfl, hp⟩
  rw [lexeme_erase_list] at hp
  exact ⟨p, rfl, hp.isPartOf hw.words hk⟩

/-- **A fragment in a namespace is read just if no piece of its name is reserved** either,
    and then the namespace holds one more part of the class. -/
theorem fragment_parses_in {p : String} {path : List String}
    (hpath : ∀ q ∈ p :: path, IsWord q (wordKind q)) :
    let tree := SyntaxTree.parse id file (t.fragment cs o (some (".".intercalate (p :: path))))
    (tree.errors = [] ↔ (∀ q ∈ p :: path, wordKind q = .identifier) ∧ ∀ c ∈ cs, c.IsNested) ∧
      (tree.errors = [] → tree.root.Holds fun d => ∃ n, d = .namespace_ n ∧
        n.Holds (p :: path) fun p => p.IsPartOf t) := by
  obtain ⟨ts, u, hu, hw⟩ := ht.modifiers hk
  have hline := spells_namespace rfl hpath
  have hclose : Spells ("\x7d" ++ "").toList [markToken .rightBrace] := .mark (m := .rightBrace) rfl
  have hspell := Layout.Spell.cons_line hline (.one_braces
    (spell_part ho hk ht hw.worded hw.words.names_eq hcs) hclose)
  obtain ⟨htokens, hlex⟩ := Layout.tokenize_render ho.isBlank_indent hspell
  rw [partTokens_append] at htokens
  have hread := parse_passes id file hlex htokens fun source s hs =>
    Parser.sourceUnit_namespace_passes (closesIfNested_registrationTokens hcs _) (hw.areModifiers hu) hs
  refine ⟨hread.1.trans (and_congr_right fun _ => nested_registrationTokens_iff hcs), fun he => ?_⟩
  refine (hread.2 (hread.1.1 he)).mono ?_
  rintro _ ⟨n, rfl, hn⟩
  rw [lexeme_erase_list] at hn
  exact ⟨n, rfl, hn.mono fun p hp => hp.isPartOf hw.words hk⟩

end

end TypeDeclaration

end CommandModules

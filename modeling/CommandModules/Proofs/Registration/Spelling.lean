/-
  Command modules — the tokens of fragments.

  * `Command.entryTokens` are the tokens of the entry of a command, `registrationTokens`
    those of the method that registers commands;
  * `TypeDeclaration.spells_header`: the line that a part begins with spells its modifiers,
    its name and its type parameters;
  * `TypeDeclaration.spell_part`: the lines of a part spell its tokens, if the names and
    types in it spell theirs.
-/
import CommandModules.Proofs.Shown.Unit
import CommandModules.Proofs.Token.Lines
import CommandModules.Registration.Fragment

namespace CommandModules

open Text

/-! ## Lists of words -/

section
variable {ds : List Char} {ts us ms : List Token} {w v : String} {ws ps : List String}

/-- Words with a blank behind each. -/
theorem Spells.words_append (h : ∀ t ∈ ms, IsWord t.lexeme t.kind) (hd : Spells ds us) :
    Spells ((ms.map Token.lexeme).flatMap (fun w => w.toList ++ [' ']) ++ ds) (erase ms ++ us) := by
  induction ms with
  | nil => exact hd
  | cons t ms ih =>
    obtain ⟨ht, hms⟩ := List.forall_mem_cons.1 h
    have hword : Spells t.lexeme.toList [erase t] := Spells.word ht
    simpa using hword.space (ih hms)

theorem toList_words (ws : List String) :
    (if ws.isEmpty then "" else " ".intercalate ws ++ " ").toList =
      ws.flatMap fun w => w.toList ++ [' '] := by
  induction ws with
  | nil => rfl
  | cons w ws ih =>
    cases ws with
    | nil => simp
    | cons v ws => simpa using ih

/-- Words with commas between them, before a mark. -/
theorem spells_commas {w : String} (hw : ∀ v ∈ w :: ws, IsWord v .identifier) {m : Punct}
    (hm : m.isPlain = true) (he : EndsWord m.text.toList) :
    Spells ((", ".intercalate (w :: ws)).toList ++ m.text.toList)
      (Parser.commaTokens ((w :: ws).map (wordToken .identifier)) ++ [markToken m]) := by
  induction ws generalizing w with
  | nil =>
    simpa [Parser.commaTokens] using Spells.word_append (hw w (by simp)) he (.mark hm)
  | cons v ws ih =>
    obtain ⟨hw, hv⟩ := List.forall_mem_cons.1 hw
    have hcomma : Spells (',' :: ' ' :: _) _ := (Spells.mark (m := .comma) rfl).space (ih hv)
    have := Spells.word_append hw (by simp [EndsWord]; decide) hcomma
    simpa [Parser.commaTokens] using this

theorem IsWord.head_not_isDigit {kind : TokenKind} (h : IsWord w kind) (ds : List Char) (c : Char)
    (hc : (w.toList ++ ds).head? = some c) : ¬ c.isDigit = true := by
  obtain ⟨d, cs, hd, -, hw | hw⟩ := h.toList <;> rw [hw] at hc <;> obtain rfl := Option.some_inj.1 hc
  · exact not_isDigit_of_isIdentStart hd
  · decide

/-- A dotted name. -/
theorem spells_path {p : String} {ps : List String} (h : ∀ q ∈ p :: ps, IsWord q (wordKind q)) :
    Spells (".".intercalate (p :: ps)).toList (pathTokens (p :: ps)) := by
  induction ps generalizing p with
  | nil => simpa [pathTokens] using Spells.word (h p (by simp))
  | cons q ps ih =>
    obtain ⟨hp, hqs⟩ := List.forall_mem_cons.1 h
    have hdigit (c : Char) (hc : (".".intercalate (q :: ps)).toList.head? = some c) :
        ¬ c.isDigit = true := by
      obtain ⟨ds, hds⟩ : ∃ ds, (".".intercalate (q :: ps)).toList = q.toList ++ ds := by
        cases ps with
        | nil => exact ⟨[], by simp⟩
        | cons r ps => exact ⟨_, by rw [String.intercalate_cons_cons, String.append_assoc,
            String.toList_append]⟩
      exact (hqs q (by simp)).head_not_isDigit ds c (hds ▸ hc)
    have hdot := Spells.dot_append hdigit (ih hqs)
    have := Spells.word_append hp (by simp [EndsWord]; decide) hdot
    simpa [pathTokens_cons] using this

/-- The line that a namespace begins with. -/
theorem spells_namespace {p name : String} {ps : List String} (hname : name = ".".intercalate (p :: ps))
    (h : ∀ q ∈ p :: ps, IsWord q (wordKind q)) :
    Spells s!"namespace {name}".toList (keywordToken .namespace_ :: pathTokens (p :: ps)) := by
  have htext : s!"namespace {name}".toList = "namespace".toList ++ ' ' :: name.toList := by
    rw [String.toList_append]
    rfl
  rw [htext, hname]
  exact (Spells.word (Keyword.isWord .namespace_)).space (spells_path h)

end

/-- A group in braces. -/
theorem Layout.Spell.one_braces {body : List Layout} {tail : String} {bs cs : List Token}
    (hb : Spell body bs) (hc : Spells ("\x7d" ++ tail).toList cs) :
    Spell [.braces body tail] (markToken .leftBrace :: (bs ++ cs)) := by
  have hopen : Spells "\x7b".toList [markToken .leftBrace] := .mark (m := .leftBrace) rfl
  have hblock := Spell.cons_block hopen hb hc .nil
  rw [List.append_nil] at hblock
  exact hblock

/-! ## Entries -/

namespace Command

variable (c : Command)

/-- The name of the command and the types of its parameters spell tokens; those of the
    name keep braces open, those of types are nested. -/
structure IsWritten : Prop where
  name : ∀ n, c.name? = some n → Keeps (tokensOf n) ∧ Spells n.toList (tokensOf n)
  types : ∀ type ∈ c.parameterTypes, Nested (tokensOf type) ∧ Spells type.toList (tokensOf type)

/-- The tokens that set the name of a command. -/
def nameTokens (name : String) : List Token :=
  tokensOf "Name =" ++ (tokensOf name ++ [markToken .comma])

/-- The tokens of the type of a parameter. -/
def typeTokens (type : String) : List Token :=
  keywordToken .typeof :: markToken .leftParen ::
    (tokensOf type ++ [markToken .rightParen, markToken .comma])

/-- The tokens that set the types of the parameters, if there are some. -/
def parameterTokens : List Token :=
  if c.parameterTypes.isEmpty then []
  else tokensOf "ParameterTypes = new Type[]" ++
    markToken .leftBrace :: (c.parameterTypes.flatMap typeTokens ++ tokensOf "\x7d,")

/-- The tokens of the entry of a command. -/
def entryTokens : List Token :=
  tokensOf "new CommandInfoBuilder()" ++ markToken .leftBrace ::
    (c.name?.toList.flatMap nameTokens ++ c.parameterTokens ++ tokensOf "\x7d.Build(),")

variable {c} {o : Options}

theorem spells_name {name : String} (h : Spells name.toList (tokensOf name)) :
    Spells s!"Name = {name},".toList (nameTokens name) := by
  have htext : s!"Name = {name},".toList =
      "Name =".toList ++ ' ' :: (name.toList ++ Punct.comma.text.toList) := by
    rw [String.toList_append, String.toList_append]
    rfl
  rw [htext]
  exact (spells_tokensOf (by decide +kernel)).space (h.append (.cons (by decide)) (.mark rfl))

theorem spells_type {type : String} (h : Spells type.toList (tokensOf type)) :
    Spells s!"typeof({type}),".toList (typeTokens type) := by
  have htext : s!"typeof({type}),".toList = "typeof".toList ++ (Punct.leftParen.text.toList ++
      (type.toList ++ (Punct.rightParen.text.toList ++ Punct.comma.text.toList))) := by
    rw [String.toList_append, String.toList_append]
    rfl
  rw [htext]
  exact .word_append (Keyword.isWord .typeof) (fun _ h => by cases h; decide)
    (.mark_append rfl (h.append (.cons (by decide)) (.mark_append rfl (.mark rfl))))

theorem spell_types {types : List String}
    (h : ∀ type ∈ types, Spells type.toList (tokensOf type)) :
    Layout.Spell (types.map fun type => .line s!"typeof({type}),") (types.flatMap typeTokens) := by
  induction types with
  | nil => exact .nil
  | cons type types ih =>
    obtain ⟨ht, hts⟩ := List.forall_mem_cons.1 h
    exact .cons_line (spells_type ht) (ih hts)

theorem spell_parameters (h : c.IsWritten) : Layout.Spell
    (if (c.parameterTypes.map fun type => Layout.line s!"typeof({type}),").isEmpty then []
      else [.line "ParameterTypes = new Type[]",
        .braces (c.parameterTypes.map fun type => .line s!"typeof({type}),") ","])
    c.parameterTokens := by
  unfold parameterTokens
  rw [List.isEmpty_map]
  split
  · exact .nil
  · exact .cons_line (spells_tokensOf (by decide +kernel))
      (.one_braces (spell_types fun type ht => (h.types type ht).2) (spells_tokensOf (by decide +kernel)))

/-- **The lines of an entry spell its tokens.** -/
theorem spell_registration (hb : o.builderType = "CommandInfoBuilder") (h : c.IsWritten) :
    Layout.Spell (c.registration o) c.entryTokens := by
  have hopen : Spells s!"new {o.builderType}()".toList (tokensOf "new CommandInfoBuilder()") := by
    rw [hb]
    exact @spells_tokensOf "new CommandInfoBuilder()" (by decide +kernel)
  refine .cons_line hopen (.one_braces (.append ?_ (spell_parameters h)) (spells_tokensOf (by decide +kernel)))
  cases hn : c.name? with
  | none => exact .nil
  | some name =>
    simpa using Layout.Spell.one (spells_name (h.name name hn).2)

end Command

/-! ## Parts -/

/-- The tokens of the body of the method that registers commands. -/
def registrationTokens (cs : List Command) : List Token :=
  tokensOf "return new CommandInfo[]" ++
    markToken .leftBrace :: (cs.flatMap Command.entryTokens ++ tokensOf "\x7d;")

/-- Are method, types and indentation those that fit the declarations of the host? -/
structure Options.FitsHost (o : Options) : Prop where
  hookSignature : o.hookSignature = standard.hookSignature
  collectionType : o.collectionType = standard.collectionType
  builderType : o.builderType = standard.builderType
  indent : o.indent = standard.indent

theorem partTokens_append (ms : List Token) (name : String) (ps : List String) (ts us : List Token) :
    partTokens ms name ps ts [] ++ us = partTokens ms name ps ts us := by
  simp [partTokens, bodyTokens, methodTokens]

namespace TypeDeclaration

variable {t : TypeDeclaration} {ms : List Token} {cs : List Command} {o : Options}

/-- The names of the type parameters, as they are written. -/
def parameterNames (t : TypeDeclaration) : List String :=
  t.typeParameters.map fun p => p.name.name

/-- The name of the type and its parameters, as they are written. -/
theorem spells_name (hname : IsWord t.name.name .identifier)
    (hps : ∀ p ∈ t.typeParameters, IsWord p.name.name .identifier) :
    Spells (t.name.name ++ if t.typeParameters.isEmpty then ""
        else "<" ++ ", ".intercalate t.parameterNames ++ ">").toList
      (wordToken .identifier t.name.name :: typeParameterTokens t.parameterNames) := by
  have hall : ∀ w ∈ t.parameterNames, IsWord w .identifier := by
    simpa [parameterNames] using hps
  have hempty : t.typeParameters.isEmpty = t.parameterNames.isEmpty := by simp [parameterNames]
  rw [hempty]
  cases hp : t.parameterNames with
  | nil => simpa [typeParameterTokens] using Spells.word hname
  | cons p ps =>
    have hcommas := spells_commas (hp ▸ hall) (m := .greater) rfl (fun _ h => by cases h; decide)
    have hangle := Spells.word_append hname (fun _ h => by cases h; decide)
      (.mark_append (m := .less) rfl hcommas)
    have htext : (t.name.name ++ ("<" ++ ", ".intercalate (p :: ps) ++ ">")).toList =
        t.name.name.toList ++ (Punct.less.text.toList ++
          ((", ".intercalate (p :: ps)).toList ++ Punct.greater.text.toList)) := by
      rw [String.toList_append, String.toList_append, String.toList_append, List.append_assoc]
      rfl
    rw [if_neg (by simp), htext]
    exact hangle

/-- **The first line of a part spells modifiers, name and type parameters.** -/
theorem spells_header (hk : t.kind = .class_) (ht : t.IsWritten)
    (hms : ∀ m ∈ ms, IsWord m.lexeme m.kind)
    (hwords : t.modifiers.words.map Ident.name = ms.map Token.lexeme) :
    Spells t.header.toList (Erase.erase ms ++ keywordToken .class_ ::
      wordToken .identifier t.name.name :: typeParameterTokens t.parameterNames) := by
  have htext : t.header.toList = (ms.map Token.lexeme).flatMap (fun w => w.toList ++ [' ']) ++
      ("class".toList ++ ' ' :: (t.name.name ++ if t.typeParameters.isEmpty then ""
        else "<" ++ ", ".intercalate t.parameterNames ++ ">").toList) := by
    have hempty : t.modifiers.words.isEmpty = (t.modifiers.words.map Ident.name).isEmpty := by simp
    have := toList_words (t.modifiers.words.map Ident.name)
    rw [← hwords, ← this, header, hk, hempty]
    simp only [String.toList_append, List.append_assoc]
    rfl
  rw [htext]
  exact .words_append hms ((Spells.word (Keyword.isWord .class_)).space (spells_name ht.name ht.typeParameters))

/-- **The lines of a part spell its tokens.** -/
theorem spell_part (ho : o.FitsHost) (hk : t.kind = .class_) (ht : t.IsWritten)
    (hms : ∀ m ∈ ms, IsWord m.lexeme m.kind)
    (hwords : t.modifiers.words.map Ident.name = ms.map Token.lexeme)
    (hcs : ∀ c ∈ cs, c.IsWritten) : Layout.Spell (t.part cs o)
      (partTokens (Erase.erase ms) t.name.name t.parameterNames (registrationTokens cs) []) := by
  have hentries : Layout.Spell (cs.flatMap (Command.registration o)) (cs.flatMap Command.entryTokens) := by
    induction cs with
    | nil => exact .nil
    | cons c cs ih =>
      obtain ⟨hc, hcs⟩ := List.forall_mem_cons.1 hcs
      exact .append (Command.spell_registration ho.builderType hc) (ih hcs)
  have hreturn : Spells s!"return new {o.collectionType}[]".toList (tokensOf "return new CommandInfo[]") := by
    rw [ho.collectionType]
    exact @spells_tokensOf "return new CommandInfo[]" (by decide +kernel)
  have hhook : Spells s!"protected override {o.hookSignature}".toList
      (hookTokens ++ [markToken .leftParen, markToken .rightParen]) := by
    have htokens : tokensOf "protected override IEnumerable<CommandInfo> AutoRegister()" =
        hookTokens ++ [markToken .leftParen, markToken .rightParen] := by decide +kernel
    rw [ho.hookSignature, ← htokens]
    exact @spells_tokensOf "protected override IEnumerable<CommandInfo> AutoRegister()" (by decide +kernel)
  have hclose : Spells ("\x7d" ++ "").toList [markToken .rightBrace] := .mark (m := .rightBrace) rfl
  have hbody : Layout.Spell _ (registrationTokens cs) :=
    .cons_line hreturn (.one_braces hentries (@spells_tokensOf ("\x7d" ++ ";") (by decide +kernel)))
  have := Layout.Spell.cons_line (spells_header hk ht hms hwords)
    (.one_braces (.cons_line hhook (.one_braces hbody hclose)) hclose)
  simpa [part, partTokens, bodyTokens, methodTokens] using this

end TypeDeclaration

end CommandModules

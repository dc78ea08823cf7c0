/-
  Command modules — the template of fragments.

  * `Command.template`, `TypeDeclaration.template`: the tokens of the entry of a command and of a
    part that registers commands, one by one; `templateIn` puts them into a namespace;
  * `Method.command_tokens`: what is taken over from a method is read as the tokens in its place;
  * `fragment_tokens`: a fragment is read as its template, whatever it is indented with.
-/
import CommandModules.Proofs.Located.Relexed
import CommandModules.Proofs.Registration.Readable

namespace CommandModules

/-! ## The template -/

/-- The tokens of an unreserved word. -/
def nameToken (w : String) : Token :=
  wordToken .identifier w

/-- The tokens of the entry of a command.  The name is set if there is one, the types of
    parameters are set if there are some. -/
def Command.template (c : Command) : List Token :=
  let name := c.name?.toList.flatMap fun name =>
    nameToken "Name" :: markToken .equal :: (tokensOf name ++ [markToken .comma])
  let types := c.parameterTypes.flatMap fun type =>
    keywordToken .typeof :: markToken .leftParen ::
      (tokensOf type ++ [markToken .rightParen, markToken .comma])
  let parameters :=
    if c.parameterTypes.isEmpty then []
    else
      [nameToken "ParameterTypes", markToken .equal, keywordToken .new, nameToken "Type",
        markToken .leftBracket, markToken .rightBracket, markToken .leftBrace] ++
      types ++ [markToken .rightBrace, markToken .comma]
  [keywordToken .new, nameToken "CommandInfoBuilder", markToken .leftParen,
    markToken .rightParen, markToken .leftBrace] ++
  (name ++ parameters) ++
  [markToken .rightBrace, markToken .dot, nameToken "Build", markToken .leftParen,
    markToken .rightParen, markToken .comma]

/-- The tokens of a part of a class that registers commands. -/
def TypeDeclaration.template (t : TypeDeclaration) (cs : List Command) : List Token :=
  t.modifiers.words.map (fun w => wordToken (wordKind w.name) w.name) ++
  [keywordToken .class_, nameToken t.name.name] ++ typeParameterTokens t.parameterNames ++
  [markToken .leftBrace,
    keywordToken .protected_, keywordToken .override, nameToken "IEnumerable", markToken .less,
    nameToken "CommandInfo", markToken .greater, nameToken "AutoRegister", markToken .leftParen,
    markToken .rightParen, markToken .leftBrace,
    keywordToken .return_, keywordToken .new, nameToken "CommandInfo", markToken .leftBracket,
    markToken .rightBracket, markToken .leftBrace] ++
  cs.flatMap Command.template ++
  [markToken .rightBrace, markToken .semicolon, markToken .rightBrace, markToken .rightBrace]

/-- The tokens in the namespace of this path, if there is one. -/
def templateIn (path : List String) (ts : List Token) : List Token :=
  if path.isEmpty then ts
  else keywordToken .namespace_ :: (pathTokens path ++ markToken .leftBrace ::
    (ts ++ [markToken .rightBrace]))

/-- The name of the namespace of this path, if there is one. -/
def dottedName? (path : List String) : Option String :=
  if path.isEmpty then none else some (".".intercalate path)

theorem Command.entryTokens_eq (c : Command) : c.entryTokens = c.template := by
  have hopen : tokensOf "new CommandInfoBuilder()" = [keywordToken .new,
      nameToken "CommandInfoBuilder", markToken .leftParen, markToken .rightParen] := by
    decide +kernel
  have hname : tokensOf "Name =" = [nameToken "Name", markToken .equal] := by decide +kernel
  have htypes : tokensOf "ParameterTypes = new Type[]" = [nameToken "ParameterTypes",
      markToken .equal, keywordToken .new, nameToken "Type", markToken .leftBracket,
      markToken .rightBracket] := by
    decide +kernel
  have hbraces : tokensOf "\x7d," = [markToken .rightBrace, markToken .comma] := by decide +kernel
  have hclose : tokensOf "\x7d.Build()," = [markToken .rightBrace, markToken .dot,
      nameToken "Build", markToken .leftParen, markToken .rightParen, markToken .comma] := by
    decide +kernel
  unfold entryTokens template parameterTokens
  simp only [hopen, htypes, hbraces, hclose]
  have hnames : nameTokens = fun name : String =>
      nameToken "Name" :: markToken .equal :: (tokensOf name ++ [markToken .comma]) := by
    funext name
    rw [nameTokens, hname]
    rfl
  have htypeTokens : typeTokens = fun type : String => keywordToken .typeof ::
      markToken .leftParen :: (tokensOf type ++ [markToken .rightParen, markToken .comma]) := rfl
  rw [hnames, htypeTokens]
  split <;> simp

/-! ## Words -/

/-- Tokens that are words, without their places. -/
theorem erase_words {ms : List Token} (h : ∀ m ∈ ms, IsWord m.lexeme m.kind) :
    erase ms = (ms.map Token.lexeme).map fun w => wordToken (wordKind w) w := by
  induction ms with
  | nil => rfl
  | cons m ms ih =>
    obtain ⟨hm, hms⟩ := List.forall_mem_cons.1 h
    rw [erase_cons, ih hms, List.map_cons, List.map_cons, ← hm.kind_eq]
    rfl

/-! ## What is taken over -/

/-- The expression that names the command that a method is. -/
def Method.nameExpression? (marker : String) (m : Method) : Option ExprSyntax :=
  ((m.allAttributes.find? fun a => a.name.text == marker).bind fun a =>
    a.arguments.head?).bind AttributeArgument.expression?

theorem TypeSyntax.mem_excerpts (t : TypeSyntax) : ⟨t.text, t.span⟩ ∈ t.excerpts := by
  obtain ⟨shape, text, span⟩ := t
  exact List.mem_cons_self

section
variable {tree : SyntaxTree} {t : TypeDeclaration} {m : Method} {c : Command} {marker : String}

/-- A text that a node carries is read as the tokens in its place. -/
theorem SyntaxTree.IsRead.tokensOf_eq (h : tree.IsRead) {n : Node} (hn : n ∈ tree.nodes)
    {e : Excerpt} (he : e ∈ n.excerpts) : tokensOf e.text = erase (tree.tokensIn e.span) := by
  obtain ⟨⟨id, path, text, rfl⟩, herrors⟩ := h
  obtain ⟨hl, -⟩ := List.append_eq_nil_iff.1 herrors
  obtain ⟨i, j, hstands⟩ := SyntaxTree.nodes_stand id path text n hn
  have hcut := (hstands.quotes.cut.1 e he).relexes (List.map_eq_nil_iff.1 hl)
  rw [erase_tokens] at hcut
  exact List.append_cancel_right hcut.1

theorem SyntaxTree.method_mem_nodes (ht : t ∈ tree.root.types) (hm : m ∈ t.methods) :
    Node.method m ∈ tree.nodes := by
  rw [← SyntaxTree.typeDeclarations_eq, SyntaxTree.typeDeclarations] at ht
  obtain ⟨n, hn, hnt⟩ := List.mem_filterMap.1 ht
  obtain ⟨x, hx, hxm⟩ := List.mem_filterMap.1 hm
  cases n with
  | type t' =>
    cases hnt
    cases x with
    | method m' =>
      cases hxm
      exact SyntaxTree.children_mem_nodes hn
        (List.mem_append_right _ (List.mem_map_of_mem (f := Node.ofMember) hx))
    | _ => cases hxm
  | _ => cases hnt

/-- **What is taken over from a method** is read as the tokens in its place: the expression that
    names the command, and the types of the parameters. -/
theorem Method.command_tokens (h : tree.IsRead) (ht : t ∈ tree.root.types) (hm : m ∈ t.methods)
    (hc : Command.ofMethod? marker m = some c) :
    c.name?.map tokensOf = (m.nameExpression? marker).map (fun e => erase (tree.tokensIn e.span)) ∧
      c.parameterTypes.map tokensOf =
        m.parameters.map fun p => erase (tree.tokensIn p.type.span) := by
  have hnode := SyntaxTree.method_mem_nodes ht hm
  rw [Command.ofMethod?_eq] at hc
  obtain rfl := Option.some_inj.1 (Option.ite_none_right_eq_some.1 hc).2
  constructor
  · have hname : (m.command marker).name? = (m.nameExpression? marker).map ExprSyntax.text := rfl
    rw [hname, Option.map_map]
    refine Option.map_congr fun e he => ?_
    obtain ⟨x, hx, he⟩ := Option.bind_eq_some_iff.1 he
    obtain ⟨a, ha, hx⟩ := Option.bind_eq_some_iff.1 hx
    obtain ⟨s, hs, ha⟩ := List.mem_flatMap.1 (List.mem_of_find?_eq_some ha)
    have hsection : Node.attributeSection s ∈ tree.nodes :=
      SyntaxTree.children_mem_nodes hnode (by simp [Node.children, hs])
    have hattribute : Node.attribute_ a ∈ tree.nodes :=
      SyntaxTree.children_mem_nodes hsection (List.mem_map_of_mem ha)
    have hargument : Node.attributeArgument x ∈ tree.nodes :=
      SyntaxTree.children_mem_nodes hattribute (List.mem_map_of_mem (List.mem_of_head? hx))
    refine h.tokensOf_eq (e := e.excerpt) hargument ?_
    simp [Node.excerpts, ExprSyntax.excerpts?, he]
  · show List.map tokensOf (m.parameters.map fun p => p.type.text) = _
    rw [List.map_map]
    refine List.map_congr_left fun p hp => ?_
    have hparameter : Node.parameter p ∈ tree.nodes :=
      SyntaxTree.children_mem_nodes hnode (by simp [Node.children, hp])
    have htype : Node.typeReference p.type ∈ tree.nodes :=
      SyntaxTree.children_mem_nodes hparameter (by simp [Node.children])
    exact h.tokensOf_eq (e := ⟨p.type.text, p.type.span⟩) htype p.type.mem_excerpts

/-! ## Fragments -/

/-- The commands of a type spell tokens if they come from its methods. -/
theorem SyntaxTree.IsRead.command_isWritten (h : tree.IsRead) (ht : t ∈ tree.root.types)
    (hc : ∃ m ∈ t.methods, ∃ marker, Command.ofMethod? marker m = some c) : c.IsWritten := by
  obtain ⟨m, hm, marker, hc⟩ := hc
  rw [Command.ofMethod?_eq] at hc
  obtain rfl := Option.some_inj.1 (Option.ite_none_right_eq_some.1 hc).2
  exact ((h.isWritten ht).2 m hm).command marker

variable {cs : List Command} {o : Options}

theorem TypeDeclaration.spell_template
    (ho : Options.FitsHost { o with indent := Options.standard.indent }) (hk : t.kind = .class_)
    (ht : t.IsWritten) (hcs : ∀ c ∈ cs, c.IsWritten) :
    Layout.Spell (t.part cs o) (t.template cs) := by
  obtain ⟨ms, u, hu, hw⟩ := ht.modifiers hk
  have hmodifiers : Erase.erase ms =
      t.modifiers.words.map fun w => wordToken (wordKind w.name) w.name := by
    rw [erase_words hw.worded, ← hw.words.names_eq, List.map_map]
    rfl
  have hentries : cs.flatMap Command.entryTokens = cs.flatMap Command.template :=
    List.flatMap_congr fun c _ => c.entryTokens_eq
  have hreturn : tokensOf "return new CommandInfo[]" = [keywordToken .return_,
      keywordToken .new, nameToken "CommandInfo", markToken .leftBracket,
      markToken .rightBracket] := by
    decide +kernel
  -- how deep lines stand does not depend on the indentation
  have hspell : Layout.Spell (t.part cs { o with indent := Options.standard.indent }) _ :=
    spell_part ho hk ht hw.worded hw.words.names_eq hcs
  have htokens : partTokens (Erase.erase ms) t.name.name t.parameterNames (registrationTokens cs) [] =
      t.template cs := by
    rw [registrationTokens, hentries, hreturn, tokensOf_closing.2.2, hmodifiers]
    simp [partTokens, bodyTokens, hookTokens, methodTokens, template, nameToken]
  rw [htokens] at hspell
  exact hspell

/-- **A fragment is read as its template**, without errors, whatever blanks it is indented with:
    `commands` are any that methods of a class are, in any order, and the path of the namespace
    consists of words.  The tokens of names and types are those in their places. -/
theorem fragment_tokens (h : tree.IsRead) (ht : t ∈ tree.root.types) (hk : t.kind = .class_)
    {commands : List Command}
    (hcs : ∀ c ∈ commands, ∃ m ∈ t.methods, ∃ marker, Command.ofMethod? marker m = some c)
    (ho : Options.FitsHost { o with indent := Options.standard.indent })
    (hindent : ∀ d ∈ o.indent.toList, Text.isBlank d = true)
    {path : List String} (hpath : ∀ q ∈ path, IsWord q (wordKind q)) :
    let text := t.fragment commands o (dottedName? path)
    (erase (tokenize text).tokens =
        templateIn path (t.template commands) ++ [⟨.eof, "", default⟩] ∧
      (tokenize text).errors = []) ∧
    ∀ m ∈ t.methods, ∀ marker c, Command.ofMethod? marker m = some c →
      c.name?.map tokensOf =
          (m.nameExpression? marker).map (fun e => erase (tree.tokensIn e.span)) ∧
        c.parameterTypes.map tokensOf =
          m.parameters.map fun p => erase (tree.tokensIn p.type.span) := by
  refine ⟨?_, fun m hm marker c hc => Method.command_tokens h ht hm hc⟩
  have hpart := TypeDeclaration.spell_template ho hk (h.isWritten ht).1
    fun c hc => h.command_isWritten ht (hcs c hc)
  rw [erase_tokens]
  cases path with
  | nil =>
    obtain ⟨htokens, hlex⟩ := Layout.tokenize_render hindent hpart
    exact ⟨congrArg (· ++ _) htokens, hlex⟩
  | cons p path =>
    have hclose : Spells ("\x7d" ++ "").toList [markToken .rightBrace] :=
      .mark (m := .rightBrace) rfl
    obtain ⟨name, hname⟩ : ∃ name, name = ".".intercalate (p :: path) := ⟨_, rfl⟩
    have hspell := Layout.Spell.cons_line (spells_namespace hname hpath) (.one_braces hpart hclose)
    obtain ⟨htokens, hlex⟩ := Layout.tokenize_render hindent hspell
    have htext : t.fragment commands o (dottedName? (p :: path)) = Layout.render o.indent
        [.line s!"namespace {name}", .braces (t.part commands o) ""] := by
      rw [hname]
      rfl
    have htemplate : templateIn (p :: path) (t.template commands) =
        keywordToken .namespace_ :: pathTokens (p :: path) ++
          markToken .leftBrace :: (t.template commands ++ [markToken .rightBrace]) := rfl
    rw [htext, htemplate, tokensOf, htokens]
    exact ⟨rfl, hlex⟩

/-- A comment stands in the argument of the command, and none in the tokens. -/
theorem fragment_tokens_echo :
    let tree := SyntaxTree.parse 0 "Echo.cs"
      "partial class Echo<T> \x7b [Command(A /* name */ . B)] void Run(int [ ] x); \x7d"
    ∃ t ∈ tree.root.types,
      let text := t.fragment (t.commands "Command") { Options.standard with indent := "\t" }
        (dottedName? ["Demo"])
      erase (tokenize text).tokens =
          templateIn ["Demo"] (t.template (t.commands "Command")) ++ [⟨.eof, "", default⟩] ∧
        (tokenize text).errors = [] := by
  intro tree
  have hread : tree.IsRead := ⟨⟨_, _, _, rfl⟩, by decide +kernel⟩
  have hkinds : tree.root.types.map TypeDeclaration.kind = [.class_] := by decide +kernel
  obtain ⟨t, htypes, hk⟩ := List.map_eq_singleton_iff.1 hkinds
  have ht : t ∈ tree.root.types := by
    rw [htypes]
    exact List.mem_singleton.2 rfl
  refine ⟨t, ht, (fragment_tokens hread ht hk (fun c hc => ?_) ⟨rfl, rfl, rfl, rfl⟩
    ?_ ?_).1⟩
  · obtain ⟨m, hm, hc⟩ := List.mem_filterMap.1 hc
    exact ⟨m, hm, "Command", hc⟩
  · exact List.forall_mem_singleton (a := '\t').2 (by decide)
  · exact List.forall_mem_singleton.2 (.of_hasWordChars (by decide +kernel))

end

end CommandModules

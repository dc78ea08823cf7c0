/-
  Command modules — a part of a class before known tokens.

  * `partTokens`: the tokens of one part of a class, which holds one method;
    `namespaceTokens`: those of a namespace around it;
  * `declarationWith_part_passes`: the part is read just if the body of the method is
    nested, and then it is what its tokens say (`TypeDeclaration.IsPart`);
  * `declarationWith_namespace_passes`: so is the namespace, if no piece of its name is
    reserved either;
  * `sourceUnit_part_passes`, `sourceUnit_namespace_passes`: so is a text that holds nothing
    else; `parse_passes` says this of its tree.
-/
import CommandModules.Proofs.Shown.Class
import CommandModules.Proofs.Shown.Path
import CommandModules.Proofs.Taken.Unit

namespace CommandModules

open ParserState

variable {source : List Char} {s : ParserState} {t u : Token} {ms ts rest : List Token}
  {name : String} {ps : List String}

/-- The tokens of the names of type parameters, none if there are no names. -/
def typeParameterTokens (ps : List String) : List Token :=
  if ps.isEmpty then []
  else markToken .less ::
    (Parser.commaTokens (ps.map (wordToken .identifier)) ++ [markToken .greater])

/-- The tokens of a method without parameters, behind its name. -/
def methodTokens (ts rest : List Token) : List Token :=
  markToken .leftParen :: markToken .rightParen :: markToken .leftBrace ::
    (ts ++ markToken .rightBrace :: rest)

/-- The tokens before the parameters of the method. -/
def hookTokens : List Token :=
  [keywordToken .protected_, keywordToken .override, wordToken .identifier "IEnumerable",
    markToken .less, wordToken .identifier "CommandInfo", markToken .greater,
    wordToken .identifier "AutoRegister"]

/-- The tokens of a type behind its name. -/
def bodyTokens (ts rest : List Token) : List Token :=
  markToken .leftBrace :: (hookTokens ++ methodTokens ts (markToken .rightBrace :: rest))

/-- The tokens of one part of a class: its modifiers are `ms`, and its method holds `ts`. -/
def partTokens (ms : List Token) (name : String) (ps : List String) (ts rest : List Token) :
    List Token :=
  ms ++ keywordToken .class_ :: wordToken .identifier name ::
    (typeParameterTokens ps ++ bodyTokens ts rest)

/-- The tokens of a namespace around other tokens. -/
def namespaceTokens (path : List String) (ts : List Token) : List Token :=
  keywordToken .namespace_ :: (pathTokens path ++ markToken .leftBrace :: ts)

/-- The type is one part of a class, with one method. -/
structure TypeDeclaration.IsPart (t : TypeDeclaration) (ws : List String) (name : String)
    (ps : List String) : Prop where
  modifiers : t.modifiers.Words ws
  kind : t.kind = .class_
  name : t.name.name = name
  typeParameters : t.typeParameters.map (fun p => p.name.name) = ps
  bases : t.bases = []
  members : ∃ m, t.members = [.method m]

/-- The namespace holds one type and nothing else. -/
structure NamespaceDeclaration.Holds (n : NamespaceDeclaration) (path : List String)
    (P : TypeDeclaration → Prop) : Prop where
  name : segmentNames n.name.segments = path
  usings : n.usings = []
  members : ∃ t, n.members = [.type t] ∧ P t

/-- The text holds one declaration and nothing else. -/
structure SourceUnit.Holds (u : SourceUnit) (P : Declaration → Prop) : Prop where
  usings : u.usings = []
  members : ∃ d, u.members = [d] ∧ P d

/-- The tokens `ms` can be the modifiers of a class: each can stand before the next one, the
    last one before the word `class`, and none is repeated. -/
structure AreModifiers (ms : List Token) : Prop where
  canModify : (ms ++ [keywordToken .class_]).IsChain CanModify
  nodup : (modifierFlags (ms.map Token.lexeme)).Nodup

/-- The group that begins the method is closed only if the tokens in it are nested. -/
def ClosesIfNested (ts rest : List Token) : Prop :=
  ∀ eof, (Group.take eof [] (markToken .leftBrace :: (ts ++ markToken .rightBrace :: rest))).errors
    = [] → Nested ts

theorem contextual_of_canModify {w : String} (h : CanModify t u) (ht : t.isContextual w = true) :
    Parser.contextualModifiers.contains w = true := by
  simp only [Token.isContextual, Bool.and_eq_true, beq_iff_eq] at ht
  obtain ⟨hk, rfl⟩ := ht
  exact h.contextual hk

/-- No entry but a declaration begins with modifiers of a class or its word. -/
theorem AreModifiers.begins_declaration (hms : AreModifiers ms)
    (hs : s.Shows (ms ++ keywordToken .class_ :: rest)) :
    s.isAtMark .rightBrace = false ∧ Parser.isAtExternAlias s = false ∧ Parser.isAtUsing s = false ∧
      s.isAtMark .leftBracket = false ∧ s.isAtEof = false := by
  cases ms with
  | nil =>
    have hk : s.peek.kind = .keyword .class_ := hs.peek_kind
    simp [isAtMark, isAtEof, Parser.isAtExternAlias, Parser.isAtUsing, isAt, hk, Token.isContextual]
  | cons t ms =>
    have hpeek : erase s.peek = t := ParserState.Shows.peek hs
    obtain ⟨v, vs, hv⟩ := List.exists_cons_of_ne_nil
      (List.append_ne_nil_of_right_ne_nil ms (List.cons_ne_nil (keywordToken .class_) []))
    have hc := hms.canModify
    rw [List.cons_append, hv] at hc
    obtain ⟨hcan, hc⟩ := List.isChain_cons_cons.1 hc
    have hnext : erase (s.peekAt 1) = v := by
      refine ParserState.Shows.peekAt hs ?_
      have : ms ++ keywordToken .class_ :: rest = v :: (vs ++ rest) := by
        rw [← List.cons_append, ← hv, List.append_assoc]
        rfl
      simp [this]
    have halias : v.isContextual "alias" = false := by
      cases vs with
      | nil =>
        have h := List.append_inj_right' (show ms ++ [keywordToken .class_] = [] ++ [v] from hv) rfl
        rw [← (List.cons.inj h).1]
        rfl
      | cons w vs =>
        exact Bool.eq_false_iff.2 fun ha =>
          absurd (contextual_of_canModify (List.isChain_cons_cons.1 hc).1 ha) (by decide)
    have hglobal : t.isContextual "global" = false :=
      Bool.eq_false_iff.2 fun hg => absurd (contextual_of_canModify hcan hg) (by decide)
    have hkind : t.kind.isModifier = true ∨ t.kind = .keyword .ref ∨ t.kind = .identifier := by
      rcases hcan with h | h | h
      · exact .inl h
      · exact .inr (.inl (beq_iff_eq.1 (Bool.and_eq_true_iff.1 h).1))
      · exact .inr (.inr h.1)
    have hk : s.peek.kind = t.kind := ParserState.Shows.peek_kind hs
    have ha : (s.peekAt 1).isContextual "alias" = false := by
      rw [← halias, ← hnext]
      rfl
    have hg : s.peek.isContextual "global" = false := by
      rw [← hglobal, ← hpeek]
      rfl
    have hne {k : TokenKind} (h : k.isModifier = false ∧ k ≠ .keyword .ref ∧ k ≠ .identifier) :
        s.isAt k = false := by
      obtain ⟨hm, hr, hi⟩ := h
      refine Bool.eq_false_iff.2 fun h => ?_
      rw [isAt_iff, hk] at h
      subst h
      rcases hkind with h | h | h
      · rw [h] at hm; cases hm
      · exact hr h
      · exact hi h
    exact ⟨hne (by decide), by simp [Parser.isAtExternAlias, ha],
      by simp [Parser.isAtUsing, hg, hne (k := .keyword .using_) (by decide)], hne (by decide),
      hne (by decide)⟩

namespace Parser

/-! ## Members -/

theorem isAtType_false (hk : s.peek.kind = .identifier) (hl : s.peek.lexeme ≠ "record") :
    isAtType s = false := by
  unfold isAtType isAtRecord
  simp [hk, Token.isContextual, hl]

/-- A type parameter that is a name. -/
def namedParameter (w : String) : TypeParameter :=
  ⟨[], none, ⟨w, default⟩, default⟩

theorem typeParameterTokens_eq (ps : List String) :
    typeParameterTokens ps = TypeParameter.listTokens (ps.map namedParameter) := by
  simp [typeParameterTokens, TypeParameter.listTokens, argumentTokens, commaTokens_eq,
    Function.comp_def, namedParameter, Ident.token]

theorem names_of_erase {qs : List TypeParameter} (h : erase qs = erase (ps.map namedParameter)) :
    qs.map (fun q => q.name.name) = ps := by
  have hnames := congrArg (List.map fun q : TypeParameter => q.name.name) h
  have herase (qs : List TypeParameter) :
      (erase qs).map (fun q => q.name.name) = qs.map fun q => q.name.name :=
    List.map_map
  rw [herase, herase, List.map_map] at hnames
  simpa [Function.comp_def, namedParameter] using hnames

/-- The type that the method returns. -/
def hookType : TypeSyntax :=
  let info : TypeSyntax := ⟨.named ⟨none, [⟨⟨"CommandInfo", default⟩, []⟩], "", default⟩, "", default⟩
  ⟨.named ⟨none, [⟨⟨"IEnumerable", default⟩, [info]⟩], "", default⟩, "", default⟩

/-- One method. -/
theorem memberWith_passes {nested : Reader (List Member)} (h : ClosesIfNested ts rest)
    (hs : s.Shows (hookTokens ++ methodTokens ts rest)) :
    Parser.Passes source s (memberWith nested) (Nested ts) fun m? s' =>
      (∃ x, m? = some (.method x)) ∧ s'.Shows rest := by
  have hk : s.peek.kind = .keyword .protected_ := hs.peek_kind
  refine .andThen (eat_declines (by simp [hk])) fun b s₁ h₁ => ?_
  obtain ⟨rfl, rfl⟩ := h₁
  have hs' : s₁.Shows ([keywordToken .protected_, keywordToken .override] ++
      wordToken .identifier "IEnumerable" :: (markToken .less ::
        wordToken .identifier "CommandInfo" :: markToken .greater ::
          wordToken .identifier "AutoRegister" :: methodTokens ts rest)) := hs
  refine (head_accepts hs' ?_ (by decide) (by decide) ?_ (by simp [hk])).bind
    fun hd s₂ h₂ => .get fun _ => ?_
  · exact List.isChain_cons_cons.2 ⟨.inl rfl, List.isChain_pair.2 (.inl rfl)⟩
  · simp [keywordToken, wordToken]
  rw [if_neg (by rw [isAtType_false h₂.2.2.peek_kind (by rw [h₂.2.2.peek_lexeme]; decide)]; simp)]
  have htokens : hookType.tokens = [wordToken .identifier "IEnumerable", markToken .less,
      wordToken .identifier "CommandInfo", markToken .greater] := by
    simp [hookType, TypeSyntax.tokens, TypeShape.tokens, Name.tokens, NameSegment.tokens, separated,
      argumentTokens, Ident.token]
  have hprintable : hookType.IsPrintable := by
    simpa [hookType, TypeSyntax.IsPrintable, TypeShape.IsPrintable, Name.IsPrintable,
      NameSegment.IsPrintable, Ident.IsName] using
      And.intro (@IsWord.of_isName "IEnumerable" (by decide +kernel))
        (@IsWord.of_isName "CommandInfo" (by decide +kernel))
  have h₂' : s₂.Shows (hookType.tokens ++ (⟨"AutoRegister", default⟩ : Ident).token ::
      signatureTokens [] [] (markToken .leftBrace :: (ts ++ markToken .rightBrace :: rest))) := by
    rw [htokens]
    exact h₂.2.2
  refine .bind_left (S := fun _ _ => True) memberAfter_safe
    (memberAfter_passes (Q := fun _ => True) (by simp) (by simp) (by simp [markToken])
      (fun s' hs' => (body_passes hs' h).mono fun _ _ hb => ⟨⟨⟩, hb.2⟩) hprintable h₂')
    (fun _ _ _ _ => .pure ⟨⟩) fun m s₃ h₃ => .pure ?_
  obtain ⟨⟨x, rfl, -⟩, h₃⟩ := h₃
  exact ⟨⟨x, rfl⟩, h₃⟩

section
variable (h : ClosesIfNested ts (markToken .rightBrace :: rest))
include h

theorem memberStep_passes {depth : Nat} (hn : s.after.length ≤ depth)
    (hs : s.Shows (hookTokens ++ methodTokens ts (markToken .rightBrace :: rest))) :
    Reader.Passes source s (memberStep (membersWithin depth) []) (Nested ts) fun r s' =>
      ∃ ms, r = .next ms ∧ ((∃ x, ms = [.method x]) ∧ s'.Shows (markToken .rightBrace :: rest)) ∧
        s'.after.length < s.after.length := by
  have hk : s.peek.kind = .keyword .protected_ := hs.peek_kind
  refine .get fun _ => ?_
  rw [if_pos (by simp [isInBraces, isAtMark, isAtEof, isAt, hk])]
  have hread : Reader.Passes source s (orRecover (memberWith (membersWithin depth))) (Nested ts) _ :=
    Parser.Passes.orRecover (memberWith_safe (fun _ h' => membersWithin_safe h') hn) (memberWith_passes h hs)
  refine .bind_left (S := fun _ _ => True) hread (fun _ _ _ _ => moveOn_safe.bind fun _ _ _ _ _ => .pure ⟨⟩)
    fun m? s₁ h₁ => ?_
  obtain ⟨_, rfl, ⟨x, rfl⟩, h₁⟩ := h₁
  refine (moveOn_stays (.inl h₁.peek_kind)).bind fun _ s₂ h₂ => .pure ?_
  subst h₂
  refine ⟨_, rfl, ⟨⟨x, rfl⟩, h₁⟩, ?_⟩
  rw [h₁.length_after, hs.length_after]
  simp [methodTokens]
  omega

/-- One method up to a closing brace. -/
theorem membersWithin_passes {depth : Nat} (hn : s.after.length < depth)
    (hs : s.Shows (hookTokens ++ methodTokens ts (markToken .rightBrace :: rest))) :
    Reader.Passes source s (membersWithin depth) (Nested ts) fun ms s' =>
      (∃ x, ms = [.method x]) ∧ s'.Shows (markToken .rightBrace :: rest) := by
  cases depth with
  | zero => omega
  | succ depth =>
    refine .loop_first (I := fun ms s' => (∃ x, ms = [.method x]) ∧
      s'.Shows (markToken .rightBrace :: rest)) (fun _ k s' hk => ?_)
      (memberStep_passes h (by omega) hs) fun ms s' hI => ?_
    · have := hk.length_after
      exact memberStep_consumes (fun _ h' => membersWithin_safe h') (by omega)
    · refine .get fun _ => ?_
      rw [if_neg (by simp [isInBraces, isAtMark, isAt, hI.2.peek_kind, markToken])]
      exact .pure hI

theorem members_passes
    (hs : s.Shows (hookTokens ++ methodTokens ts (markToken .rightBrace :: rest))) :
    Reader.Passes source s members (Nested ts) fun ms s' =>
      (∃ x, ms = [.method x]) ∧ s'.Shows (markToken .rightBrace :: rest) := by
  refine rounds_accepts.bind fun n s₁ h₁ => ?_
  obtain ⟨rfl, rfl⟩ := h₁
  exact membersWithin_passes h (Nat.lt_succ_self _) hs

/-! ## Types -/

/-- **A part of a class is read just if the body of its method is nested.** -/
theorem typeDeclaration_passes {head : Head} (hr : NoSemicolon rest)
    (hs : s.Shows (keywordToken .class_ :: wordToken .identifier name ::
      (typeParameterTokens ps ++ bodyTokens ts rest))) :
    Parser.Passes source s (typeDeclaration head) (Nested ts) fun t s' =>
      t.modifiers = head.modifiers ∧ t.kind = .class_ ∧ t.name.name = name ∧
        t.typeParameters.map (fun p => p.name.name) = ps ∧ t.bases = [] ∧
        (∃ m, t.members = [.method m]) ∧ s'.Shows rest := by
  have hs : s.Shows (classTokens ⟨name, default⟩ (ps.map namedParameter) []
      (hookTokens ++ methodTokens ts (markToken .rightBrace :: rest))) := by
    rw [typeParameterTokens_eq] at hs
    exact hs
  refine (typeWithMembers_passes (fun _ _ => members_safe) (Nat.le_refl _)
    (fun s' hs' _ => members_passes h hs') hr (by simp [namedParameter]) (by simp) hs).mono
      fun t s' ht => ?_
  obtain ⟨⟨hm, heq, hms⟩, hs'⟩ := ht
  obtain ⟨attributes, modifiers, kind, ⟨name', span⟩, qs, parameters?, bs, cs, ms, span'⟩ := t
  simp only [erase_typeDeclaration, TypeDeclaration.mk.injEq, erase_ident, Ident.mk.injEq] at heq
  obtain ⟨-, -, hkind, ⟨hname, -⟩, hqs, -, hbases, -⟩ := heq
  exact ⟨hm, hkind, hname, names_of_erase hqs, List.map_eq_nil_iff.1 hbases, hms, hs'⟩

end

/-! ## Declarations -/

/-- Tokens that end a part: none, or a closing brace comes first. -/
def EndsPart (rest : List Token) : Prop :=
  ∀ t, rest.head? = some t → t.kind = .punct .rightBrace

section
variable (h : ClosesIfNested ts (markToken .rightBrace :: rest)) (hms : AreModifiers ms)
  (hr : EndsPart rest) (hs : s.Shows (partTokens ms name ps ts rest))
include h hms hr hs

theorem declarationWith_part_passes {nested : Bool → Reader (List Entry)} :
    Parser.Passes source s (declarationWith nested) (Nested ts) fun d s' =>
      (∃ t, d = .type t ∧ t.IsPart (ms.map Token.lexeme) name ps) ∧ s'.Shows rest := by
  refine (head_accepts hs hms.canModify hms.nodup (by decide)
    (fun t _ hk hl => modifiesBefore_of_continues hk hl (by decide)) ?_).bind
      fun hd s₁ h₁ => .get fun _ => ?_
  · exact mt isAtMark_iff.2 (by simp [(hms.begins_declaration hs).2.2.2.1])
  have hk : s₁.peek.kind = .keyword .class_ := h₁.2.2.peek_kind
  rw [if_neg (by simp [isAt, hk]), if_neg (by simp [isAt, hk]), if_pos (by simp [isAtType, hk])]
  refine .bind_left (S := fun _ _ => True) typeDeclaration_safe
    (typeDeclaration_passes h (fun t ht => by simp [hr t ht]) h₁.2.2)
    (fun _ _ _ _ => .pure ⟨⟩) fun t s₂ h₂ => .pure ?_
  obtain ⟨hm, hkind, hname, hps, hbases, hmem, h₂⟩ := h₂
  exact ⟨⟨t, rfl, hm ▸ h₁.2.1, hkind, hname, hps, hbases, hmem⟩, h₂⟩

end

/-! ## Entries -/

/-- A unit or a namespace with one declaration. -/
theorem entriesWithin_one {depth : Nat} {braced : Bool} {C : Prop} {Q : Declaration → Prop}
    (hn : s.after.length < depth + 1)
    (hb : s.isAtMark .rightBrace = false ∧ isAtExternAlias s = false ∧ isAtUsing s = false ∧
      s.isAtMark .leftBracket = false ∧ s.isAtEof = false)
    (hd : Parser.Passes source s (declarationWith (entriesWithin depth)) C fun d s' =>
      Q d ∧ s'.Shows rest)
    (hlt : rest.length < s.after.length)
    (hend : rest = [] ∨ braced = true ∧ ∃ more, rest = markToken .rightBrace :: more) :
    Reader.Passes source s (entriesWithin (depth + 1) braced) C fun es s' =>
      (∃ d, es = [.declaration d] ∧ Q d) ∧ s'.Shows rest := by
  have hsafe (s' : ParserState) (braced : Bool) (h' : s'.after.length < depth) :=
    (@entriesWithin_safe source s' depth braced h').mono fun _ _ hes => hes.1
  refine .loop_first (I := fun es s' => (∃ d, es = [.declaration d] ∧ Q d) ∧ s'.Shows rest)
    (fun es k s' hk => ?_) ?_ fun es s' hI => ?_
  · have := hk.length_after
    exact (entryStep_safe hsafe (.refl s') (by omega)).mono fun _ _ hr => hr.1
  · -- the declaration
    obtain ⟨hbrace, hpast, husing, hbracket, heof⟩ := hb
    refine .get fun _ => ?_
    rw [if_neg (by simp [hbrace, heof])]
    have hentry : Reader.Passes source s (entryWith (entriesWithin depth)) C fun e? s' =>
        ∃ d, e? = some (.declaration d) ∧ Q d ∧ s'.Shows rest := by
      refine .get fun _ => ?_
      rw [if_neg (by simp [hbrace]), if_neg (by simp [hpast]), if_neg (by simp [husing]),
        if_neg (by simp [isAtGlobalAttributes, hbracket])]
      have := Parser.Passes.orRecover (S := fun _ _ => True)
        (.map ((declarationWith_safe hsafe (by omega)).mono fun _ _ _ => ⟨⟩))
        (Parser.Passes.map (g := Entry.declaration) (T := fun e s' =>
          ∃ d, e = .declaration d ∧ Q d ∧ s'.Shows rest) (hd.mono fun d s' h => ⟨d, rfl, h⟩))
      refine this.mono fun e? s' he => ?_
      obtain ⟨_, rfl, d, rfl, hd⟩ := he
      exact ⟨d, rfl, hd⟩
    refine .bind_left (S := fun _ _ => True) hentry
      (fun _ _ _ _ => moveOn_safe.bind fun _ _ _ _ _ => .pure ⟨⟩) fun e? s₁ h₁ => ?_
    obtain ⟨d, rfl, hQ, h₁⟩ := h₁
    refine (moveOn_stays ?_).bind fun _ s₂ h₂ => .pure ?_
    · rcases hend with rfl | ⟨-, more, rfl⟩
      · exact .inr (List.map_eq_nil_iff.1 h₁)
      · exact .inl h₁.peek_kind
    · subst h₂
      exact ⟨_, rfl, ⟨⟨d, rfl, hQ⟩, h₁⟩, by rw [h₁.length_after]; exact hlt⟩
  · refine .get fun hg => ?_
    rw [if_pos ?_]
    · exact .pure hI
    · rcases hend with rfl | ⟨rfl, more, rfl⟩
      · simp [isAtEof, isAt, hI.2.peek_eof hg]
      · simp [isAtMark, isAt, hI.2.peek_kind, markToken]

/-! ## Namespaces -/

theorem partTokens_length : rest.length < (partTokens ms name ps ts rest).length := by
  simp [partTokens, bodyTokens, methodTokens]
  omega

/-- The mark behind the name of a namespace. -/
def namespaceMark (isFileScoped : Bool) : Punct :=
  if isFileScoped then .semicolon else .leftBrace

/-- What stands behind the entries of a namespace at the end of a text. -/
def namespaceEnd (isFileScoped : Bool) : List Token :=
  if isFileScoped then [] else [markToken .rightBrace]

section
variable {C : Prop} {Q : List Entry → Prop} (isFileScoped : Bool)

/-- **What stands in a namespace is read just if its entries are.** -/
theorem namespaceEntries_passes {depth : Nat}
    (hs : s.Shows (if isFileScoped then rest else markToken .leftBrace :: rest))
    (hentries : ∀ s', s.LeadsTo s' → s'.Shows rest →
      Reader.Passes source s' (entriesWithin depth (!isFileScoped)) C fun es s'' =>
        Q es ∧ s''.Shows (namespaceEnd isFileScoped)) :
    Parser.Passes source s (namespaceEntries (entriesWithin depth) isFileScoped) C fun es s' =>
      Q es ∧ s'.Shows [] := by
  cases isFileScoped with
  | true => exact .lift (hentries s (.refl s) hs)
  | false =>
    refine (expect_accepts hs rfl).leading.discard.bind fun _ s₁ h₁ => ?_
    have hes := hentries s₁ h₁.2 h₁.1
    refine .bind_left (S := fun _ _ => True) (.lift hes.safe) (.lift hes) (fun _ _ _ _ => ?_)
      fun es s₂ h₂ => ?_
    · exact .andThen expectClosing_safe fun _ _ _ _ _ =>
        (Parser.Safe.lift eatMark_passes).discard.bind fun _ _ _ _ _ => .pure ⟨⟩
    refine .andThen (expectClosing_accepts h₂.2 rfl) fun _ s₃ h₃ => .good fun hg => ?_
    refine (eatMark_declines (by simp [h₃.peek_eof hg])).bind fun _ s₄ h₄ => .pure ?_
    exact ⟨h₂.1, h₄ ▸ h₃⟩

/-- **A namespace whose name has no reserved piece is read just if its entries are.** -/
theorem namespaceWith_passes {start : Span} {p : String} {path : List String} {depth : Nat}
    (hn : s.after.length ≤ depth) (hpath : ∀ q ∈ p :: path, wordKind q = .identifier)
    (hs : s.Shows (keywordToken .namespace_ ::
      (pathTokens (p :: path) ++ markToken (namespaceMark isFileScoped) :: rest)))
    (hentries : ∀ s', s.LeadsTo s' → s'.Shows rest →
      Reader.Passes source s' (entriesWithin depth (!isFileScoped)) C fun es s'' =>
        Q es ∧ s''.Shows (namespaceEnd isFileScoped))
    (hQ : ∀ es, Q es → Entry.globalAttributes es = []) :
    Parser.Passes source s (namespaceWith (entriesWithin depth) start) C fun n s' =>
      (segmentNames n.name.segments = p :: path ∧ n.isFileScoped = isFileScoped ∧
        ∃ es, Q es ∧ n.usings = Entry.usings es ∧ n.members = Entry.declarations es) ∧
          s'.Shows [] := by
  obtain ⟨hp, hplain⟩ := List.forall_mem_cons.1 hpath
  refine (expect_accepts hs rfl).leading.discard.bind fun _ s₁ h₁ => ?_
  have hmark : (markToken (namespaceMark isFileScoped)).endsType = true := by
    cases isFileScoped <;> rfl
  refine (name_accepts h₁.1 hmark hp).leading.bind fun n s₂ h₂ => ?_
  obtain ⟨⟨hend, hname⟩, hr₂⟩ := h₂
  rw [EndsPath, if_pos hplain] at hend
  have heat : Reader.Accepts source s₂ (eatMark .semicolon) fun b s' => b = isFileScoped ∧
      s'.Shows (if isFileScoped then rest else markToken .leftBrace :: rest) := by
    cases isFileScoped with
    | true => exact eat_accepts hend rfl
    | false =>
      refine (eat_declines (by simp [hend.peek_kind, markToken, namespaceMark])).mono fun b s' hb => ?_
      exact ⟨hb.1, hb.2 ▸ hend⟩
  refine .andThen heat.leading fun b s₃ h₃ => ?_
  obtain ⟨⟨rfl, h₃⟩, hr₃⟩ := h₃
  have hlead := (h₁.2.trans hr₂).trans hr₃
  have hlen : s₃.after.length < depth := by
    obtain ⟨⟨_, hk⟩, -⟩ := hr₂.trans hr₃
    have := hk.length_after
    have h₀ := hs.length_after
    have h₁ := h₁.1.length_after
    rw [List.length_cons] at h₀
    omega
  have hsafe (s' : ParserState) (braced : Bool) (h' : s'.after.length < depth) :=
    (@entriesWithin_safe source s' depth braced h').mono fun _ _ hes => hes.1
  refine .bind_left_safe (S := fun _ _ => True) (namespaceEntries_safe hsafe hlen)
    (namespaceEntries_passes _ h₃ fun s' hr => hentries s' (hlead.trans hr))
    (fun es _ _ _ hes => ?_) fun es s₄ h₄ => ?_
  · dsimp only
    split
    · exact .andThen (report_safe (hes.globalAttributes ‹_›)) fun _ _ _ _ _ => .get fun _ => .pure ⟨⟩
    · exact .get fun _ => .pure ⟨⟩
  · simp only [hQ es h₄.1, List.head?_nil]
    exact .get fun _ => .pure ⟨⟨hname hplain, rfl, es, h₄.1, rfl, rfl⟩, h₄.2⟩

end

/-- **Where the word `namespace` stands, a namespace is read.** -/
theorem declarationWith_namespace {C : Prop} {P : NamespaceDeclaration → Prop} {more : List Token}
    {depth : Nat} (hn : s.after.length ≤ depth) (hs : s.Shows (keywordToken .namespace_ :: rest))
    (h : ∀ start s', s.LeadsTo s' → s'.Shows (keywordToken .namespace_ :: rest) →
      Parser.Passes source s' (namespaceWith (entriesWithin depth) start) C fun n s'' =>
        P n ∧ s''.Shows more) :
    Parser.Passes source s (declarationWith (entriesWithin depth)) C fun d s' =>
      (∃ n, d = .namespace_ n ∧ P n) ∧ s'.Shows more := by
  have hk : s.peek.kind = .keyword .namespace_ := hs.peek_kind
  have hhead : Parser.Accepts source s head fun _ s' => s'.Shows (keywordToken .namespace_ :: rest) :=
    (@head_accepts _ _ _ [] _ hs (by simp) (by simp [modifierFlags]) (by decide) (by simp)
      (by simp [hk])).mono fun _ _ h => h.2.2
  refine hhead.leading.bind fun hd s₁ h₁ => .get fun _ => ?_
  have hlen : s₁.after.length ≤ depth :=
    (h₁.1.length_after.trans hs.length_after.symm).trans_le hn
  have hk₁ : s₁.peek.kind = .keyword .namespace_ := h₁.1.peek_kind
  rw [if_pos (isAt_iff.2 hk₁)]
  refine .bind_left (S := fun _ _ => True) (namespaceWith_safe (fun s' braced h' => ?_) hlen)
    (h _ s₁ h₁.2 h₁.1) (fun _ _ _ _ => .pure ⟨⟩) fun n s₂ h₂ => .pure ⟨⟨n, rfl, h₂.1⟩, h₂.2⟩
  exact (entriesWithin_safe h').mono fun _ _ hes => hes.1

section
variable {start : Span} {p : String} {path : List String} {depth : Nat}
  (h : ClosesIfNested ts [markToken .rightBrace, markToken .rightBrace]) (hms : AreModifiers ms)
include h hms

/-- A namespace whose name has no reserved piece. -/
theorem namespaceWith_plain (hn : s.after.length ≤ depth)
    (hpath : ∀ q ∈ p :: path, wordKind q = .identifier)
    (hs : s.Shows (namespaceTokens (p :: path) (partTokens ms name ps ts [markToken .rightBrace]))) :
    Parser.Passes source s (namespaceWith (entriesWithin depth) start) (Nested ts) fun n s' =>
      n.Holds (p :: path) (fun t => t.IsPart (ms.map Token.lexeme) name ps) ∧ s'.Shows [] := by
  have hpart (s' : ParserState) (hr : s.LeadsTo s')
      (hs' : s'.Shows (partTokens ms name ps ts [markToken .rightBrace])) :
      Reader.Passes source s' (entriesWithin depth true) (Nested ts) fun es s'' =>
        (∃ d, es = [.declaration d] ∧ ∃ t, d = .type t ∧ t.IsPart (ms.map Token.lexeme) name ps) ∧
          s''.Shows [markToken .rightBrace] := by
    have hlen : s'.after.length < depth := by
      rw [hs'.length_after]
      rw [hs.length_after] at hn
      simp only [namespaceTokens, List.length_cons, List.length_append] at hn
      omega
    obtain ⟨depth, rfl⟩ : ∃ n, depth = n + 1 := ⟨depth - 1, by omega⟩
    exact entriesWithin_one hlen (hms.begins_declaration hs')
      (declarationWith_part_passes h hms (by simp [EndsPart, markToken]) hs')
      (by rw [hs'.length_after]; exact partTokens_length) (.inr ⟨rfl, [], rfl⟩)
  refine (namespaceWith_passes false hn hpath hs hpart ?_).mono fun n s' hn => ?_
  · rintro _ ⟨d, rfl, -⟩
    rfl
  · obtain ⟨⟨hname, -, _, ⟨_, rfl, t, rfl, ht⟩, hus, hms⟩, hs'⟩ := hn
    exact ⟨⟨hname, hus, t, hms, ht⟩, hs'⟩

omit h hms in
/-- No namespace is read whose name has a reserved piece. -/
theorem namespaceWith_rejects {nested : Bool → Reader (List Entry)} {rest : List Token}
    (hpath : ¬ ∀ q ∈ p :: path, wordKind q = .identifier)
    (hs : s.Shows (namespaceTokens (p :: path) rest)) :
    Parser.Rejects source s (namespaceWith nested start) := by
  refine (expect_accepts hs rfl).discard.bind fun _ s₁ h₁ => ?_
  by_cases hp : wordKind p = .identifier
  · refine (name_accepts h₁ rfl hp).bind fun n s₂ h₂ => ?_
    have hdot : s₂.peek.kind = .punct .dot := by
      have := h₂.1
      rwa [EndsPath, if_neg fun h => hpath (List.forall_mem_cons.2 ⟨hp, h⟩)] at this
    refine .andThen (eat_declines (by simp [hdot])) fun b s₃ h₃ => ?_
    obtain ⟨rfl, rfl⟩ := h₃
    exact (Parser.Fails.bind (.bind (.discard (expect_fails (by simp [hdot]))))).rejects
  · refine (Parser.Fails.bind (name_fails ?_)).rejects
    obtain ⟨us, hus⟩ := pathTokens_eq p path
    rw [hus] at h₁
    rw [h₁.peek_kind]
    exact hp

/-- **A namespace around a part is read just if no piece of its name is reserved** and the
    body of the method is nested. -/
theorem declarationWith_namespace_passes (hn : s.after.length ≤ depth) (hs : s.Shows
      (namespaceTokens (p :: path) (partTokens ms name ps ts [markToken .rightBrace]))) :
    Parser.Passes source s (declarationWith (entriesWithin depth))
      ((∀ q ∈ p :: path, wordKind q = .identifier) ∧ Nested ts) fun d s' =>
        (∃ n, d = .namespace_ n ∧
          n.Holds (p :: path) fun t => t.IsPart (ms.map Token.lexeme) name ps) ∧ s'.Shows [] := by
  refine declarationWith_namespace hn hs fun start s' _ hs' => ?_
  have hlen : s'.after.length ≤ depth := (hs'.length_after.trans hs.length_after.symm).trans_le hn
  by_cases hpath : ∀ q ∈ p :: path, wordKind q = .identifier
  · exact (namespaceWith_plain h hms hlen hpath hs').of_iff (and_iff_right hpath)
  · exact .of_cases (fun hC => absurd hC.1 hpath) fun _ => namespaceWith_rejects hpath hs'

end

/-! ## Texts -/

/-- **A text is read just if its one declaration is.** -/
theorem sourceUnit_one {C : Prop} {Q : Declaration → Prop}
    (hb : s.isAtMark .rightBrace = false ∧ isAtExternAlias s = false ∧ isAtUsing s = false ∧
      s.isAtMark .leftBracket = false ∧ s.isAtEof = false)
    (hd : Parser.Passes source s (declarationWith (entriesWithin s.after.length)) C fun d s' =>
      Q d ∧ s'.Shows []) (hne : s.after ≠ []) :
    Reader.Passes source s sourceUnit C fun u _ => u.attributes = [] ∧ u.Holds Q := by
  refine .get fun _ => rounds_accepts.bind fun n s₁ h₁ => ?_
  obtain ⟨rfl, rfl⟩ := h₁
  refine .bind_left (S := fun _ _ => True) (entriesWithin_one (Nat.lt_succ_self _) hb hd
    (List.length_pos_iff.2 hne) (.inl rfl)) (fun _ _ _ _ => .get fun _ => .pure ⟨⟩) fun es s₂ h₂ => ?_
  obtain ⟨⟨d, rfl, hd⟩, -⟩ := h₂
  exact .get fun _ => .pure ⟨rfl, rfl, d, rfl, hd⟩

theorem begins_namespace (hs : s.Shows (keywordToken .namespace_ :: rest)) :
    s.isAtMark .rightBrace = false ∧ isAtExternAlias s = false ∧ isAtUsing s = false ∧
      s.isAtMark .leftBracket = false ∧ s.isAtEof = false := by
  have hk : s.peek.kind = .keyword .namespace_ := hs.peek_kind
  simp [isAtMark, isAtEof, isAtExternAlias, isAtUsing, isAt, hk, Token.isContextual]

/-- **A namespace alone.** -/
theorem sourceUnit_namespace {C : Prop} {Q : List Entry → Prop} {p : String} {path : List String}
    (isFileScoped : Bool) (hpath : ∀ q ∈ p :: path, wordKind q = .identifier)
    (hs : s.Shows (keywordToken .namespace_ ::
      (pathTokens (p :: path) ++ markToken (namespaceMark isFileScoped) :: rest)))
    (hentries : ∀ s', s.LeadsTo s' → s'.Shows rest →
      Reader.Passes source s' (entriesWithin s.after.length (!isFileScoped)) C fun es s'' =>
        Q es ∧ s''.Shows (namespaceEnd isFileScoped))
    (hQ : ∀ es, Q es → Entry.globalAttributes es = []) :
    Reader.Passes source s sourceUnit C fun u _ => u.attributes = [] ∧ u.Holds fun d =>
      ∃ n, d = .namespace_ n ∧ segmentNames n.name.segments = p :: path ∧
        n.isFileScoped = isFileScoped ∧
          ∃ es, Q es ∧ n.usings = Entry.usings es ∧ n.members = Entry.declarations es := by
  refine sourceUnit_one (begins_namespace hs)
    (declarationWith_namespace (Nat.le_refl _) hs fun start s' hr hs' => ?_) ?_
  · have hlen : s'.after.length = s.after.length := hs'.length_after.trans hs.length_after.symm
    exact namespaceWith_passes isFileScoped hlen.le hpath hs' (fun s'' hr' => hentries s'' (hr.trans hr')) hQ
  · rw [← List.length_pos_iff, hs.length_after]
    exact Nat.succ_pos _

/-- **A part of a class alone.** -/
theorem sourceUnit_part_passes (h : ClosesIfNested ts [markToken .rightBrace])
    (hms : AreModifiers ms) (hs : s.Shows (partTokens ms name ps ts [])) :
    Reader.Passes source s sourceUnit (Nested ts) fun u _ =>
      u.Holds fun d => ∃ t, d = .type t ∧ t.IsPart (ms.map Token.lexeme) name ps := by
  refine (sourceUnit_one (hms.begins_declaration hs)
    (declarationWith_part_passes h hms (by simp [EndsPart]) hs) ?_).mono fun _ _ hu => hu.2
  rw [← List.length_pos_iff, hs.length_after]
  exact @partTokens_length ms ts [] name ps

/-- **A part of a class in a namespace.** -/
theorem sourceUnit_namespace_passes {p : String} {path : List String}
    (h : ClosesIfNested ts [markToken .rightBrace, markToken .rightBrace]) (hms : AreModifiers ms)
    (hs : s.Shows (namespaceTokens (p :: path) (partTokens ms name ps ts [markToken .rightBrace]))) :
    Reader.Passes source s sourceUnit ((∀ q ∈ p :: path, wordKind q = .identifier) ∧ Nested ts)
      fun u _ => u.Holds fun d => ∃ n, d = .namespace_ n ∧
        n.Holds (p :: path) fun t => t.IsPart (ms.map Token.lexeme) name ps := by
  refine (sourceUnit_one (begins_namespace hs)
    (declarationWith_namespace_passes h hms (Nat.le_refl _) hs) ?_).mono fun _ _ hu => hu.2
  rw [← List.length_pos_iff, hs.length_after]
  exact Nat.succ_pos _

end Parser

/-- **A text without lexical errors is read just if its tokens are**, where `P` is what holds
    of it then. -/
theorem parse_passes_of {text : String} {C : Prop} {P : SourceUnit → Prop} (id : Nat) (path : String)
    (hlex : (tokenize text).errors = [])
    (h : Reader.Passes text.toList (ofText text) Parser.sourceUnit C fun u _ => P u) :
    ((SyntaxTree.parse id path text).errors = [] ↔ C) ∧
      (C → P (SyntaxTree.parse id path text).root) := by
  obtain ⟨-, -, hC, hn⟩ := h (ofText_good text)
  have herr : (SyntaxTree.parse id path text).errors = [] ↔
      (Parser.sourceUnit.run (ofText text)).2.errors = [] := by
    show (tokenize text).errors.map _ ++ _ = [] ↔ _
    rw [hlex]
    rfl
  refine ⟨herr.trans ⟨fun he => ?_, fun h => (hC h).1⟩, fun h => (hC h).2⟩
  by_contra hC
  exact hn hC he

/-- What is read may depend on the tokens alone, and not on their places. -/
theorem parse_passes {text : String} {C : Prop} {P : SourceUnit → Prop} (id : Nat) (path : String)
    (hlex : (tokenize text).errors = []) (htokens : erase (tokenize text).body = ts)
    (h : ∀ source s, s.Shows ts → Reader.Passes source s Parser.sourceUnit C fun u _ => P u) :
    ((SyntaxTree.parse id path text).errors = [] ↔ C) ∧
      (C → P (SyntaxTree.parse id path text).root) := by
  refine parse_passes_of id path hlex (h _ _ ?_)
  rw [Shows, ofText_after hlex]
  exact htokens

end CommandModules

/-
  Command modules — declarations written out as tokens.

  The declarations are those that the registration of commands reads: classes and their
  methods, with attributes, in namespaces, behind using directives.

  * `SourceUnit.tokens`: the tokens of a text that holds such declarations;
  * `SourceUnit.IsPrintable`: the text holds nothing else, and none of its identifiers is a
    contextual word;
  * `SourceUnit.isSpelt`: then each of the tokens is spelt.
-/
import Mathlib.Tactic.MkIffOfInductiveProp
import CommandModules.Proofs.Printed.Type
import CommandModules.Proofs.Taken.Modifier

namespace CommandModules

/-! ## Identifiers -/

/-- Words with a meaning of their own where they stand in some places. -/
def contextualWords : List String :=
  ["partial", "async", "required", "file", "record", "where", "scoped", "global", "alias"]

/-- The token is no contextual word. -/
def Token.IsPlain (t : Token) : Prop :=
  t.kind = .identifier → t.lexeme ∉ contextualWords

/-- The identifier can be written and is no contextual word. -/
def Ident.IsPlain (i : Ident) : Prop :=
  i.IsName ∧ i.token.IsPlain

/-- The name can be written, and none of its identifiers is a contextual word. -/
def Name.IsPlain (n : Name) : Prop :=
  n.IsPrintable ∧ ∀ t ∈ n.tokens, t.IsPlain

/-- The type can be written, and none of its identifiers is a contextual word. -/
def TypeSyntax.IsPlain (t : TypeSyntax) : Prop :=
  t.IsPrintable ∧ ∀ u ∈ t.tokens, u.IsPlain

/-! ## Attributes -/

/-- The expression is a literal or an identifier. -/
def ExprSyntax.IsValue (e : ExprSyntax) : Prop :=
  ∃ t : Token, t.IsSpelt ∧ e.text = t.lexeme ∧ t.IsPlain ∧
    (t.kind.isLiteral = true ∨ t.kind = .identifier)

/-- The tokens of an argument: `Name = value`, or the value alone. -/
def AttributeArgument.tokens (a : AttributeArgument) : List Token :=
  (a.nameEquals?.toList.flatMap fun i => [i.token, markToken .equal]) ++
    a.expression?.toList.flatMap fun e => tokensOf e.text

/-- The argument is a value, possibly with a name. -/
@[mk_iff]
structure AttributeArgument.IsPrintable (a : AttributeArgument) : Prop where
  nameEquals : ∀ i ∈ a.nameEquals?, i.IsPlain
  nameColon : a.nameColon? = none
  expression : ∃ e, a.expression? = some e ∧ e.IsValue

/-- Items with commas between them, in parentheses. -/
def parenthesized (items : List (List Token)) : List Token :=
  markToken .leftParen :: (separated .comma items ++ [markToken .rightParen])

/-- The tokens of an attribute. -/
def Attribute.tokens (a : Attribute) : List Token :=
  a.name.tokens ++ a.arguments?.toList.flatMap fun list =>
    parenthesized (list.items.map AttributeArgument.tokens)

/-- The attribute has a name and arguments that can be written. -/
@[mk_iff]
structure Attribute.IsPrintable (a : Attribute) : Prop where
  name : a.name.IsPlain
  arguments : ∀ list ∈ a.arguments?, ∀ i ∈ list.items, i.IsPrintable

/-- The tokens of attributes in brackets. -/
def AttributeSection.tokens (s : AttributeSection) : List Token :=
  markToken .leftBracket ::
    (separated .comma (s.attributes.map Attribute.tokens) ++ [markToken .rightBracket])

/-- The section has no target, and its attributes can be written. -/
@[mk_iff]
structure AttributeSection.IsPrintable (s : AttributeSection) : Prop where
  target : s.target? = none
  attributes : ∀ a ∈ s.attributes, a.IsPrintable

/-! ## Parts of declarations -/

/-- The tokens of modifiers. -/
def WrittenModifiers.tokens (m : WrittenModifiers) : List Token :=
  m.words.map fun w => wordToken (wordKind w.name) w.name

/-- The modifiers are reserved words or `partial`, and none is repeated. -/
@[mk_iff]
structure WrittenModifiers.IsPrintable (m : WrittenModifiers) : Prop where
  words : ∀ w ∈ m.words, (wordKind w.name).isModifier = true ∨ w.name = "partial"
  nodup : (m.words.map Ident.name).Nodup
  flags : m.flags = .ofList (modifierFlags (m.words.map Ident.name))

/-- The type parameter is a name. -/
@[mk_iff]
structure TypeParameter.IsPrintable (p : TypeParameter) : Prop where
  attributes : p.attributes = []
  variance : p.variance? = none
  name : p.name.IsPlain

/-- The tokens of a parameter. -/
def Parameter.tokens (p : Parameter) : List Token :=
  p.type.tokens ++ [p.name.token]

/-- The parameter has a type and a name and nothing else. -/
@[mk_iff]
structure Parameter.IsPrintable (p : Parameter) : Prop where
  attributes : p.attributes = []
  modifiers : p.modifiers = ⟨.none, []⟩
  type : p.type.IsPlain
  name : p.name.IsPlain
  default : p.default? = none

/-- The tokens of a body, which is a block without content or missing. -/
def Body.tokens : Body → List Token
  | .block _ => [markToken .leftBrace, markToken .rightBrace]
  | .none => [markToken .semicolon]
  | .expression _ => []

/-- The body is a block or missing. -/
def Body.IsPrintable : Body → Prop
  | .expression _ => False
  | _ => True

/-- The tokens of attributes and modifiers. -/
def headTokens (attributes : List AttributeSection) (modifiers : WrittenModifiers) : List Token :=
  attributes.flatMap AttributeSection.tokens ++ modifiers.tokens

/-- The tokens of type parameters. -/
def TypeParameter.listTokens (ps : List TypeParameter) : List Token :=
  argumentTokens (ps.map fun p => [p.name.token])

/-! ## Classes and methods -/

/-- The tokens of a method. -/
def Method.tokens (m : Method) : List Token :=
  headTokens m.attributes m.modifiers ++ m.returnType.tokens ++ m.name.token ::
    (TypeParameter.listTokens m.typeParameters ++ parenthesized (m.parameters.map Parameter.tokens) ++
      m.body.tokens)

/-- Every part of the method can be written, and it has no parts but these. -/
@[mk_iff]
structure Method.IsPrintable (m : Method) : Prop where
  attributes : ∀ s ∈ m.attributes, s.IsPrintable
  modifiers : m.modifiers.IsPrintable
  returnType : m.returnType.IsPlain
  explicitInterface : m.explicitInterface? = none
  name : m.name.IsPlain
  typeParameters : ∀ p ∈ m.typeParameters, p.IsPrintable
  parameters : ∀ p ∈ m.parameters, p.IsPrintable
  constraints : m.constraints = []
  body : m.body.IsPrintable

/-- The tokens of a class before its members. -/
def TypeDeclaration.openTokens (t : TypeDeclaration) : List Token :=
  headTokens t.attributes t.modifiers ++ keywordToken .class_ :: t.name.token ::
    (TypeParameter.listTokens t.typeParameters ++
      (if t.bases.isEmpty then []
        else markToken .colon :: separated .comma (t.bases.map TypeSyntax.tokens)) ++
      [markToken .leftBrace])

/-- Every part of the class but its members can be written, and it has no parts but these. -/
@[mk_iff]
structure TypeDeclaration.Opens (t : TypeDeclaration) : Prop where
  attributes : ∀ s ∈ t.attributes, s.IsPrintable
  modifiers : t.modifiers.IsPrintable
  kind : t.kind = .class_
  name : t.name.IsPlain
  typeParameters : ∀ p ∈ t.typeParameters, p.IsPrintable
  parameters : t.parameters? = none
  bases : ∀ b ∈ t.bases, b.IsPlain
  constraints : t.constraints = []

mutual

/-- The tokens of a class. -/
def TypeDeclaration.tokens : TypeDeclaration → List Token
  | ⟨attributes, modifiers, kind, name, typeParameters, parameters?, bases, constraints, members,
      span⟩ =>
    TypeDeclaration.openTokens ⟨attributes, modifiers, kind, name, typeParameters, parameters?, bases, constraints,
      members, span⟩ ++ members.flatMap Member.tokens ++ [markToken .rightBrace]

/-- The tokens of a member, which is a method or a class. -/
def Member.tokens : Member → List Token
  | .method m => m.tokens
  | .type t => t.tokens
  | _ => []

end

mutual

/-- Every part of the class can be written, and its members are classes and methods. -/
def TypeDeclaration.IsPrintable : TypeDeclaration → Prop
  | ⟨attributes, modifiers, kind, name, typeParameters, parameters?, bases, constraints, members,
      span⟩ =>
    TypeDeclaration.Opens ⟨attributes, modifiers, kind, name, typeParameters, parameters?, bases, constraints,
      members, span⟩ ∧ ∀ m ∈ members, m.IsPrintable

/-- The member is a method or a class that can be written. -/
def Member.IsPrintable : Member → Prop
  | .method m => m.IsPrintable
  | .type t => t.IsPrintable
  | _ => False

end

/-! ## Namespaces and texts -/

/-- The tokens of a using directive. -/
def Using.tokens (u : Using) : List Token :=
  (if u.isGlobal then [wordToken .identifier "global"] else []) ++
    keywordToken .using_ ::
      ((if u.isStatic then [keywordToken .static] else []) ++
        (u.alias?.toList.flatMap fun a => [a.token, markToken .equal]) ++
          u.name.tokens ++ [markToken .semicolon])

/-- The names in the using directive can be written. -/
@[mk_iff]
structure Using.IsPrintable (u : Using) : Prop where
  shortName : ∀ a ∈ u.alias?, a.IsPlain
  name : u.name.IsPlain

mutual

/-- The tokens of a namespace. -/
def NamespaceDeclaration.tokens : NamespaceDeclaration → List Token
  | ⟨name, _, usings, members, _⟩ =>
    keywordToken .namespace_ :: (name.tokens ++ markToken .leftBrace ::
      (usings.flatMap Using.tokens ++ members.flatMap Declaration.tokens ++
        [markToken .rightBrace]))

/-- The tokens of a declaration, which is a namespace or a class. -/
def Declaration.tokens : Declaration → List Token
  | .namespace_ n => n.tokens
  | .type t => t.tokens
  | .delegate _ => []

end

mutual

/-- The namespace has braces around using directives, namespaces and classes that can be
    written. -/
def NamespaceDeclaration.IsPrintable : NamespaceDeclaration → Prop
  | ⟨name, isFileScoped, usings, members, _⟩ =>
    name.IsPlain ∧ isFileScoped = false ∧ (∀ u ∈ usings, u.IsPrintable) ∧
      ∀ d ∈ members, d.IsPrintable

/-- The declaration is a namespace or a class that can be written. -/
def Declaration.IsPrintable : Declaration → Prop
  | .namespace_ n => n.IsPrintable
  | .type t => t.IsPrintable
  | .delegate _ => False

end

/-- The tokens of a text. -/
def SourceUnit.tokens (u : SourceUnit) : List Token :=
  u.usings.flatMap Using.tokens ++ u.members.flatMap Declaration.tokens

/-- The text holds using directives, namespaces and classes that can be written, and nothing
    else. -/
@[mk_iff]
structure SourceUnit.IsPrintable (u : SourceUnit) : Prop where
  usings : ∀ d ∈ u.usings, d.IsPrintable
  attributes : u.attributes = []
  members : ∀ d ∈ u.members, d.IsPrintable

/-! ## Spelling -/

section
variable {α : Type} {f : α → List Token} {as : List α}

theorem isSpelt_flatMap (h : ∀ a ∈ as, ∀ t ∈ f a, t.IsSpelt) : ∀ t ∈ as.flatMap f, t.IsSpelt := by
  intro t ht
  obtain ⟨a, ha, ht⟩ := List.mem_flatMap.1 ht
  exact h a ha t ht

theorem isSpelt_separated {m : Punct} (h : ∀ a ∈ as, ∀ t ∈ f a, t.IsSpelt) :
    ∀ t ∈ separated m (as.map f), t.IsSpelt := by
  refine forall_mem_separated (markToken_isSpelt m) fun ts hts => ?_
  obtain ⟨a, ha, rfl⟩ := List.mem_map.1 hts
  exact h a ha

theorem isSpelt_parenthesized (h : ∀ a ∈ as, ∀ t ∈ f a, t.IsSpelt) :
    ∀ t ∈ parenthesized (as.map f), t.IsSpelt := by
  rw [parenthesized, List.forall_mem_cons, List.forall_mem_append, List.forall_mem_singleton]
  exact ⟨markToken_isSpelt _, isSpelt_separated h, markToken_isSpelt _⟩

end

theorem ExprSyntax.IsValue.isSpelt {e : ExprSyntax} (h : e.IsValue) :
    ∀ t ∈ tokensOf e.text, t.IsSpelt := by
  obtain ⟨t, ht, he, -⟩ := h
  rw [he, Spells.tokensOf_eq ht, List.forall_mem_singleton]
  exact ht

theorem AttributeArgument.IsPrintable.isSpelt {a : AttributeArgument} (h : a.IsPrintable) :
    ∀ t ∈ a.tokens, t.IsSpelt := by
  rw [AttributeArgument.tokens, List.forall_mem_append]
  refine ⟨isSpelt_flatMap fun i hi => ?_, isSpelt_flatMap fun e he => ?_⟩
  · rw [List.forall_mem_cons, List.forall_mem_singleton]
    exact ⟨(h.nameEquals i (Option.mem_toList.1 hi)).1.isSpelt, markToken_isSpelt _⟩
  · obtain ⟨e', he', hvalue⟩ := h.expression
    obtain rfl := Option.some_inj.1 (he'.symm.trans (Option.mem_toList.1 he))
    exact hvalue.isSpelt

theorem Attribute.IsPrintable.isSpelt {a : Attribute} (h : a.IsPrintable) :
    ∀ t ∈ a.tokens, t.IsSpelt := by
  rw [Attribute.tokens, List.forall_mem_append]
  refine ⟨h.name.1.isSpelt, isSpelt_flatMap fun list hl => isSpelt_parenthesized fun i hi => ?_⟩
  exact (h.arguments list (Option.mem_toList.1 hl) i hi).isSpelt

theorem AttributeSection.IsPrintable.isSpelt {s : AttributeSection} (h : s.IsPrintable) :
    ∀ t ∈ s.tokens, t.IsSpelt := by
  rw [AttributeSection.tokens, List.forall_mem_cons, List.forall_mem_append,
    List.forall_mem_singleton]
  exact ⟨markToken_isSpelt _, isSpelt_separated fun a ha => (h.attributes a ha).isSpelt,
    markToken_isSpelt _⟩

/-- A reserved word that modifies a declaration, or `partial`, is a word. -/
theorem isWord_of_modifier {w : String} (h : (wordKind w).isModifier = true ∨ w = "partial") :
    IsWord w (wordKind w) := by
  rcases h with h | rfl
  · unfold wordKind at h ⊢
    split at h
    · rename_i k hk
      exact Keyword.text_of_ofText? hk ▸ k.isWord
    · cases h
  · exact .of_hasWordChars (by decide +kernel)

theorem WrittenModifiers.IsPrintable.isSpelt {m : WrittenModifiers} (h : m.IsPrintable) :
    ∀ t ∈ m.tokens, t.IsSpelt := by
  intro t ht
  obtain ⟨w, hw, rfl⟩ := List.mem_map.1 ht
  exact wordToken_isSpelt (isWord_of_modifier (h.words w hw))

theorem isSpelt_head {attributes : List AttributeSection} {modifiers : WrittenModifiers}
    (ha : ∀ s ∈ attributes, s.IsPrintable) (hm : modifiers.IsPrintable) :
    ∀ t ∈ headTokens attributes modifiers, t.IsSpelt := by
  rw [headTokens, List.forall_mem_append]
  exact ⟨isSpelt_flatMap fun s hs => (ha s hs).isSpelt, hm.isSpelt⟩

theorem isSpelt_typeParameters {ps : List TypeParameter} (h : ∀ p ∈ ps, p.IsPrintable) :
    ∀ t ∈ TypeParameter.listTokens ps, t.IsSpelt := by
  refine forall_mem_argumentTokens markToken_isSpelt fun ts hts => ?_
  obtain ⟨p, hp, rfl⟩ := List.mem_map.1 hts
  rw [List.forall_mem_singleton]
  exact (h p hp).name.1.isSpelt

theorem Parameter.IsPrintable.isSpelt {p : Parameter} (h : p.IsPrintable) :
    ∀ t ∈ p.tokens, t.IsSpelt := by
  rw [Parameter.tokens, List.forall_mem_append, List.forall_mem_singleton]
  exact ⟨h.type.1.isSpelt, h.name.1.isSpelt⟩

theorem Body.isSpelt (b : Body) : ∀ t ∈ b.tokens, t.IsSpelt := by
  cases b <;> simp [Body.tokens, markToken_isSpelt]

theorem Method.IsPrintable.isSpelt {m : Method} (h : m.IsPrintable) : ∀ t ∈ m.tokens, t.IsSpelt := by
  simp only [Method.tokens, List.forall_mem_append, List.forall_mem_cons]
  exact ⟨⟨isSpelt_head h.attributes h.modifiers, h.returnType.1.isSpelt⟩, h.name.1.isSpelt,
    ⟨isSpelt_typeParameters h.typeParameters,
      isSpelt_parenthesized fun p hp => (h.parameters p hp).isSpelt⟩, m.body.isSpelt⟩

theorem TypeDeclaration.Opens.isSpelt {t : TypeDeclaration} (h : t.Opens) :
    ∀ u ∈ t.openTokens, u.IsSpelt := by
  simp only [TypeDeclaration.openTokens, List.forall_mem_append, List.forall_mem_cons]
  refine ⟨isSpelt_head h.attributes h.modifiers, keywordToken_isSpelt _, h.name.1.isSpelt,
    ⟨isSpelt_typeParameters h.typeParameters, ?_⟩, markToken_isSpelt _, by simp⟩
  split
  · simp
  · rw [List.forall_mem_cons]
    exact ⟨markToken_isSpelt _, isSpelt_separated fun b hb => (h.bases b hb).1.isSpelt⟩

mutual

theorem TypeDeclaration.IsPrintable.isSpelt : ∀ {t : TypeDeclaration}, t.IsPrintable →
    ∀ u ∈ t.tokens, u.IsSpelt
  | ⟨attributes, modifiers, kind, name, typeParameters, parameters?, bases, constraints, members,
      span⟩, h => by
    rw [TypeDeclaration.IsPrintable] at h
    simp only [TypeDeclaration.tokens, List.forall_mem_append, List.forall_mem_singleton]
    exact ⟨⟨h.1.isSpelt, isSpelt_flatMap fun m hm => (h.2 m hm).isSpelt⟩, markToken_isSpelt _⟩

theorem Member.IsPrintable.isSpelt : ∀ {m : Member}, m.IsPrintable → ∀ u ∈ m.tokens, u.IsSpelt
  | .method m, h => by
    rw [Member.IsPrintable] at h
    rw [Member.tokens]
    exact h.isSpelt
  | .type t, h => by
    rw [Member.IsPrintable] at h
    rw [Member.tokens]
    exact h.isSpelt
  | .constructor _, h | .field _, h | .property _, h | .event _, h | .enumMember _, h
  | .delegate _, h | .special _, h => by simp [Member.IsPrintable] at h

end

theorem Using.IsPrintable.isSpelt {u : Using} (h : u.IsPrintable) : ∀ t ∈ u.tokens, t.IsSpelt := by
  have hglobal : (wordToken .identifier "global").IsSpelt :=
    wordToken_isSpelt (.of_isName (by decide +kernel))
  simp only [Using.tokens, List.forall_mem_append, List.forall_mem_cons]
  refine ⟨?_, keywordToken_isSpelt _, ⟨⟨?_, ?_⟩, h.name.1.isSpelt⟩, markToken_isSpelt _, by simp⟩
  · split <;> simp [hglobal]
  · split <;> simp [keywordToken_isSpelt]
  · refine isSpelt_flatMap fun a ha => ?_
    rw [List.forall_mem_cons, List.forall_mem_singleton]
    exact ⟨(h.shortName a (Option.mem_toList.1 ha)).1.isSpelt, markToken_isSpelt _⟩

mutual

theorem NamespaceDeclaration.IsPrintable.isSpelt : ∀ {n : NamespaceDeclaration}, n.IsPrintable →
    ∀ t ∈ n.tokens, t.IsSpelt
  | ⟨name, isFileScoped, usings, members, span⟩, h => by
    rw [NamespaceDeclaration.IsPrintable] at h
    simp only [NamespaceDeclaration.tokens, List.forall_mem_append, List.forall_mem_cons]
    exact ⟨keywordToken_isSpelt _, h.1.1.isSpelt, markToken_isSpelt _,
      ⟨isSpelt_flatMap fun u hu => (h.2.2.1 u hu).isSpelt,
        isSpelt_flatMap fun d hd => (h.2.2.2 d hd).isSpelt⟩, markToken_isSpelt _, by simp⟩

theorem Declaration.IsPrintable.isSpelt : ∀ {d : Declaration}, d.IsPrintable →
    ∀ t ∈ d.tokens, t.IsSpelt
  | .namespace_ n, h => by
    rw [Declaration.IsPrintable] at h
    rw [Declaration.tokens]
    exact h.isSpelt
  | .type t, h => by
    rw [Declaration.IsPrintable] at h
    rw [Declaration.tokens]
    exact h.isSpelt
  | .delegate _, h => by simp [Declaration.IsPrintable] at h

end

theorem SourceUnit.IsPrintable.isSpelt {u : SourceUnit} (h : u.IsPrintable) :
    ∀ t ∈ u.tokens, t.IsSpelt := by
  rw [SourceUnit.tokens, List.forall_mem_append]
  exact ⟨isSpelt_flatMap fun d hd => (h.usings d hd).isSpelt,
    isSpelt_flatMap fun d hd => (h.members d hd).isSpelt⟩

end CommandModules

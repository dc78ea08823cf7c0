/-
  Command modules — what is known of declarations that were read without an error.

  * `AttributeArgument.IsWritten`, `Method.IsWritten`: the expressions of attributes and
    the types of parameters spell the tokens that they were read from;
  * `TypeDeclaration.IsWritten`: the name of a type and those of its type parameters are
    words, and the modifiers of a class are read from tokens before the word `class`;
  * `Member.IsWritten`: all this holds of a member and of what is inside it.
-/
import CommandModules.Proofs.Taken.Modifier

namespace CommandModules

open ParserState

/-! ## What is known -/

/-- The expression of the argument spells tokens, which keep braces open. -/
def AttributeArgument.IsWritten (a : AttributeArgument) : Prop :=
  ∀ e, a.expression? = some e → ∃ ts, e.Written ts

/-- The arguments of the attribute are written. -/
def Attribute.IsWritten (a : Attribute) : Prop :=
  ∀ x ∈ a.arguments, x.IsWritten

/-- The attributes of the section are written. -/
def AttributeSection.IsWritten (s : AttributeSection) : Prop :=
  ∀ a ∈ s.attributes, a.IsWritten

/-- The attributes of the method and the types of its parameters are written. -/
structure Method.IsWritten (m : Method) : Prop where
  attributes : ∀ s ∈ m.attributes, s.IsWritten
  parameters : ∀ p ∈ m.parameters, ∃ ts, p.type.Written ts

/-- The names of the type and of its parameters are words; if it is a class, then its
    modifiers are read from tokens before the word. -/
structure TypeDeclaration.IsWritten (t : TypeDeclaration) : Prop where
  modifiers : t.kind = .class_ → ∃ ts u, u.kind = .keyword .class_ ∧ t.modifiers.Written ts u
  name : IsWord t.name.name .identifier
  typeParameters : ∀ p ∈ t.typeParameters, IsWord p.name.name .identifier

/-- The member is written, and so are the members inside it. -/
inductive Member.IsWritten : Member → Prop
  | type {t : TypeDeclaration} : t.IsWritten → (∀ m ∈ t.members, m.IsWritten) →
      IsWritten (.type t)
  | method {m : Method} : m.IsWritten → IsWritten (.method m)
  | other {m : Member} : (∀ t, m ≠ .type t) → (∀ x, m ≠ .method x) → IsWritten m

/-- Nothing is declared in the member, and it is no method. -/
structure Member.IsLeaf (m : Member) : Prop where
  not_type : ∀ t, m ≠ .type t
  not_delegate : ∀ d, m ≠ .delegate d
  not_method : ∀ x, m ≠ .method x

theorem Member.IsLeaf.isWritten {m : Member} (h : m.IsLeaf) : m.IsWritten :=
  .other h.not_type h.not_method

/-- The methods of a type that is written are written. -/
theorem Member.IsWritten.methods {t : TypeDeclaration} (h : (Member.type t).IsWritten) :
    t.IsWritten ∧ ∀ m ∈ t.methods, m.IsWritten := by
  cases h with
  | type ht hm =>
    refine ⟨ht, fun m hmem => ?_⟩
    obtain ⟨x, hx, heq⟩ := List.mem_filterMap.1 hmem
    cases x <;> cases heq
    cases hm _ hx with
    | method h => exact h
    | other _ h => exact absurd rfl (h m)
  | other h => exact absurd rfl (h t)

namespace Parser

variable {α : Type} {source : List Char} {s : ParserState}

/-! ## Errors that are recorded -/

section
variable {p : Parser α} {Q : α → Prop} {R : α → Nat → Prop}

/-- If no error is recorded, then `p` has succeeded. -/
theorem orReport_succeeds {Q : α → List Token → ParserState → Prop} (hs : Parser.Safe source s p R)
    (h : Parser.Gives source s p Q) : Reader.Gives source s (orReport p) fun a? ts s' =>
      ∃ a, a? = some a ∧ Q a ts s' := by
  refine Reader.Gives.bind_safe hs h fun r ts _ _ hr => ?_
  cases r with
  | ok a => exact .pure fun ha => ⟨a, rfl, by rwa [List.append_nil]⟩
  | error e =>
    exact (Reader.Gives.of_safe (report_safe hr)).bind_run fun _ _ => .of_errors
      (Reader.Safe.pure (R := fun _ _ => True) ⟨⟩) (List.append_ne_nil_of_right_ne_nil _ (by simp))

theorem orReport_gives (hs : Parser.Safe source s p R)
    (h : Parser.Gives source s p fun a _ _ => Q a) :
    Reader.Gives source s (orReport p) fun a? _ _ => ∀ a, a? = some a → Q a :=
  (orReport_succeeds hs h).mono fun _ _ _ ⟨_, heq, ha⟩ _ hb => Option.some_inj.1 (heq ▸ hb) ▸ ha

/-- If no error is recorded, then `p` has succeeded. -/
theorem orRecover_succeeds {Q : α → List Token → ParserState → Prop}
    (hs : Parser.Safe source s p R) (h : Parser.Gives source s p Q) :
    Reader.Gives source s (orRecover p) fun a? ts s' => ∃ a, a? = some a ∧ Q a ts s' := by
  refine Reader.Gives.bind_safe hs h fun r ts _ _ hr => ?_
  cases r with
  | ok a => exact .pure fun ha => ⟨a, rfl, by rwa [List.append_nil]⟩
  | error e =>
    have rest (s : ParserState) : Reader.Safe source s (do synchronize; return (none : Option α))
        fun _ _ => True := synchronize_safe.bind fun _ _ _ _ _ => .pure ⟨⟩
    exact (Reader.Gives.of_safe (report_safe hr)).bind_run fun _ _ => .of_errors (rest _)
      (List.append_ne_nil_of_right_ne_nil _ (by simp))

theorem orRecover_gives {Q : α → List Token → ParserState → Prop} (hs : Parser.Safe source s p R)
    (h : Parser.Gives source s p Q) :
    Reader.Gives source s (orRecover p) fun a? ts s' => ∀ a, a? = some a → Q a ts s' :=
  (orRecover_succeeds hs h).mono fun _ _ _ ⟨_, heq, ha⟩ _ hb => Option.some_inj.1 (heq ▸ hb) ▸ ha

end

/-! ## Attributes -/

theorem attributeArgument_gives : Reader.Gives source s attributeArgument fun a _ _ =>
    a.IsWritten := by
  refine .get fun _ _ => .pass argumentName?_safe fun _ _ _ _ => ?_
  refine .join (R := fun _ _ _ => True) (fun _ => .pure ⟨⟩)
    (fun _ => (Reader.Gives.of_safe argumentName?_safe).mono fun _ _ _ _ => ⟨⟩) fun _ _ _ _ => ?_
  refine (orReport_gives expression_safe (Q := fun e => ∃ ts, e.Written ts)
    (expression_gives.mono fun _ ts _ he => ⟨ts, he⟩)).bind fun _ _ _ _ => ?_
  exact .get fun _ _ => .pure fun h _ => h

theorem itemAndComma_gives {item : Parser α} {Q : α → Prop} {as : List α}
    (h : Parser.Gives source s item fun a _ _ => Q a) :
    Parser.Gives source s (itemAndComma item as) fun r ts s' => (∀ a ∈ as, Q a) →
      r.Leads (fun as _ _ => ∀ a ∈ as, Q a) (fun as _ _ => ∀ a ∈ as, Q a) ts s' := by
  refine h.bind fun a _ _ _ => .passReader eatMark_safe fun b _ _ _ => ?_
  split <;> exact .pure fun ha has => List.forall_mem_append.2 ⟨has, by simpa using ha⟩

theorem commaSeparated_all {item : Parser α} {Q : α → Prop} {T : α → Nat → Prop}
    (hs : ∀ k s', Moves k s s' → Parser.Safe source s' item T)
    (h : ∀ ts s', Takes ts s s' → Parser.Gives source s' item fun a _ _ => Q a) :
    Parser.Gives source s (commaSeparated item) fun as _ _ => ∀ a ∈ as, Q a :=
  .loop (I := fun as _ _ => ∀ a ∈ as, Q a) (fun _ k s' hk => itemAndComma_safe (hs k s' hk))
    (by simp) fun _ ts s' ht => (itemAndComma_gives (h ts s' ht)).mono fun r _ _ hr has => by
      cases r <;> exact hr has

theorem attributeArguments_gives : Parser.Gives source s attributeArguments fun a _ _ =>
    ∀ x ∈ a.items, x.IsWritten := by
  refine .get fun _ _ => .pass expectMark_safe.discard fun _ _ _ _ => .get fun _ _ => ?_
  refine .join (R := fun as _ _ => ∀ x ∈ as, x.IsWritten) (fun _ => .pure (by simp)) (fun _ => ?_)
    fun _ _ _ _ => .pass expectMark_safe.discard fun _ _ _ _ => .get fun _ _ => .pure fun h => h
  exact commaSeparated_all (fun _ _ _ => .lift attributeArgument_safe)
    fun _ _ _ => .lift attributeArgument_gives

theorem attribute_gives : Parser.Gives source s attribute_ fun a _ _ => a.IsWritten := by
  refine .get fun _ _ => .pass name_safe fun _ _ _ _ => .get fun _ _ => ?_
  refine .join (R := fun a? _ _ => ∀ a, a? = some a → ∀ x ∈ a.items, x.IsWritten)
    (fun _ => .map (attributeArguments_gives.mono ?_)) (fun _ => .pure nofun)
    fun a? _ _ _ => .get fun _ _ => .pure fun h => ?_
  · intro a _ _ ha b hb
    exact Option.some_inj.1 hb ▸ ha
  · cases a? with
    | none => simp [Attribute.IsWritten, Attribute.arguments]
    | some a => exact h a rfl

theorem attributeAndComma_gives {as : List Attribute} :
    Parser.Gives source s (attributeAndComma as) fun r ts s' => (∀ a ∈ as, a.IsWritten) →
      r.Leads (fun as _ _ => ∀ a ∈ as, a.IsWritten) (fun as _ _ => ∀ a ∈ as, a.IsWritten) ts s' := by
  refine .get fun _ _ => ?_
  split
  · exact .pure fun h => h
  · exact itemAndComma_gives attribute_gives

theorem attributeSection_gives : Parser.Gives source s attributeSection fun a _ _ =>
    a.IsWritten := by
  refine .get fun _ _ => .pass expectMark_safe.discard fun _ _ _ _ => ?_
  refine .pass attributeTarget?_safe fun _ _ _ _ => ?_
  refine Parser.Gives.bind (R := fun (as : List Attribute) _ _ => ∀ a ∈ as, a.IsWritten)
    (.loop (I := fun as _ _ => ∀ a ∈ as, a.IsWritten) (fun _ _ _ _ => attributeAndComma_safe)
      (by simp) fun as ts s' _ => ?_)
    fun _ _ _ _ => .pass expectMark_safe.discard fun _ _ _ _ => .get fun _ _ => .pure fun h => h
  exact attributeAndComma_gives.mono fun r _ _ hr has => by cases r <;> exact hr has

theorem attributeSections_gives : Parser.Gives source s attributeSections fun as _ _ =>
    ∀ a ∈ as, a.IsWritten :=
  whileAt_gives (fun _ _ _ _ _ => attributeSection_safe.mono fun _ _ h => h.2)
    fun _ _ _ => attributeSection_gives

/-- The attributes of a declaration are written, and its modifiers are read from tokens
    before the one that comes next. -/
theorem head_gives : Parser.Gives source s head fun h _ s' =>
    (∀ a ∈ h.attributes, a.IsWritten) ∧ ∃ ts, h.modifiers.Written ts s'.peek := by
  refine .get fun _ _ => attributeSections_gives.bind fun _ _ _ _ => ?_
  refine .andThen modifiers_gives fun _ ts _ _ => .pure fun hm ha => ⟨ha, ts, hm⟩

/-! ## Parameters -/

theorem typeParameter_gives : Parser.Gives source s typeParameter fun p _ _ =>
    IsWord p.name.name .identifier := by
  refine .get fun _ _ => .pass attributeSections_safe fun _ _ _ _ => .get fun _ _ => ?_
  refine .join (R := fun _ _ _ => True)
    (fun _ => .map (.lift ((Reader.Gives.of_safe word_safe).mono fun _ _ _ _ => ⟨⟩)))
    (fun _ => .pure ⟨⟩) fun _ _ _ _ => ?_
  exact ident_gives.bind fun _ _ _ _ => .get fun _ _ => .pure fun hi _ => hi.1

theorem typeParameters_gives : Parser.Gives source s typeParameters fun ps _ _ =>
    ∀ p ∈ ps, IsWord p.name.name .identifier := by
  refine .passReader eatMark_safe fun _ _ _ _ => ?_
  split
  · refine (commaSeparated_all (fun _ _ _ => typeParameter_safe)
      fun _ _ _ => typeParameter_gives).bind fun _ _ _ _ => ?_
    exact .pass expectMark_safe.discard fun _ _ _ _ => .pure fun h => h
  · exact .pure (by simp)

theorem parameter_gives : Parser.Gives source s parameter fun p _ _ => ∃ ts, p.type.Written ts := by
  refine .get fun _ _ => .pass attributeSections_safe fun _ _ _ _ => ?_
  refine .pass parameterModifiers_safe fun _ _ _ _ => type_gives.bind fun _ ts _ _ => ?_
  refine .pass ident_safe fun _ _ _ _ => .pass initializer?_safe fun _ _ _ _ => ?_
  exact .get fun _ _ => .pure fun ht => ⟨ts, ht⟩

theorem parameters_gives : Parser.Gives source s parameters fun ps _ _ =>
    ∀ p ∈ ps, ∃ ts, p.type.Written ts := by
  refine .get fun _ _ => ?_
  split
  · refine .pass (Parser.Safe.lift advance_passes).discard fun _ _ _ _ => .get fun _ _ => ?_
    refine .join (R := fun (ps : List Parameter) _ _ => ∀ p ∈ ps, ∃ ts, p.type.Written ts)
      (fun _ => .pure (by simp)) (fun _ => ?_)
      fun _ _ _ _ => .pass expectMark_safe.discard fun _ _ _ _ => .pure fun h => h
    exact commaSeparated_all (fun _ _ _ => parameter_safe) fun _ _ _ => parameter_gives
  · exact failAt_gives

/-! ## Members -/

section
variable {head : Head}

theorem method_gives {returnType : TypeSyntax} {explicitInterface? : Option Name} {name : Ident} :
    Parser.Gives source s (method head returnType explicitInterface? name) fun m _ _ =>
      (∀ a ∈ head.attributes, a.IsWritten) → m.IsWritten :=
  .pass typeParameters_safe fun _ _ _ _ => parameters_gives.bind fun _ _ _ _ =>
    .pass constraintClauses_safe fun _ _ _ _ => .pass body_safe fun _ _ _ _ =>
      .get fun _ _ => .pure fun hp ha => .method ⟨ha, hp⟩

theorem specialFrom_returns {kind : SpecialKind} {parameters : List Parameter} :
    Parser.Returns (specialFrom head kind parameters) Member.IsLeaf :=
  .bind fun _ => .pure ⟨nofun, nofun, nofun⟩

theorem special_returns {kind : SpecialKind} :
    Parser.Returns (special head kind) Member.IsLeaf :=
  .bind fun _ => .bind fun _ => specialFrom_returns

theorem destructor_returns : Parser.Returns (destructor head) Member.IsLeaf :=
  .bind fun _ => .bind fun _ => special_returns

theorem conversionOperator_returns : Parser.Returns (conversionOperator head) Member.IsLeaf :=
  .bind fun _ => .bind fun _ => .bind fun _ => special_returns

theorem operator_returns : Parser.Returns (operator head) Member.IsLeaf :=
  .bind fun _ => .bind fun _ => special_returns

theorem indexer_returns : Parser.Returns (indexer head) Member.IsLeaf :=
  .bind fun _ => .bind fun _ => .bind fun _ => specialFrom_returns

theorem event_returns : Parser.Returns (event head) Member.IsLeaf := by
  refine .bind fun _ => .bind fun _ => .bind fun _ => .bind fun _ => ?_
  dsimp only
  split <;>
    exact .bind fun _ => .bind fun _ => .bind fun _ => .pure ⟨nofun, nofun, nofun⟩

theorem constructor_returns : Parser.Returns (constructor head) Member.IsLeaf := by
  refine .bind fun _ => .bind fun _ => .bind fun _ => ?_
  dsimp only
  split <;>
    exact .bind fun _ => .bind fun _ => .bind fun _ => .pure ⟨nofun, nofun, nofun⟩

theorem property_returns {type : TypeSyntax} {explicitInterface? : Option Name} {name : Ident} :
    Parser.Returns (property head type explicitInterface? name) Member.IsLeaf := by
  refine .bind fun _ => ?_
  dsimp only
  split
  · refine .bind fun _ => ?_
    split <;> exact .bind fun _ => .bind fun _ => .pure ⟨nofun, nofun, nofun⟩
  · exact .bind fun _ => .bind fun _ => .pure ⟨nofun, nofun, nofun⟩

theorem field_returns {type : TypeSyntax} {name : Ident} :
    Parser.Returns (field head type name) Member.IsLeaf :=
  .bind fun _ => .bind fun _ => .pure ⟨nofun, nofun, nofun⟩

theorem typedMember_gives {type : TypeSyntax} :
    Parser.Gives source s (typedMember head type) fun m _ _ =>
      (∀ a ∈ head.attributes, a.IsWritten) → m.IsWritten := by
  have other {p : Parser Member} {R : Member → Nat → Prop} {s : ParserState}
      (hs : Parser.Safe source s p R) (h : Parser.Returns p Member.IsLeaf) :
      Parser.Gives source s p fun m _ _ => (∀ a ∈ head.attributes, a.IsWritten) → m.IsWritten :=
    (h.gives hs).mono fun _ _ _ hm _ => hm.isWritten
  refine .passReader eatWord_safe fun _ _ _ _ => ?_
  split
  · exact other operator_safe operator_returns
  refine .get fun _ _ => ?_
  split
  · exact other indexer_safe indexer_returns
  refine .pass memberName_safe fun _ _ _ _ => .get fun _ _ => ?_
  split
  · exact method_gives
  split
  · exact other property_safe property_returns
  split
  · exact other field_safe field_returns
  · exact failAt_gives

/-- A member behind its head that is not a type. -/
theorem memberAfter_gives : Parser.Gives source s (memberAfter head) fun m _ _ =>
    (∀ a ∈ head.attributes, a.IsWritten) → m.IsWritten := by
  have other {p : Parser Member} {R : Member → Nat → Prop} {s : ParserState}
      (hs : Parser.Safe source s p R) (h : Parser.Returns p Member.IsLeaf) :
      Parser.Gives source s p fun m _ _ => (∀ a ∈ head.attributes, a.IsWritten) → m.IsWritten :=
    (h.gives hs).mono fun _ _ _ hm _ => hm.isWritten
  refine .get fun _ _ => ?_
  split
  case h_1 =>
    exact .pass delegate_safe fun _ _ _ _ => .pure fun _ => .other nofun nofun
  case h_2 => exact other destructor_safe destructor_returns
  case h_3 => exact other event_safe event_returns
  case h_4 | h_5 => exact other conversionOperator_safe conversionOperator_returns
  case h_6 =>
    split
    · exact other constructor_safe constructor_returns
    · exact .pass type_safe fun _ _ _ _ => typedMember_gives
  case h_7 => exact .pass type_safe fun _ _ _ _ => typedMember_gives

end

end Parser

end CommandModules

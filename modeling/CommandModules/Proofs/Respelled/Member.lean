/-
  Command modules — members that are read abreast.

  * `Attribute.Respells`, `Method.Respells`: names, arguments and types of parameters are
    written with the same tokens;
  * `TypeDeclaration.Respells`: two declarations of a type differ in places, and their bases
    and members are written with the same tokens; `Member.Respells` says so of members, as far
    as something is declared in them or they are methods;
  * `memberAfter_abreast`: so it is with members that are read abreast.
-/
import CommandModules.Proofs.Respelled.Type
import CommandModules.Proofs.Taken.Member

namespace CommandModules

open ParserState

/-! ## Members that are written with the same tokens -/

/-- The expressions are written with the same tokens. -/
def AttributeArgument.Respells (a b : AttributeArgument) : Prop :=
  Option.Rel (fun e e' => SpellAlike e.text e'.text) a.expression? b.expression?

/-- The names and the arguments are written with the same tokens. -/
structure Attribute.Respells (a b : Attribute) : Prop where
  name : SpellAlike a.name.text b.name.text
  arguments : List.Forall₂ AttributeArgument.Respells a.arguments b.arguments

/-- The attributes are written with the same tokens. -/
def AttributeSection.Respells (s t : AttributeSection) : Prop :=
  List.Forall₂ Attribute.Respells s.attributes t.attributes

/-- The methods differ in places, and their attributes and the types of their parameters are
    written with the same tokens. -/
structure Method.Respells (m n : Method) : Prop where
  erase_eq : erase m = erase n
  attributes : List.Forall₂ AttributeSection.Respells m.attributes n.attributes
  parameters : List.Forall₂ (fun p q => SpellAlike p.type.text q.type.text) m.parameters n.parameters

mutual

/-- The declarations differ in places, and their bases and members are written with the same
    tokens. -/
inductive TypeDeclaration.Respells : TypeDeclaration → TypeDeclaration → Prop
  | intro {t u : TypeDeclaration} : Erase.erase t = Erase.erase u →
      List.Forall₂ TypeSyntax.Respells t.bases u.bases → Member.AllRespell t.members u.members →
      TypeDeclaration.Respells t u

/-- The members are written with the same tokens, if something is declared in them or they are
    methods. -/
inductive Member.Respells : Member → Member → Prop
  | type {t u : TypeDeclaration} : t.Respells u → Member.Respells (.type t) (.type u)
  | method {m n : Method} : m.Respells n → Member.Respells (.method m) (.method n)
  | delegate {d e : Delegate} : Erase.erase d = Erase.erase e → Member.Respells (.delegate d) (.delegate e)
  | leaf {m n : Member} : m.IsLeaf → n.IsLeaf → Member.Respells m n

/-- The members are written with the same tokens, one by one. -/
inductive Member.AllRespell : List Member → List Member → Prop
  | nil : Member.AllRespell [] []
  | cons {m n : Member} {ms ns : List Member} : m.Respells n → Member.AllRespell ms ns →
      Member.AllRespell (m :: ms) (n :: ns)

end

/-! ## Every member is written like itself -/

theorem AttributeArgument.Respells.refl (a : AttributeArgument) : a.Respells a := by
  rw [Respells]
  cases a.expression? with
  | none => exact .none
  | some e => exact .some (.refl e.text)

theorem AttributeSection.Respells.refl (s : AttributeSection) : s.Respells s :=
  List.forall₂_same.2 fun _ _ => ⟨.refl _, List.forall₂_same.2 fun _ _ => .refl _⟩

theorem Method.Respells.refl (m : Method) : m.Respells m :=
  ⟨rfl, List.forall₂_same.2 fun _ _ => .refl _, List.forall₂_same.2 fun _ _ => .refl _⟩

mutual

theorem TypeDeclaration.Respells.refl : ∀ t : TypeDeclaration, t.Respells t
  | ⟨_, _, _, _, _, _, _, _, members, _⟩ =>
    .intro rfl (List.forall₂_same.2 fun _ _ => .refl _) (Member.AllRespell.refl members)

theorem Member.Respells.refl : ∀ m : Member, m.Respells m
  | .type t => .type (.refl t)
  | .method m => .method (.refl m)
  | .delegate _ => .delegate rfl
  | .constructor _ | .field _ | .property _ | .event _ | .enumMember _ | .special _ =>
    .leaf (by constructor <;> simp) (by constructor <;> simp)

theorem Member.AllRespell.refl : ∀ ms : List Member, Member.AllRespell ms ms
  | [] => .nil
  | m :: ms => .cons (.refl m) (.refl ms)

end

theorem Member.allRespell_iff {ms ns : List Member} :
    Member.AllRespell ms ns ↔ List.Forall₂ Member.Respells ms ns := by
  constructor
  · intro h
    induction ms generalizing ns with
    | nil => cases h; exact .nil
    | cons m ms ih => cases h with | cons hm hms => exact .cons hm (ih hms)
  · intro h
    induction h with
    | nil => exact .nil
    | cons hm _ ih => exact .cons hm ih

namespace Parser

/-! ## Attributes -/

theorem attributeArgument_abreast :
    Reader.Abreast attributeArgument attributeArgument AttributeArgument.Respells := by
  refine .get fun s t _ => .skip (argumentName?_alike _) (fun _ _ => argumentName?_safe)
    fun a? b? hab => ?_
  refine .join (R := fun _ _ => True) ?_ (.pure rfl ⟨⟩)
    (.of_safe (argumentName?_alike _) (fun _ _ => argumentName?_safe)
      fun _ _ => argumentName?_safe) fun _ _ _ => ?_
  · rw [← isSome_erase a?, hab, isSome_erase]
  · exact (orReport_abreast (expression_abreast _)).bind fun _ _ _ => .get fun _ _ _ =>
      .pure (by simp [*]) fun he _ => he

theorem attributeArguments_abreast : Parser.Abreast attributeArguments attributeArguments fun a b =>
    List.Forall₂ AttributeArgument.Respells a.items b.items := by
  refine .get fun _ _ _ => .skip (expectMark_alike _).discard (fun _ _ => expectMark_safe.discard)
    fun _ _ _ => .get fun s t h => ?_
  refine .join ?_ (.pure rfl .nil) (commaSeparated_abreast (.lift attributeArgument_abreast))
    fun _ _ _ => ?_
  · rw [h.alike.isAtMark]
  · exact .skip (expectMark_alike _).discard (fun _ _ => expectMark_safe.discard)
      fun _ _ _ => .get fun _ _ _ => .pure (by simp [*]) fun hR => hR

theorem attribute_abreast : Parser.Abreast attribute_ attribute_ Attribute.Respells := by
  refine .get fun _ _ _ => name_abreast.bind fun _ _ _ => .get fun s t h => ?_
  refine .join (R := Option.Rel fun a b => List.Forall₂ AttributeArgument.Respells a.items b.items) ?_
    (attributeArguments_abreast.map (fun _ _ h => by rw [erase_some, erase_some, h]) fun _ _ h => .some h)
    (.pure rfl .none) fun a? b? _ => .get fun _ _ _ => .pure (by simp [*]) fun hargs hname => ?_
  · rw [h.alike.isAtMark]
  · refine ⟨hname, ?_⟩
    cases hargs with
    | none => exact .nil
    | some h => exact h

theorem attributeAndComma_abreast {as bs : List Attribute} (h : erase as = erase bs) :
    Parser.Abreast (attributeAndComma as) (attributeAndComma bs) fun r r' =>
      List.Forall₂ Attribute.Respells as bs →
        Round.Rel (List.Forall₂ Attribute.Respells) (List.Forall₂ Attribute.Respells) r r' := by
  refine .get fun s t hs => .ite ?_ (.pure (by simp [*]) fun has => has)
    (itemAndComma_abreast attribute_abreast h)
  rw [hs.alike.isAtMark]

theorem attributeSection_abreast :
    Parser.Abreast attributeSection attributeSection AttributeSection.Respells :=
  .get fun _ _ _ => .skip (expectMark_alike _).discard (fun _ _ => expectMark_safe.discard)
    fun _ _ _ => .skip attributeTarget?_alike (fun _ _ => attributeTarget?_safe)
      fun _ _ _ => (loopOrFail_abreast (I := List.Forall₂ Attribute.Respells)
        (fun _ _ => attributeAndComma_abreast) .nil).bind
        fun _ _ _ => .skip (expectMark_alike _).discard (fun _ _ => expectMark_safe.discard)
          fun _ _ _ => .get fun _ _ _ => .pure (by simp [*]) fun hR => hR

theorem attributeSections_abreast : Parser.Abreast attributeSections attributeSections
    (List.Forall₂ AttributeSection.Respells) :=
  whileAt_abreast (fun _ _ h => h.isAtMark _) attributeSection_abreast

theorem head_abreast : Parser.Abreast head head fun h h' =>
    List.Forall₂ AttributeSection.Respells h.attributes h'.attributes :=
  .get fun _ _ _ => attributeSections_abreast.bind fun _ _ _ =>
    .skipReader modifiers_alike (fun _ _ => modifiers_safe) fun _ _ _ => .pure (by simp [*]) fun hR => hR

/-! ## Parameters -/

theorem parameter_abreast : Parser.Abreast parameter parameter fun p q =>
    SpellAlike p.type.text q.type.text :=
  .get fun _ _ _ => .skip attributeSections_alike (fun _ _ => attributeSections_safe)
    fun _ _ _ => .skip parameterModifiers_alike (fun _ _ => parameterModifiers_safe)
      fun _ _ _ => type_abreast.bind
        fun _ _ _ => .skip ident_alike (fun _ _ => ident_safe)
          fun _ _ _ => .skip initializer?_alike (fun _ _ => initializer?_safe)
            fun _ _ _ => .get fun _ _ _ => .pure (by simp only [erase_parameter, *]) fun hR => hR.text

theorem parameters_abreast : Parser.Abreast parameters parameters
    (List.Forall₂ fun p q => SpellAlike p.type.text q.type.text) := by
  refine .get fun s t h => .ite ?_ ?_ (failAt_abreast _ _)
  · rw [h.alike.isAtMark]
  · refine .skip (Parser.Alike.lift advance_alike).discard
      (fun _ _ => (Parser.Safe.lift advance_passes).discard) fun _ _ _ => .get fun s' t' h' => ?_
    refine .join ?_ (.pure rfl .nil) (commaSeparated_abreast parameter_abreast) fun _ _ _ => ?_
    · rw [h'.alike.isAtMark]
    · exact .skip (expectMark_alike _).discard (fun _ _ => expectMark_safe.discard)
        fun _ _ _ => .pure (by simp [*]) fun hR => hR

/-! ## Members -/

section
variable {head head' : Head} (h : erase head = erase head')

/-- Members in which nothing is declared and which are no methods. -/
theorem leaf_abreast {p q : Parser Member} {P Q : List Char → ParserState → Member → Nat → Prop}
    (h : Parser.Alike p q) (hp : ∀ source s, Parser.Safe source s p (P source s))
    (hq : ∀ source s, Parser.Safe source s q (Q source s)) (hl : Parser.Returns p Member.IsLeaf)
    (hl' : Parser.Returns q Member.IsLeaf) : Parser.Abreast p q fun m n =>
      List.Forall₂ AttributeSection.Respells head.attributes head'.attributes → m.Respells n := by
  refine (Parser.Abreast.of_gives h (fun source s => hl.gives (hp source s))
    fun source s => hl'.gives (hq source s)).mono fun m n hmn _ => ?_
  obtain ⟨_, _, -, hm, hn⟩ := hmn
  exact .leaf hm hn

include h

theorem method_abreast {type type' : TypeSyntax} (htype : erase type = erase type')
    {interface? interface?' : Option Name} (hinterface : erase interface? = erase interface?')
    {name name' : Ident} (hname : erase name = erase name') :
    Parser.Abreast (method head type interface? name) (method head' type' interface?' name')
      fun m n => List.Forall₂ AttributeSection.Respells head.attributes head'.attributes →
        m.Respells n :=
  .skip typeParameters_alike (fun _ _ => typeParameters_safe) fun _ _ _ => parameters_abreast.bind
    fun _ _ _ => .skip constraintClauses_alike (fun _ _ => constraintClauses_safe)
      fun _ _ _ => .skip body_alike (fun _ _ => body_safe) fun _ _ _ => .get fun _ _ _ => by
        have hattributes := Head.attributes_eq h
        have hmodifiers := Head.modifiers_eq h
        refine .pure (by simp only [erase_memberMethod, erase_method, *]) fun hparameters hhead => ?_
        exact .method ⟨by simp only [erase_method, *], hhead, hparameters⟩

theorem typedMember_abreast {type type' : TypeSyntax} (htype : erase type = erase type') :
    Parser.Abreast (typedMember head type) (typedMember head' type') fun m n =>
      List.Forall₂ AttributeSection.Respells head.attributes head'.attributes → m.Respells n := by
  refine .skipReader (eatWord_alike _) (fun _ _ => eatWord_safe) fun b b' hb => .ite ?_
    (leaf_abreast (operator_alike h) (fun _ _ => operator_safe) (fun _ _ => operator_safe)
      operator_returns operator_returns) <| .get fun s t hs => .ite ?_
    (leaf_abreast (indexer_alike h) (fun _ _ => indexer_safe) (fun _ _ => indexer_safe)
      indexer_returns indexer_returns) ?_
  · obtain rfl : b = b' := hb
    rfl
  · rw [hs.alike.isAt]
  refine .skip memberName_alike (fun _ _ => memberName_safe) fun x x' hx => .get fun s t hs => ?_
  obtain ⟨hinterface, hname⟩ := Prod.mk.inj hx
  refine .ite ?_ (method_abreast h htype hinterface hname) <| .ite ?_
    (leaf_abreast (property_alike h htype hinterface hname) (fun _ _ => property_safe)
      (fun _ _ => property_safe) property_returns property_returns) <| .ite ?_
    (leaf_abreast (field_alike h htype hname) (fun _ _ => field_safe) (fun _ _ => field_safe)
      field_returns field_returns) (failAt_abreast _ _)
  · rw [hs.alike.isAtMark, hs.alike.isAtMark]
  · rw [hs.alike.isAtMark, hs.alike.isAtMark]
  · simp only [hs.alike.isAtMark]
    rw [← isNone_erase x.1, hinterface, isNone_erase]

/-- **Members that are read abreast** are written with the same tokens, if their attributes
    are. -/
theorem memberAfter_abreast : Parser.Abreast (memberAfter head) (memberAfter head') fun m n =>
    List.Forall₂ AttributeSection.Respells head.attributes head'.attributes → m.Respells n := by
  refine .get fun s t hs => ?_
  have typed : Parser.Abreast (do typedMember head (← type)) (do typedMember head' (← type))
      fun m n => List.Forall₂ AttributeSection.Respells head.attributes head'.attributes →
        m.Respells n :=
    .skip type_alike (fun _ _ => type_safe) fun _ _ => typedMember_abreast h
  rw [hs.alike.peek_kind]
  split
  case h_1 =>
    refine (Parser.Abreast.of_safe (delegate_alike h) (fun _ _ => delegate_safe)
      fun _ _ => delegate_safe).pass fun _ _ hd => ?_
    exact .pure (by simp [*]) fun _ => .delegate hd
  case h_2 =>
    exact leaf_abreast (destructor_alike h) (fun _ _ => destructor_safe)
      (fun _ _ => destructor_safe) destructor_returns destructor_returns
  case h_3 =>
    exact leaf_abreast (event_alike h) (fun _ _ => event_safe) (fun _ _ => event_safe)
      event_returns event_returns
  case h_4 | h_5 =>
    exact leaf_abreast (conversionOperator_alike h) (fun _ _ => conversionOperator_safe)
      (fun _ _ => conversionOperator_safe) conversionOperator_returns conversionOperator_returns
  case h_6 =>
    refine .ite ?_ (leaf_abreast (constructor_alike h) (fun _ _ => constructor_safe)
      (fun _ _ => constructor_safe) constructor_returns constructor_returns) typed
    rw [hs.alike.peekAt_kind]
  case h_7 => exact typed

end

end Parser

end CommandModules

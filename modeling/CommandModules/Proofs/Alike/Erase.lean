/-
  Command modules — syntax without its places.

  `erase` forgets where syntax stands, and the texts that it keeps word for word;
  all else stays: the nesting, the kinds of the nodes, identifiers, modifiers,
  shapes of types, and which optional parts are there.

  * the names of identifiers and the words of predefined types are no verbatim
    texts: each is the lexeme of one token;
  * a state of a parser without its places forgets the source as well, and the
    faults, which tell of places only.
-/
import CommandModules.Syntax.Parser.Declaration

namespace CommandModules

/-- Values of which places and verbatim texts can be forgotten. -/
class Erase (α : Type) where
  /-- the value without its places and verbatim texts -/
  erase : α → α

export Erase (erase)

variable {α β : Type}

/-! ## Values without places -/

instance : Erase Unit := ⟨id⟩
instance : Erase Bool := ⟨id⟩
instance : Erase Nat := ⟨id⟩

/-- All texts that are values on their own are verbatim. -/
instance : Erase String := ⟨fun _ => ""⟩

instance : Erase TypeKind := ⟨id⟩

@[simp] theorem erase_unit (u : Unit) : erase u = u := rfl
@[simp] theorem erase_bool (b : Bool) : erase b = b := rfl
@[simp] theorem erase_nat (n : Nat) : erase n = n := rfl
@[simp] theorem erase_string (s : String) : erase s = "" := rfl
@[simp] theorem erase_typeKind (k : TypeKind) : erase k = k := rfl

/-! ## Collections -/

section
variable [Erase α] [Erase β]

instance : Erase (List α) := ⟨List.map erase⟩
instance : Erase (Option α) := ⟨Option.map erase⟩
instance : Erase (α × β) := ⟨Prod.map erase erase⟩

@[simp] theorem erase_nil : erase ([] : List α) = [] := rfl

@[simp] theorem erase_cons (a : α) (as : List α) : erase (a :: as) = erase a :: erase as := rfl

@[simp] theorem erase_append (as bs : List α) : erase (as ++ bs) = erase as ++ erase bs :=
  List.map_append

@[simp] theorem erase_reverse (as : List α) : erase as.reverse = (erase as).reverse :=
  List.map_reverse

@[simp] theorem erase_take (n : Nat) (as : List α) : erase (as.take n) = (erase as).take n :=
  List.map_take

@[simp] theorem isEmpty_erase (as : List α) : (erase as).isEmpty = as.isEmpty := by
  cases as <;> rfl

@[simp] theorem length_erase (as : List α) : (erase as).length = as.length :=
  List.length_map _

@[simp] theorem erase_none : erase (none : Option α) = none := rfl
@[simp] theorem erase_some (a : α) : erase (some a) = some (erase a) := rfl
@[simp] theorem isSome_erase (a? : Option α) : (erase a?).isSome = a?.isSome := by cases a? <;> rfl
@[simp] theorem isNone_erase (a? : Option α) : (erase a?).isNone = a?.isNone := by cases a? <;> rfl
@[simp] theorem erase_pair (a : α) (b : β) : erase (a, b) = (erase a, erase b) := rfl

end

/-! ## Tokens and errors -/

instance : Erase Span := ⟨fun _ => default⟩
instance : Erase Token := ⟨fun t => ⟨t.kind, t.lexeme, default⟩⟩
instance : Erase ParseError := ⟨fun e => ⟨e.kind, default, e.message⟩⟩

@[simp] theorem erase_span (s : Span) : erase s = default := rfl
@[simp] theorem kind_erase (t : Token) : (erase t).kind = t.kind := rfl
@[simp] theorem lexeme_erase (t : Token) : (erase t).lexeme = t.lexeme := rfl

theorem erase_token (t : Token) : erase t = ⟨t.kind, t.lexeme, default⟩ := rfl

@[simp] theorem erase_parseError (kind : ParseErrorKind) (span : Span) (message : String) :
    erase (⟨kind, span, message⟩ : ParseError) = ⟨kind, default, message⟩ := rfl

/-! ## Names and types -/

instance : Erase Ident := ⟨fun i => ⟨i.name, default⟩⟩

mutual

/-- A segment without its places. -/
def NameSegment.erase : NameSegment → NameSegment
  | ⟨ident, args⟩ => ⟨Erase.erase ident, args.map TypeSyntax.erase⟩

/-- A name without its places. -/
def Name.erase : Name → Name
  | ⟨alias?, segments, _, _⟩ => ⟨Erase.erase alias?, segments.map NameSegment.erase, "", default⟩

/-- An element of a tuple without its places. -/
def TupleElement.erase : TupleElement → TupleElement
  | ⟨type, name?⟩ => ⟨type.erase, Erase.erase name?⟩

/-- The form of a type without its places. -/
def TypeShape.erase : TypeShape → TypeShape
  | .predefined word => .predefined word
  | .named name => .named name.erase
  | .array element rank => .array element.erase rank
  | .nullable element => .nullable element.erase
  | .pointer element => .pointer element.erase
  | .tuple elements => .tuple (elements.map TupleElement.erase)

/-- A type without its places. -/
def TypeSyntax.erase : TypeSyntax → TypeSyntax
  | ⟨shape, _, _⟩ => ⟨shape.erase, "", default⟩

end

instance : Erase NameSegment := ⟨NameSegment.erase⟩
instance : Erase Name := ⟨Name.erase⟩
instance : Erase TupleElement := ⟨TupleElement.erase⟩
instance : Erase TypeShape := ⟨TypeShape.erase⟩
instance : Erase TypeSyntax := ⟨TypeSyntax.erase⟩
instance : Erase ExprSyntax := ⟨fun _ => ⟨"", default⟩⟩

@[simp] theorem erase_ident (name : String) (span : Span) :
    erase (⟨name, span⟩ : Ident) = ⟨name, default⟩ := rfl

@[simp] theorem erase_nameSegment (ident : Ident) (args : List TypeSyntax) :
    erase (⟨ident, args⟩ : NameSegment) = ⟨erase ident, erase args⟩ :=
  NameSegment.erase.eq_1 ident args

@[simp] theorem erase_name (alias? : Option Ident) (segments : List NameSegment) (text : String)
    (span : Span) :
    erase (⟨alias?, segments, text, span⟩ : Name) = ⟨erase alias?, erase segments, "", default⟩ :=
  Name.erase.eq_1 alias? segments text span

@[simp] theorem erase_tupleElement (type : TypeSyntax) (name? : Option Ident) :
    erase (⟨type, name?⟩ : TupleElement) = ⟨erase type, erase name?⟩ :=
  TupleElement.erase.eq_1 type name?

@[simp] theorem erase_typeSyntax (shape : TypeShape) (text : String) (span : Span) :
    erase (⟨shape, text, span⟩ : TypeSyntax) = ⟨erase shape, "", default⟩ :=
  TypeSyntax.erase.eq_1 shape text span

section
variable (word : String) (name : Name) (element : TypeSyntax) (elements : List TupleElement)

@[simp] theorem erase_predefined : erase (TypeShape.predefined word) = .predefined word :=
  TypeShape.erase.eq_1 word

@[simp] theorem erase_named : erase (TypeShape.named name) = .named (erase name) :=
  TypeShape.erase.eq_2 name

@[simp] theorem erase_array (rank : Nat) :
    erase (TypeShape.array element rank) = .array (erase element) rank :=
  TypeShape.erase.eq_3 element rank

@[simp] theorem erase_nullable : erase (TypeShape.nullable element) = .nullable (erase element) :=
  TypeShape.erase.eq_4 element

@[simp] theorem erase_pointer : erase (TypeShape.pointer element) = .pointer (erase element) :=
  TypeShape.erase.eq_5 element

@[simp] theorem erase_tuple : erase (TypeShape.tuple elements) = .tuple (erase elements) :=
  TypeShape.erase.eq_6 elements

end

@[simp] theorem erase_exprSyntax (e : ExprSyntax) : erase e = ⟨"", default⟩ := rfl

/-! ## Parts of declarations -/

instance : Erase Using where
  erase u := ⟨u.isGlobal, u.isStatic, erase u.alias?, erase u.name, default⟩

instance : Erase AttributeArgument where
  erase a := ⟨erase a.nameEquals?, erase a.nameColon?, erase a.expression?, default⟩

instance : Erase AttributeArguments where
  erase a := ⟨erase a.items, default⟩

instance : Erase Attribute where
  erase a := ⟨erase a.name, erase a.arguments?, default⟩

instance : Erase AttributeSection where
  erase a := ⟨erase a.target?, erase a.attributes, default⟩

instance : Erase WrittenModifiers where
  erase m := ⟨m.flags, erase m.words⟩

instance : Erase TypeParameter where
  erase t := ⟨erase t.attributes, erase t.variance?, erase t.name, default⟩

instance : Erase ConstraintClause where
  erase c := ⟨erase c.parameter, "", default⟩

instance : Erase Parameter where
  erase p := ⟨erase p.attributes, erase p.modifiers, erase p.type, erase p.name, erase p.default?,
    default⟩

instance : Erase Body where
  erase
    | .block _ => .block default
    | .expression e => .expression (erase e)
    | .none => .none

instance : Erase Variable where
  erase v := ⟨erase v.name, erase v.initializer?, default⟩

instance : Erase Accessor where
  erase a := ⟨erase a.attributes, erase a.modifiers, erase a.keyword, erase a.body, default⟩

section
variable (attributes : List AttributeSection) (modifiers : WrittenModifiers) (name : Ident)
  (type : TypeSyntax) (value? : Option ExprSyntax) (span : Span)

@[simp] theorem erase_using (isGlobal isStatic : Bool) (alias? : Option Ident) (name : Name) :
    erase (⟨isGlobal, isStatic, alias?, name, span⟩ : Using) =
      ⟨isGlobal, isStatic, erase alias?, erase name, default⟩ := rfl

@[simp] theorem erase_attributeArgument (nameEquals? nameColon? : Option Ident) :
    erase (⟨nameEquals?, nameColon?, value?, span⟩ : AttributeArgument) =
      ⟨erase nameEquals?, erase nameColon?, erase value?, default⟩ := rfl

@[simp] theorem erase_attributeArguments (items : List AttributeArgument) :
    erase (⟨items, span⟩ : AttributeArguments) = ⟨erase items, default⟩ := rfl

@[simp] theorem erase_attribute (name : Name) (arguments? : Option AttributeArguments) :
    erase (⟨name, arguments?, span⟩ : Attribute) = ⟨erase name, erase arguments?, default⟩ := rfl

@[simp] theorem erase_attributeSection (target? : Option Ident) (attributes : List Attribute) :
    erase (⟨target?, attributes, span⟩ : AttributeSection) =
      ⟨erase target?, erase attributes, default⟩ := rfl

@[simp] theorem erase_writtenModifiers (flags : Modifiers) (words : List Ident) :
    erase (⟨flags, words⟩ : WrittenModifiers) = ⟨flags, erase words⟩ := rfl

@[simp] theorem erase_typeParameter (variance? : Option Ident) :
    erase (⟨attributes, variance?, name, span⟩ : TypeParameter) =
      ⟨erase attributes, erase variance?, erase name, default⟩ := rfl

@[simp] theorem erase_constraintClause (constraints : String) :
    erase (⟨name, constraints, span⟩ : ConstraintClause) = ⟨erase name, "", default⟩ := rfl

@[simp] theorem erase_parameter :
    erase (⟨attributes, modifiers, type, name, value?, span⟩ : Parameter) =
      ⟨erase attributes, erase modifiers, erase type, erase name, erase value?, default⟩ := rfl

@[simp] theorem erase_block : erase (Body.block span) = .block default := rfl

@[simp] theorem erase_bodyExpression (e : ExprSyntax) :
    erase (Body.expression e) = .expression (erase e) := rfl

@[simp] theorem erase_noBody : erase Body.none = .none := rfl

@[simp] theorem erase_variable :
    erase (⟨name, value?, span⟩ : Variable) = ⟨erase name, erase value?, default⟩ := rfl

@[simp] theorem erase_accessor (body : Body) :
    erase (⟨attributes, modifiers, name, body, span⟩ : Accessor) =
      ⟨erase attributes, erase modifiers, erase name, erase body, default⟩ := rfl

end

/-! ## Members -/

instance : Erase Delegate where
  erase d := ⟨erase d.attributes, erase d.modifiers, erase d.returnType, erase d.name,
    erase d.typeParameters, erase d.parameters, erase d.constraints, default⟩

instance : Erase Method where
  erase m := ⟨erase m.attributes, erase m.modifiers, erase m.returnType, erase m.explicitInterface?,
    erase m.name, erase m.typeParameters, erase m.parameters, erase m.constraints, erase m.body,
    default⟩

instance : Erase Constructor where
  erase c := ⟨erase c.attributes, erase c.modifiers, erase c.name, erase c.parameters,
    erase c.initializer?, erase c.body, default⟩

instance : Erase Field where
  erase f := ⟨erase f.attributes, erase f.modifiers, erase f.type, erase f.declarators, default⟩

instance : Erase Property where
  erase p := ⟨erase p.attributes, erase p.modifiers, erase p.type, erase p.explicitInterface?,
    erase p.name, erase p.accessors, erase p.expressionBody?, erase p.initializer?, default⟩

instance : Erase Event where
  erase e := ⟨erase e.attributes, erase e.modifiers, erase e.type, erase e.declarators,
    erase e.accessors, default⟩

instance : Erase EnumMember where
  erase m := ⟨erase m.attributes, erase m.name, erase m.value?, default⟩

instance : Erase SpecialMember where
  erase m := ⟨m.kind, erase m.attributes, erase m.modifiers, erase m.parameters, default⟩

mutual

/-- A declaration of a type without its places. -/
def TypeDeclaration.erase : TypeDeclaration → TypeDeclaration
  | ⟨attributes, modifiers, kind, name, typeParameters, parameters?, bases, constraints, members, _⟩ =>
    ⟨Erase.erase attributes, Erase.erase modifiers, kind, Erase.erase name,
      Erase.erase typeParameters, Erase.erase parameters?, Erase.erase bases,
      Erase.erase constraints, members.map Member.erase, default⟩

/-- A member without its places. -/
def Member.erase : Member → Member
  | .method m => .method (Erase.erase m)
  | .constructor c => .constructor (Erase.erase c)
  | .field f => .field (Erase.erase f)
  | .property p => .property (Erase.erase p)
  | .event e => .event (Erase.erase e)
  | .enumMember m => .enumMember (Erase.erase m)
  | .type t => .type t.erase
  | .delegate d => .delegate (Erase.erase d)
  | .special m => .special (Erase.erase m)

end

instance : Erase TypeDeclaration := ⟨TypeDeclaration.erase⟩
instance : Erase Member := ⟨Member.erase⟩

section
variable (attributes : List AttributeSection) (modifiers : WrittenModifiers) (name : Ident)
  (type : TypeSyntax) (interface? : Option Name) (typeParameters : List TypeParameter)
  (parameters : List Parameter) (constraints : List ConstraintClause) (body : Body)
  (value? : Option ExprSyntax) (declarators : List Variable) (accessors : List Accessor) (span : Span)

@[simp] theorem erase_delegate :
    erase (⟨attributes, modifiers, type, name, typeParameters, parameters, constraints, span⟩ :
      Delegate) =
      ⟨erase attributes, erase modifiers, erase type, erase name, erase typeParameters,
        erase parameters, erase constraints, default⟩ := rfl

@[simp] theorem erase_method :
    erase (⟨attributes, modifiers, type, interface?, name, typeParameters, parameters, constraints,
      body, span⟩ : Method) =
      ⟨erase attributes, erase modifiers, erase type, erase interface?, erase name,
        erase typeParameters, erase parameters, erase constraints, erase body, default⟩ := rfl

@[simp] theorem erase_constructor :
    erase (⟨attributes, modifiers, name, parameters, value?, body, span⟩ : Constructor) =
      ⟨erase attributes, erase modifiers, erase name, erase parameters, erase value?, erase body,
        default⟩ := rfl

@[simp] theorem erase_field :
    erase (⟨attributes, modifiers, type, declarators, span⟩ : Field) =
      ⟨erase attributes, erase modifiers, erase type, erase declarators, default⟩ := rfl

@[simp] theorem erase_property (expression? : Option ExprSyntax) :
    erase (⟨attributes, modifiers, type, interface?, name, accessors, expression?, value?, span⟩ :
      Property) =
      ⟨erase attributes, erase modifiers, erase type, erase interface?, erase name, erase accessors,
        erase expression?, erase value?, default⟩ := rfl

@[simp] theorem erase_event :
    erase (⟨attributes, modifiers, type, declarators, accessors, span⟩ : Event) =
      ⟨erase attributes, erase modifiers, erase type, erase declarators, erase accessors,
        default⟩ := rfl

@[simp] theorem erase_enumMember :
    erase (⟨attributes, name, value?, span⟩ : EnumMember) =
      ⟨erase attributes, erase name, erase value?, default⟩ := rfl

@[simp] theorem erase_specialMember (kind : SpecialKind) :
    erase (⟨kind, attributes, modifiers, parameters, span⟩ : SpecialMember) =
      ⟨kind, erase attributes, erase modifiers, erase parameters, default⟩ := rfl

@[simp] theorem erase_typeDeclaration (kind : TypeKind) (parameters? : Option (List Parameter))
    (bases : List TypeSyntax) (members : List Member) :
    erase (⟨attributes, modifiers, kind, name, typeParameters, parameters?, bases, constraints,
      members, span⟩ : TypeDeclaration) =
      ⟨erase attributes, erase modifiers, kind, erase name, erase typeParameters,
        erase parameters?, erase bases, erase constraints, erase members, default⟩ :=
  TypeDeclaration.erase.eq_1 ..

end

@[simp] theorem erase_memberMethod (m : Method) : erase (Member.method m) = .method (erase m) :=
  Member.erase.eq_1 m

@[simp] theorem erase_memberConstructor (c : Constructor) :
    erase (Member.constructor c) = .constructor (erase c) :=
  Member.erase.eq_2 c

@[simp] theorem erase_memberField (f : Field) : erase (Member.field f) = .field (erase f) :=
  Member.erase.eq_3 f

@[simp] theorem erase_memberProperty (p : Property) :
    erase (Member.property p) = .property (erase p) :=
  Member.erase.eq_4 p

@[simp] theorem erase_memberEvent (e : Event) : erase (Member.event e) = .event (erase e) :=
  Member.erase.eq_5 e

@[simp] theorem erase_memberEnumMember (m : EnumMember) :
    erase (Member.enumMember m) = .enumMember (erase m) :=
  Member.erase.eq_6 m

@[simp] theorem erase_memberType (t : TypeDeclaration) : erase (Member.type t) = .type (erase t) :=
  Member.erase.eq_7 t

@[simp] theorem erase_memberDelegate (d : Delegate) :
    erase (Member.delegate d) = .delegate (erase d) :=
  Member.erase.eq_8 d

@[simp] theorem erase_memberSpecial (m : SpecialMember) :
    erase (Member.special m) = .special (erase m) :=
  Member.erase.eq_9 m

/-! ## Namespaces and units -/

mutual

/-- A declaration of a namespace without its places. -/
def NamespaceDeclaration.erase : NamespaceDeclaration → NamespaceDeclaration
  | ⟨name, isFileScoped, usings, members, _⟩ =>
    ⟨Erase.erase name, isFileScoped, Erase.erase usings, members.map Declaration.erase, default⟩

/-- A declaration without its places. -/
def Declaration.erase : Declaration → Declaration
  | .namespace_ n => .namespace_ n.erase
  | .type t => .type (Erase.erase t)
  | .delegate d => .delegate (Erase.erase d)

end

instance : Erase NamespaceDeclaration := ⟨NamespaceDeclaration.erase⟩
instance : Erase Declaration := ⟨Declaration.erase⟩

@[simp] theorem erase_namespaceDeclaration (name : Name) (isFileScoped : Bool)
    (usings : List Using) (members : List Declaration) (span : Span) :
    erase (⟨name, isFileScoped, usings, members, span⟩ : NamespaceDeclaration) =
      ⟨erase name, isFileScoped, erase usings, erase members, default⟩ :=
  NamespaceDeclaration.erase.eq_1 ..

@[simp] theorem erase_declarationNamespace (n : NamespaceDeclaration) :
    erase (Declaration.namespace_ n) = .namespace_ (erase n) :=
  Declaration.erase.eq_1 n

@[simp] theorem erase_declarationType (t : TypeDeclaration) :
    erase (Declaration.type t) = .type (erase t) :=
  Declaration.erase.eq_2 t

@[simp] theorem erase_declarationDelegate (d : Delegate) :
    erase (Declaration.delegate d) = .delegate (erase d) :=
  Declaration.erase.eq_3 d

instance : Erase SourceUnit where
  erase u := ⟨erase u.usings, erase u.attributes, erase u.members, default⟩

@[simp] theorem erase_sourceUnit (usings : List Using) (attributes : List AttributeSection)
    (members : List Declaration) (span : Span) :
    erase (⟨usings, attributes, members, span⟩ : SourceUnit) =
      ⟨erase usings, erase attributes, erase members, default⟩ := rfl

/-! ## States -/

instance : Erase ParserState where
  erase s := ⟨[], erase s.before, erase s.after, erase s.eof, erase s.errors, []⟩

end CommandModules

/-
  Command modules — syntax in a later place.

  A text that stands behind another one is read as the same syntax in a later place.

  * `shift d` puts syntax `d` lines and bytes later; the columns and all texts stay, for what
    stands before ends with a line;
  * `shift_zero`: over no distance nothing changes;
  * `Name.erase_shift` and its like: without its places the syntax is what it was.
-/
import CommandModules.Proofs.Alike.Erase
import CommandModules.Syntax.Parser.Declaration

namespace CommandModules

/-- How far behind the head of a text a place is: the lines and the bytes before it. -/
structure Distance where
  lines : Nat
  bytes : Nat

/-- No distance. -/
def Distance.zero : Distance := ⟨0, 0⟩

/-- Values that have places in a text. -/
class Shift (α : Type) where
  /-- the value in a later place -/
  shift : Distance → α → α
  shift_zero : ∀ a, shift .zero a = a

export Shift (shift shift_zero)

variable {α β : Type} {d : Distance}

/-! ## Values without places -/

instance : Shift Unit := ⟨fun _ => id, fun _ => rfl⟩
instance : Shift Bool := ⟨fun _ => id, fun _ => rfl⟩
instance : Shift Nat := ⟨fun _ => id, fun _ => rfl⟩
instance : Shift String := ⟨fun _ => id, fun _ => rfl⟩
instance : Shift TypeKind := ⟨fun _ => id, fun _ => rfl⟩

@[simp] theorem shift_nat (n : Nat) : shift d n = n := rfl
@[simp] theorem shift_string (s : String) : shift d s = s := rfl

/-! ## Collections -/

section
variable [Shift α] [Shift β]

instance : Shift (List α) where
  shift d := List.map (shift d)
  shift_zero as := List.map_id'' shift_zero as

instance : Shift (Option α) where
  shift d := Option.map (shift d)
  shift_zero
    | none => rfl
    | some a => congrArg some (shift_zero a)

instance : Shift (α × β) where
  shift d := Prod.map (shift d) (shift d)
  shift_zero x := Prod.ext (shift_zero x.1) (shift_zero x.2)

@[simp] theorem shift_nil : shift d ([] : List α) = [] := rfl

@[simp] theorem shift_cons (a : α) (as : List α) : shift d (a :: as) = shift d a :: shift d as := rfl

@[simp] theorem shift_append (as bs : List α) : shift d (as ++ bs) = shift d as ++ shift d bs :=
  List.map_append

@[simp] theorem shift_reverse (as : List α) : shift d as.reverse = (shift d as).reverse :=
  List.map_reverse

@[simp] theorem length_shift (as : List α) : (shift d as).length = as.length :=
  List.length_map _

@[simp] theorem isEmpty_shift (as : List α) : (shift d as).isEmpty = as.isEmpty := by
  cases as <;> rfl

@[simp] theorem shift_none : shift d (none : Option α) = none := rfl
@[simp] theorem shift_some (a : α) : shift d (some a) = some (shift d a) := rfl
@[simp] theorem isSome_shift (a? : Option α) : (shift d a?).isSome = a?.isSome := by
  cases a? <;> rfl
@[simp] theorem isNone_shift (a? : Option α) : (shift d a?).isNone = a?.isNone := by
  cases a? <;> rfl
@[simp] theorem toList_shift (a? : Option α) : (shift d a?).toList = shift d a?.toList := by
  cases a? <;> rfl
@[simp] theorem shift_pair (a : α) (b : β) : shift d (a, b) = (shift d a, shift d b) := rfl

end

/-! ## Spans, tokens and errors -/

instance : Shift Span where
  shift d s := ⟨s.offset + d.bytes, s.line + .ofNat d.lines, s.column, s.length⟩
  shift_zero s := by simp [Distance.zero]

instance : Shift Token where
  shift d t := ⟨t.kind, t.lexeme, shift d t.span⟩
  shift_zero _ := by simp only [shift_zero]

instance : Shift ParseError where
  shift d e := ⟨e.kind, shift d e.span, e.message⟩
  shift_zero _ := by simp only [shift_zero]

@[simp] theorem offset_shift (s : Span) : (shift d s).offset = s.offset + d.bytes := rfl
@[simp] theorem length_shift_span (s : Span) : (shift d s).length = s.length := rfl

@[simp] theorem stop_shift (s : Span) : (shift d s).stop = s.stop + d.bytes := by
  rw [Span.stop, Span.stop, offset_shift, length_shift_span]
  omega

@[simp] theorem merge_shift (s t : Span) : (shift d s).merge (shift d t) = shift d (s.merge t) := by
  have hmax : max (s.stop + d.bytes) (t.stop + d.bytes) = max s.stop t.stop + d.bytes := by omega
  rw [Span.merge, Span.merge, stop_shift, stop_shift, hmax, offset_shift, offset_shift]
  by_cases h : s.offset ≤ t.offset
  · rw [if_pos h, if_pos (by omega), offset_shift, Nat.add_sub_add_right]
    rfl
  · rw [if_neg h, if_neg (by omega), offset_shift, Nat.add_sub_add_right]
    rfl

@[simp] theorem kind_shift (t : Token) : (shift d t).kind = t.kind := rfl
@[simp] theorem lexeme_shift (t : Token) : (shift d t).lexeme = t.lexeme := rfl
@[simp] theorem span_shift (t : Token) : (shift d t).span = shift d t.span := rfl

@[simp] theorem isContextual_shift (t : Token) (word : String) :
    (shift d t).isContextual word = t.isContextual word := rfl

/-! ## Names and types -/

instance : Shift Ident where
  shift d i := ⟨i.name, shift d i.span⟩
  shift_zero _ := by simp only [shift_zero]

mutual

/-- A segment in a later place. -/
def NameSegment.shift (d : Distance) : NameSegment → NameSegment
  | ⟨ident, args⟩ => ⟨Shift.shift d ident, args.map (TypeSyntax.shift d)⟩

/-- A name in a later place. -/
def Name.shift (d : Distance) : Name → Name
  | ⟨alias?, segments, text, span⟩ =>
    ⟨Shift.shift d alias?, segments.map (NameSegment.shift d), text, Shift.shift d span⟩

/-- An element of a tuple in a later place. -/
def TupleElement.shift (d : Distance) : TupleElement → TupleElement
  | ⟨type, name?⟩ => ⟨type.shift d, Shift.shift d name?⟩

/-- The form of a type in a later place. -/
def TypeShape.shift (d : Distance) : TypeShape → TypeShape
  | .predefined word => .predefined word
  | .named name => .named (name.shift d)
  | .array element rank => .array (element.shift d) rank
  | .nullable element => .nullable (element.shift d)
  | .pointer element => .pointer (element.shift d)
  | .tuple elements => .tuple (elements.map (TupleElement.shift d))

/-- A type in a later place. -/
def TypeSyntax.shift (d : Distance) : TypeSyntax → TypeSyntax
  | ⟨shape, text, span⟩ => ⟨shape.shift d, text, Shift.shift d span⟩

end

mutual

theorem NameSegment.shift_zero : ∀ s : NameSegment, s.shift .zero = s
  | ⟨ident, args⟩ => by
    rw [NameSegment.shift, Shift.shift_zero,
      (List.map_congr_left fun a _ => a.shift_zero).trans (List.map_id' args)]

theorem Name.shift_zero : ∀ n : Name, n.shift .zero = n
  | ⟨alias?, segments, text, span⟩ => by
    rw [Name.shift, Shift.shift_zero, Shift.shift_zero,
      (List.map_congr_left fun s _ => s.shift_zero).trans (List.map_id' segments)]

theorem TupleElement.shift_zero : ∀ e : TupleElement, e.shift .zero = e
  | ⟨type, name?⟩ => by rw [TupleElement.shift, type.shift_zero, Shift.shift_zero]

theorem TypeShape.shift_zero : ∀ s : TypeShape, s.shift .zero = s
  | .predefined word => by rw [TypeShape.shift]
  | .named name => by rw [TypeShape.shift, name.shift_zero]
  | .array element rank => by rw [TypeShape.shift, element.shift_zero]
  | .nullable element => by rw [TypeShape.shift, element.shift_zero]
  | .pointer element => by rw [TypeShape.shift, element.shift_zero]
  | .tuple elements => by
    rw [TypeShape.shift,
      (List.map_congr_left fun e _ => e.shift_zero).trans (List.map_id' elements)]

theorem TypeSyntax.shift_zero : ∀ t : TypeSyntax, t.shift .zero = t
  | ⟨shape, text, span⟩ => by rw [TypeSyntax.shift, shape.shift_zero, Shift.shift_zero]

end

instance : Shift NameSegment := ⟨NameSegment.shift, NameSegment.shift_zero⟩
instance : Shift Name := ⟨Name.shift, Name.shift_zero⟩
instance : Shift TupleElement := ⟨TupleElement.shift, TupleElement.shift_zero⟩
instance : Shift TypeShape := ⟨TypeShape.shift, TypeShape.shift_zero⟩
instance : Shift TypeSyntax := ⟨TypeSyntax.shift, TypeSyntax.shift_zero⟩
instance : Shift ExprSyntax where
  shift d e := ⟨e.text, shift d e.span⟩
  shift_zero _ := by simp only [shift_zero]

@[simp] theorem shift_nameSegment (ident : Ident) (args : List TypeSyntax) :
    shift d (⟨ident, args⟩ : NameSegment) = ⟨shift d ident, shift d args⟩ :=
  NameSegment.shift.eq_1 d ident args

@[simp] theorem shift_name (alias? : Option Ident) (segments : List NameSegment) (text : String)
    (span : Span) : shift d (⟨alias?, segments, text, span⟩ : Name) =
      ⟨shift d alias?, shift d segments, text, shift d span⟩ :=
  Name.shift.eq_1 d alias? segments text span

@[simp] theorem shift_tupleElement (type : TypeSyntax) (name? : Option Ident) :
    shift d (⟨type, name?⟩ : TupleElement) = ⟨shift d type, shift d name?⟩ :=
  TupleElement.shift.eq_1 d type name?

@[simp] theorem shift_typeSyntax (shape : TypeShape) (text : String) (span : Span) :
    shift d (⟨shape, text, span⟩ : TypeSyntax) = ⟨shift d shape, text, shift d span⟩ :=
  TypeSyntax.shift.eq_1 d shape text span

section
variable (word : String) (name : Name) (element : TypeSyntax) (elements : List TupleElement)

@[simp] theorem shift_predefined : shift d (TypeShape.predefined word) = .predefined word :=
  TypeShape.shift.eq_1 d word

@[simp] theorem shift_named : shift d (TypeShape.named name) = .named (shift d name) :=
  TypeShape.shift.eq_2 d name

@[simp] theorem shift_array (rank : Nat) :
    shift d (TypeShape.array element rank) = .array (shift d element) rank :=
  TypeShape.shift.eq_3 d element rank

@[simp] theorem shift_nullable : shift d (TypeShape.nullable element) = .nullable (shift d element) :=
  TypeShape.shift.eq_4 d element

@[simp] theorem shift_pointer : shift d (TypeShape.pointer element) = .pointer (shift d element) :=
  TypeShape.shift.eq_5 d element

@[simp] theorem shift_tuple : shift d (TypeShape.tuple elements) = .tuple (shift d elements) :=
  TypeShape.shift.eq_6 d elements

end

/-! ## Parts of declarations -/

instance : Shift Using where
  shift d u := ⟨u.isGlobal, u.isStatic, shift d u.alias?, shift d u.name, shift d u.span⟩
  shift_zero _ := by simp only [shift_zero]

instance : Shift AttributeArgument where
  shift d a := ⟨shift d a.nameEquals?, shift d a.nameColon?, shift d a.expression?, shift d a.span⟩
  shift_zero _ := by simp only [shift_zero]

instance : Shift AttributeArguments where
  shift d a := ⟨shift d a.items, shift d a.span⟩
  shift_zero _ := by simp only [shift_zero]

instance : Shift Attribute where
  shift d a := ⟨shift d a.name, shift d a.arguments?, shift d a.span⟩
  shift_zero _ := by simp only [shift_zero]

instance : Shift AttributeSection where
  shift d a := ⟨shift d a.target?, shift d a.attributes, shift d a.span⟩
  shift_zero _ := by simp only [shift_zero]

instance : Shift WrittenModifiers where
  shift d m := ⟨m.flags, shift d m.words⟩
  shift_zero _ := by simp only [shift_zero]

instance : Shift TypeParameter where
  shift d t := ⟨shift d t.attributes, shift d t.variance?, shift d t.name, shift d t.span⟩
  shift_zero _ := by simp only [shift_zero]

instance : Shift ConstraintClause where
  shift d c := ⟨shift d c.parameter, c.constraints, shift d c.span⟩
  shift_zero _ := by simp only [shift_zero]

instance : Shift Parameter where
  shift d p := ⟨shift d p.attributes, shift d p.modifiers, shift d p.type, shift d p.name,
    shift d p.default?, shift d p.span⟩
  shift_zero _ := by simp only [shift_zero]

instance : Shift Body where
  shift d
    | .block span => .block (shift d span)
    | .expression e => .expression (shift d e)
    | .none => .none
  shift_zero b := by cases b <;> simp only [shift_zero]

instance : Shift Variable where
  shift d v := ⟨shift d v.name, shift d v.initializer?, shift d v.span⟩
  shift_zero _ := by simp only [shift_zero]

instance : Shift Accessor where
  shift d a := ⟨shift d a.attributes, shift d a.modifiers, shift d a.keyword, shift d a.body,
    shift d a.span⟩
  shift_zero _ := by simp only [shift_zero]

/-! ## Members -/

instance : Shift Delegate where
  shift d x := ⟨shift d x.attributes, shift d x.modifiers, shift d x.returnType, shift d x.name,
    shift d x.typeParameters, shift d x.parameters, shift d x.constraints, shift d x.span⟩
  shift_zero _ := by simp only [shift_zero]

instance : Shift Method where
  shift d m := ⟨shift d m.attributes, shift d m.modifiers, shift d m.returnType,
    shift d m.explicitInterface?, shift d m.name, shift d m.typeParameters, shift d m.parameters,
    shift d m.constraints, shift d m.body, shift d m.span⟩
  shift_zero _ := by simp only [shift_zero]

instance : Shift Constructor where
  shift d c := ⟨shift d c.attributes, shift d c.modifiers, shift d c.name, shift d c.parameters,
    shift d c.initializer?, shift d c.body, shift d c.span⟩
  shift_zero _ := by simp only [shift_zero]

instance : Shift Field where
  shift d f := ⟨shift d f.attributes, shift d f.modifiers, shift d f.type, shift d f.declarators,
    shift d f.span⟩
  shift_zero _ := by simp only [shift_zero]

instance : Shift Property where
  shift d p := ⟨shift d p.attributes, shift d p.modifiers, shift d p.type,
    shift d p.explicitInterface?, shift d p.name, shift d p.accessors, shift d p.expressionBody?,
    shift d p.initializer?, shift d p.span⟩
  shift_zero _ := by simp only [shift_zero]

instance : Shift Event where
  shift d e := ⟨shift d e.attributes, shift d e.modifiers, shift d e.type, shift d e.declarators,
    shift d e.accessors, shift d e.span⟩
  shift_zero _ := by simp only [shift_zero]

instance : Shift EnumMember where
  shift d m := ⟨shift d m.attributes, shift d m.name, shift d m.value?, shift d m.span⟩
  shift_zero _ := by simp only [shift_zero]

instance : Shift SpecialMember where
  shift d m := ⟨m.kind, shift d m.attributes, shift d m.modifiers, shift d m.parameters,
    shift d m.span⟩
  shift_zero _ := by simp only [shift_zero]

mutual

/-- A declaration of a type in a later place. -/
def TypeDeclaration.shift (d : Distance) : TypeDeclaration → TypeDeclaration
  | ⟨attributes, modifiers, kind, name, typeParameters, parameters?, bases, constraints, members,
      span⟩ =>
    ⟨Shift.shift d attributes, Shift.shift d modifiers, kind, Shift.shift d name,
      Shift.shift d typeParameters, Shift.shift d parameters?, Shift.shift d bases,
      Shift.shift d constraints, members.map (Member.shift d), Shift.shift d span⟩

/-- A member in a later place. -/
def Member.shift (d : Distance) : Member → Member
  | .method m => .method (Shift.shift d m)
  | .constructor c => .constructor (Shift.shift d c)
  | .field f => .field (Shift.shift d f)
  | .property p => .property (Shift.shift d p)
  | .event e => .event (Shift.shift d e)
  | .enumMember m => .enumMember (Shift.shift d m)
  | .type t => .type (t.shift d)
  | .delegate x => .delegate (Shift.shift d x)
  | .special m => .special (Shift.shift d m)

end

mutual

theorem TypeDeclaration.shift_zero : ∀ t : TypeDeclaration, t.shift .zero = t
  | ⟨attributes, modifiers, kind, name, typeParameters, parameters?, bases, constraints, members,
      span⟩ => by
    rw [TypeDeclaration.shift,
      (List.map_congr_left fun m _ => m.shift_zero).trans (List.map_id' members)]
    simp only [Shift.shift_zero]

theorem Member.shift_zero : ∀ m : Member, m.shift .zero = m
  | .method _ | .constructor _ | .field _ | .property _ | .event _ | .enumMember _ | .delegate _
  | .special _ => by rw [Member.shift, Shift.shift_zero]
  | .type t => by rw [Member.shift, t.shift_zero]

end

instance : Shift TypeDeclaration := ⟨TypeDeclaration.shift, TypeDeclaration.shift_zero⟩
instance : Shift Member := ⟨Member.shift, Member.shift_zero⟩

@[simp] theorem shift_typeDeclaration (attributes : List AttributeSection)
    (modifiers : WrittenModifiers) (kind : TypeKind) (name : Ident)
    (typeParameters : List TypeParameter) (parameters? : Option (List Parameter))
    (bases : List TypeSyntax) (constraints : List ConstraintClause) (members : List Member)
    (span : Span) :
    shift d (⟨attributes, modifiers, kind, name, typeParameters, parameters?, bases, constraints,
      members, span⟩ : TypeDeclaration) =
      ⟨shift d attributes, shift d modifiers, kind, shift d name, shift d typeParameters,
        shift d parameters?, shift d bases, shift d constraints, shift d members, shift d span⟩ :=
  TypeDeclaration.shift.eq_1 ..

@[simp] theorem shift_memberMethod (m : Method) :
    shift d (Member.method m) = .method (shift d m) :=
  Member.shift.eq_1 d m

@[simp] theorem shift_memberConstructor (c : Constructor) :
    shift d (Member.constructor c) = .constructor (shift d c) :=
  Member.shift.eq_2 d c

@[simp] theorem shift_memberField (f : Field) : shift d (Member.field f) = .field (shift d f) :=
  Member.shift.eq_3 d f

@[simp] theorem shift_memberProperty (p : Property) :
    shift d (Member.property p) = .property (shift d p) :=
  Member.shift.eq_4 d p

@[simp] theorem shift_memberEvent (e : Event) : shift d (Member.event e) = .event (shift d e) :=
  Member.shift.eq_5 d e

@[simp] theorem shift_memberEnumMember (m : EnumMember) :
    shift d (Member.enumMember m) = .enumMember (shift d m) :=
  Member.shift.eq_6 d m

@[simp] theorem shift_memberType (t : TypeDeclaration) :
    shift d (Member.type t) = .type (shift d t) :=
  Member.shift.eq_7 d t

@[simp] theorem shift_memberDelegate (x : Delegate) :
    shift d (Member.delegate x) = .delegate (shift d x) :=
  Member.shift.eq_8 d x

@[simp] theorem shift_memberSpecial (m : SpecialMember) :
    shift d (Member.special m) = .special (shift d m) :=
  Member.shift.eq_9 d m

/-! ## Namespaces and entries -/

mutual

/-- A declaration of a namespace in a later place. -/
def NamespaceDeclaration.shift (d : Distance) : NamespaceDeclaration → NamespaceDeclaration
  | ⟨name, isFileScoped, usings, members, span⟩ =>
    ⟨Shift.shift d name, isFileScoped, Shift.shift d usings, members.map (Declaration.shift d),
      Shift.shift d span⟩

/-- A declaration in a later place. -/
def Declaration.shift (d : Distance) : Declaration → Declaration
  | .namespace_ n => .namespace_ (n.shift d)
  | .type t => .type (Shift.shift d t)
  | .delegate x => .delegate (Shift.shift d x)

end

mutual

theorem NamespaceDeclaration.shift_zero : ∀ n : NamespaceDeclaration, n.shift .zero = n
  | ⟨name, isFileScoped, usings, members, span⟩ => by
    rw [NamespaceDeclaration.shift,
      (List.map_congr_left fun x _ => x.shift_zero).trans (List.map_id' members)]
    simp only [Shift.shift_zero]

theorem Declaration.shift_zero : ∀ x : Declaration, x.shift .zero = x
  | .namespace_ n => by rw [Declaration.shift, n.shift_zero]
  | .type _ | .delegate _ => by rw [Declaration.shift, Shift.shift_zero]

end

instance : Shift NamespaceDeclaration :=
  ⟨NamespaceDeclaration.shift, NamespaceDeclaration.shift_zero⟩
instance : Shift Declaration := ⟨Declaration.shift, Declaration.shift_zero⟩

@[simp] theorem shift_namespaceDeclaration (name : Name) (isFileScoped : Bool)
    (usings : List Using) (members : List Declaration) (span : Span) :
    shift d (⟨name, isFileScoped, usings, members, span⟩ : NamespaceDeclaration) =
      ⟨shift d name, isFileScoped, shift d usings, shift d members, shift d span⟩ :=
  NamespaceDeclaration.shift.eq_1 ..

@[simp] theorem shift_declarationNamespace (n : NamespaceDeclaration) :
    shift d (Declaration.namespace_ n) = .namespace_ (shift d n) :=
  Declaration.shift.eq_1 d n

@[simp] theorem shift_declarationType (t : TypeDeclaration) :
    shift d (Declaration.type t) = .type (shift d t) :=
  Declaration.shift.eq_2 d t

@[simp] theorem shift_declarationDelegate (x : Delegate) :
    shift d (Declaration.delegate x) = .delegate (shift d x) :=
  Declaration.shift.eq_3 d x

namespace Parser

instance : Shift Head where
  shift d h := ⟨shift d h.start, shift d h.attributes, shift d h.modifiers⟩
  shift_zero _ := by simp only [shift_zero]

instance : Shift Qualifier where
  shift d q := ⟨shift d q.segments, q.stop + d.bytes⟩
  shift_zero _ := by simp only [shift_zero]; rfl

@[simp] theorem shift_qualifier (segments : List NameSegment) (stop : Nat) :
    shift d (⟨segments, stop⟩ : Qualifier) = ⟨shift d segments, stop + d.bytes⟩ := rfl

instance : Shift Entry where
  shift d
    | .using_ u => .using_ (shift d u)
    | .attributes s => .attributes (shift d s)
    | .declaration x => .declaration (shift d x)
  shift_zero e := by cases e <;> simp only [shift_zero]

section
variable (es : List Entry)

@[simp] theorem usings_shift : Entry.usings (shift d es) = shift d (Entry.usings es) := by
  induction es with
  | nil => rfl
  | cons e es ih => cases e <;> simpa [Entry.usings, shift] using ih

@[simp] theorem globalAttributes_shift :
    Entry.globalAttributes (shift d es) = shift d (Entry.globalAttributes es) := by
  induction es with
  | nil => rfl
  | cons e es ih => cases e <;> simpa [Entry.globalAttributes, shift] using ih

@[simp] theorem declarations_shift :
    Entry.declarations (shift d es) = shift d (Entry.declarations es) := by
  induction es with
  | nil => rfl
  | cons e es ih => cases e <;> simpa [Entry.declarations, shift] using ih

end

end Parser

/-! ## Outcomes -/

instance [Shift α] : Shift (Except ParseError α) where
  shift d
    | .ok a => .ok (shift d a)
    | .error e => .error (shift d e)
  shift_zero r := by cases r <;> simp only [shift_zero]

instance [Shift α] [Shift β] : Shift (Round α β) where
  shift d
    | .next x => .next (shift d x)
    | .done a => .done (shift d a)
  shift_zero r := by cases r <;> simp only [shift_zero]

section
variable [Shift α] [Shift β]

@[simp] theorem shift_next (x : α) : shift d (.next x : Round α β) = .next (shift d x) := rfl

@[simp] theorem shift_done (b : β) : shift d (.done b : Round α β) = .done (shift d b) := rfl

end

/-! ## Moving changes places only -/

section
variable (d : Distance)

theorem erase_map_shift {α : Type} [Erase α] {f : α → α} {as : List α}
    (h : ∀ a ∈ as, erase (f a) = erase a) : erase (as.map f) = erase as :=
  List.map_map.trans (List.map_congr_left h)

mutual

theorem NameSegment.erase_shift : ∀ s : NameSegment, erase (shift d s) = erase s
  | ⟨ident, args⟩ => by
    have hargs : erase (shift d args) = erase args :=
      erase_map_shift fun a _ => a.erase_shift
    rw [shift_nameSegment, erase_nameSegment, erase_nameSegment, hargs]
    rfl

theorem Name.erase_shift : ∀ n : Name, erase (shift d n) = erase n
  | ⟨alias?, segments, text, span⟩ => by
    have hsegments : erase (shift d segments) = erase segments :=
      erase_map_shift fun s _ => s.erase_shift
    rw [shift_name, erase_name, erase_name, hsegments]
    cases alias? <;> rfl

theorem TupleElement.erase_shift : ∀ e : TupleElement, erase (shift d e) = erase e
  | ⟨type, name?⟩ => by
    rw [shift_tupleElement, erase_tupleElement, erase_tupleElement, type.erase_shift]
    cases name? <;> rfl

theorem TypeShape.erase_shift : ∀ s : TypeShape, erase (shift d s) = erase s
  | .predefined word => by rw [shift_predefined]
  | .named name => by rw [shift_named, erase_named, erase_named, name.erase_shift]
  | .array element rank => by rw [shift_array, erase_array, erase_array, element.erase_shift]
  | .nullable element => by rw [shift_nullable, erase_nullable, erase_nullable, element.erase_shift]
  | .pointer element => by rw [shift_pointer, erase_pointer, erase_pointer, element.erase_shift]
  | .tuple elements => by
    have helements : erase (shift d elements) = erase elements :=
      erase_map_shift fun e _ => e.erase_shift
    rw [shift_tuple, erase_tuple, erase_tuple, helements]

theorem TypeSyntax.erase_shift : ∀ t : TypeSyntax, erase (shift d t) = erase t
  | ⟨shape, text, span⟩ => by
    rw [shift_typeSyntax, erase_typeSyntax, erase_typeSyntax, shape.erase_shift]

end

theorem Token.erase_shift (t : Token) : erase (shift d t) = erase t :=
  rfl

theorem erase_shift_tokens (ts : List Token) : erase (shift d ts) = erase ts :=
  erase_map_shift fun t _ => t.erase_shift d

theorem Using.erase_shift (u : Using) : erase (shift d u) = erase u := by
  obtain ⟨isGlobal, isStatic, alias?, name, span⟩ := u
  show (⟨isGlobal, isStatic, erase (shift d alias?), erase (shift d name), default⟩ : Using) = _
  rw [name.erase_shift]
  cases alias? <;> rfl

theorem erase_shift_usings (us : List Using) : erase (shift d us) = erase us :=
  erase_map_shift fun u _ => u.erase_shift d

end

end CommandModules

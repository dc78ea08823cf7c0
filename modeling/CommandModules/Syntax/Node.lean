/-
  Command modules — the nodes of a syntax tree.

  A node is a declaration or a part of one, seen without regard to where it
  hangs in the tree.

  * `Node.children` are the parts right below a node, list by list: of a unit, for
    instance, the using directives, then the attributes, then the declarations;
  * `Node.descendants` lists a node and all below it, parents before children,
    by keeping the nodes that are still to be visited;
  * `Node.preorder` is the same list, said by recursion on the tree.
-/
import CommandModules.Syntax.Declaration

namespace CommandModules

/-- A node of a syntax tree. -/
inductive Node where
  | unit (u : SourceUnit)
  | using_ (u : Using)
  | namespace_ (n : NamespaceDeclaration)
  | type (t : TypeDeclaration)
  | delegate (d : Delegate)
  | method (m : Method)
  | constructor (c : Constructor)
  | field (f : Field)
  | property (p : Property)
  | event (e : Event)
  | accessor (a : Accessor)
  | enumMember (m : EnumMember)
  | special (m : SpecialMember)
  | variable_ (v : Variable)
  | attributeSection (s : AttributeSection)
  | attribute_ (a : Attribute)
  | attributeArgument (a : AttributeArgument)
  | parameter (p : Parameter)
  | typeParameter (p : TypeParameter)
  | constraintClause (c : ConstraintClause)
  /-- a type that is referred to: of a base, a result, a parameter or a member -/
  | typeReference (t : TypeSyntax)

namespace Node

/-- The stretch of a node. -/
def span : Node → Span
  | unit n => n.span
  | using_ n => n.span
  | namespace_ n => n.span
  | type n => n.span
  | delegate n => n.span
  | method n => n.span
  | constructor n => n.span
  | field n => n.span
  | property n => n.span
  | event n => n.span
  | accessor n => n.span
  | enumMember n => n.span
  | special n => n.span
  | variable_ n => n.span
  | attributeSection n => n.span
  | attribute_ n => n.span
  | attributeArgument n => n.span
  | parameter n => n.span
  | typeParameter n => n.span
  | constraintClause n => n.span
  | typeReference n => n.span

/-- The name of a node's kind. -/
def kindName : Node → String
  | unit _ => "CompilationUnit"
  | using_ _ => "UsingDirective"
  | namespace_ _ => "NamespaceDeclaration"
  | type _ => "TypeDeclaration"
  | delegate _ => "DelegateDeclaration"
  | method _ => "MethodDeclaration"
  | constructor _ => "ConstructorDeclaration"
  | field _ => "FieldDeclaration"
  | property _ => "PropertyDeclaration"
  | event _ => "EventDeclaration"
  | accessor _ => "AccessorDeclaration"
  | enumMember _ => "EnumMemberDeclaration"
  | special _ => "MemberDeclaration"
  | variable_ _ => "VariableDeclarator"
  | attributeSection _ => "AttributeList"
  | attribute_ _ => "Attribute"
  | attributeArgument _ => "AttributeArgument"
  | parameter _ => "Parameter"
  | typeParameter _ => "TypeParameter"
  | constraintClause _ => "TypeParameterConstraintClause"
  | typeReference _ => "Type"

/-- The type declaration that the node is. -/
def typeDeclaration? : Node → Option TypeDeclaration
  | type t => some t
  | _ => none

/-- The node of a declaration. -/
def ofDeclaration : Declaration → Node
  | .namespace_ n => namespace_ n
  | .type t => type t
  | .delegate d => delegate d

/-- The node of a member. -/
def ofMember : Member → Node
  | .method m => method m
  | .constructor c => constructor c
  | .field f => field f
  | .property p => property p
  | .event e => event e
  | .enumMember m => enumMember m
  | .type t => type t
  | .delegate d => delegate d
  | .special m => special m

/-- The nodes right below a node. -/
def children : Node → List Node
  | unit u =>
    u.usings.map using_ ++ u.attributes.map attributeSection ++ u.members.map ofDeclaration
  | using_ _ => []
  | namespace_ n => n.usings.map using_ ++ n.members.map ofDeclaration
  | type t =>
    t.attributes.map attributeSection ++ t.typeParameters.map typeParameter ++
      (t.parameters?.getD []).map parameter ++ t.bases.map typeReference ++
      t.constraints.map constraintClause ++ t.members.map ofMember
  | delegate d =>
    d.attributes.map attributeSection ++ [typeReference d.returnType] ++
      d.typeParameters.map typeParameter ++ d.parameters.map parameter ++
      d.constraints.map constraintClause
  | method m =>
    m.attributes.map attributeSection ++ [typeReference m.returnType] ++
      m.typeParameters.map typeParameter ++ m.parameters.map parameter ++
      m.constraints.map constraintClause
  | constructor c => c.attributes.map attributeSection ++ c.parameters.map parameter
  | field f =>
    f.attributes.map attributeSection ++ [typeReference f.type] ++ f.declarators.map variable_
  | property p =>
    p.attributes.map attributeSection ++ [typeReference p.type] ++ p.accessors.map accessor
  | event e =>
    e.attributes.map attributeSection ++ [typeReference e.type] ++ e.declarators.map variable_ ++
      e.accessors.map accessor
  | accessor a => a.attributes.map attributeSection
  | enumMember m => m.attributes.map attributeSection
  | special m => m.attributes.map attributeSection ++ m.parameters.map parameter
  | variable_ _ => []
  | attributeSection s => s.attributes.map attribute_
  | attribute_ a => a.arguments.map attributeArgument
  | attributeArgument _ => []
  | parameter p => p.attributes.map attributeSection ++ [typeReference p.type]
  | typeParameter p => p.attributes.map attributeSection
  | constraintClause _ => []
  | typeReference _ => []

/-! ## Walking the tree -/

/-- The sizes of nodes that are still to be visited. -/
noncomputable def sizes : List Node → Nat
  | [] => 0
  | n :: ns => sizeOf n + sizes ns

theorem sizes_nil : sizes [] = 0 := rfl

theorem sizes_cons (n : Node) (ns : List Node) : sizes (n :: ns) = sizeOf n + sizes ns := rfl

theorem sizeOf_le_sizes {n : Node} {ns : List Node} (h : n ∈ ns) : sizeOf n ≤ sizes ns := by
  induction ns with
  | nil => cases h
  | cons m ns ih =>
    rw [sizes_cons]
    cases h with
    | head => omega
    | tail _ h => have := ih h; omega

theorem sizes_append (ns ms : List Node) : sizes (ns ++ ms) = sizes ns + sizes ms := by
  induction ns with
  | nil => simp [sizes_nil]
  | cons n ns ih =>
    rw [List.cons_append, sizes_cons, sizes_cons, ih]
    omega

theorem sizes_map_le {α : Type} [SizeOf α] (f : α → Node) (xs : List α)
    (h : ∀ x, sizeOf (f x) ≤ 1 + sizeOf x) : sizes (xs.map f) ≤ sizeOf xs := by
  induction xs with
  | nil => exact Nat.zero_le _
  | cons x xs ih =>
    have := h x
    rw [List.map_cons, sizes_cons, List.cons.sizeOf_spec]
    omega

theorem sizeOf_ofMember (m : Member) : sizeOf (ofMember m) ≤ 1 + sizeOf m := by
  cases m <;> simp [ofMember]

theorem sizeOf_ofDeclaration (d : Declaration) : sizeOf (ofDeclaration d) ≤ 1 + sizeOf d := by
  cases d <;> simp [ofDeclaration]

theorem sizeOf_pos (n : Node) : 0 < sizeOf n := by
  cases n <;> exact Nat.lt_of_lt_of_le Nat.one_pos (Nat.le_add_right 1 _)

theorem sizes_children_lt (n : Node) : sizes n.children < sizeOf n := by
  have using_le := fun xs => sizes_map_le using_ xs (by simp)
  have section_le := fun xs => sizes_map_le attributeSection xs (by simp)
  have declaration_le := fun xs => sizes_map_le ofDeclaration xs sizeOf_ofDeclaration
  have member_le := fun xs => sizes_map_le ofMember xs sizeOf_ofMember
  have typeParameter_le := fun xs => sizes_map_le typeParameter xs (by simp)
  have parameter_le := fun xs => sizes_map_le parameter xs (by simp)
  have reference_le := fun xs => sizes_map_le typeReference xs (by simp)
  have constraint_le := fun xs => sizes_map_le constraintClause xs (by simp)
  have variable_le := fun xs => sizes_map_le variable_ xs (by simp)
  have accessor_le := fun xs => sizes_map_le accessor xs (by simp)
  have attribute_le := fun xs => sizes_map_le attribute_ xs (by simp)
  have argument_le := fun xs => sizes_map_le attributeArgument xs (by simp)
  cases n with
  | unit u =>
    cases u with
    | mk us ss ds _ =>
      have := using_le us; have := section_le ss; have := declaration_le ds
      simp [children, sizes_append]; omega
  | namespace_ n =>
    cases n with
    | mk _ _ us ds _ =>
      have := using_le us; have := declaration_le ds
      simp [children, sizes_append]; omega
  | type t =>
    cases t with
    | mk ss _ _ _ tps ps? bs cs ms _ =>
      have := section_le ss; have := typeParameter_le tps
      have := reference_le bs; have := constraint_le cs; have := member_le ms
      cases ps? with
      | none => simp [children, sizes_append]; omega
      | some ps =>
        have := parameter_le ps
        simp [children, sizes_append]; omega
  | delegate d =>
    cases d with
    | mk ss _ _ _ tps ps cs _ =>
      have := section_le ss; have := typeParameter_le tps; have := parameter_le ps
      have := constraint_le cs
      simp [children, sizes_append, sizes_cons]; omega
  | method m =>
    cases m with
    | mk ss _ _ _ _ tps ps cs _ _ =>
      have := section_le ss; have := typeParameter_le tps; have := parameter_le ps
      have := constraint_le cs
      simp [children, sizes_append, sizes_cons]; omega
  | constructor c =>
    cases c with
    | mk ss _ _ ps _ _ _ =>
      have := section_le ss; have := parameter_le ps
      simp [children, sizes_append]; omega
  | field f =>
    cases f with
    | mk ss _ _ vs _ =>
      have := section_le ss; have := variable_le vs
      simp [children, sizes_append, sizes_cons]; omega
  | property p =>
    cases p with
    | mk ss _ _ _ _ as _ _ _ =>
      have := section_le ss; have := accessor_le as
      simp [children, sizes_append, sizes_cons]; omega
  | event e =>
    cases e with
    | mk ss _ _ vs as _ =>
      have := section_le ss; have := variable_le vs; have := accessor_le as
      simp [children, sizes_append, sizes_cons]; omega
  | accessor a =>
    cases a with
    | mk ss _ _ _ _ => have := section_le ss; simp [children]; omega
  | enumMember m =>
    cases m with
    | mk ss _ _ _ => have := section_le ss; simp [children]; omega
  | special m =>
    cases m with
    | mk _ ss _ ps _ =>
      have := section_le ss; have := parameter_le ps
      simp [children, sizes_append]; omega
  | attributeSection s =>
    cases s with
    | mk _ as _ => have := attribute_le as; simp [children]; omega
  | attribute_ a =>
    cases a with
    | mk _ args? _ =>
      cases args? with
      | none => exact sizeOf_pos _
      | some args =>
        cases args with
        | mk items _ =>
          have := argument_le items
          simp [children, Attribute.arguments]; omega
  | parameter p =>
    cases p with
    | mk ss _ _ _ _ _ =>
      have := section_le ss
      simp [children, sizes_append, sizes_cons, sizes_nil]; omega
  | typeParameter p =>
    cases p with
    | mk ss _ _ _ => have := section_le ss; simp [children]; omega
  | using_ _ => exact sizeOf_pos _
  | variable_ _ => exact sizeOf_pos _
  | attributeArgument _ => exact sizeOf_pos _
  | constraintClause _ => exact sizeOf_pos _
  | typeReference _ => exact sizeOf_pos _

theorem sizeOf_lt_of_mem_children {n m : Node} (h : m ∈ n.children) : sizeOf m < sizeOf n := by
  have := sizes_children_lt n
  have := sizeOf_le_sizes h
  omega

/-- The nodes on the stack `ns` and all below them: the top node is visited, and
    its children take its place. -/
def visit : List Node → List Node
  | [] => []
  | n :: ns => n :: visit (n.children ++ ns)
termination_by ns => sizes ns
decreasing_by
  have := sizes_children_lt n
  rw [sizes_append, sizes_cons]
  omega

/-- The node and all below it, parents before children. -/
def descendants (n : Node) : List Node :=
  visit [n]

/-- The node, then what is below each of its children. -/
def preorder (n : Node) : List Node :=
  n :: n.children.attach.flatMap fun m => preorder m.1
termination_by sizeOf n
decreasing_by exact sizeOf_lt_of_mem_children m.2

end Node

end CommandModules

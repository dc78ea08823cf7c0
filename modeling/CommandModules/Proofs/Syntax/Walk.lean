/-
  Command modules — the types that are met on a walk through a tree.

  A walk keeps the nodes that are still to be visited.  The types and delegates it
  meets are those of the text, in its order: a type before what is nested in it, and
  this before what follows the type.

  * `SourceUnit.declared` lists the types and delegates of a unit by recursion on its
    declarations;
  * `Node.descendants_eq`: a walk meets a node, and then what is below each of its children;
  * `Node.visit_declared`: a walk meets what is declared in each node in turn;
  * `SyntaxTree.nodes_declared`: so a walk through a tree meets what its unit declares.
-/
import CommandModules.Syntax.Tree

namespace CommandModules

/-! ## What a text declares -/

mutual

/-- A type, then what is nested in it. -/
def TypeDeclaration.declared : TypeDeclaration → List Declaration
  | t@⟨_, _, _, _, _, _, _, _, members, _⟩ => .type t :: Member.allDeclared members

/-- The types and delegates of a member. -/
def Member.declared : Member → List Declaration
  | .type t => t.declared
  | .delegate d => [.delegate d]
  | _ => []

/-- The types and delegates of members, in order. -/
def Member.allDeclared : List Member → List Declaration
  | [] => []
  | m :: ms => m.declared ++ Member.allDeclared ms

end

mutual

/-- The types and delegates in a namespace. -/
def NamespaceDeclaration.declared : NamespaceDeclaration → List Declaration
  | ⟨_, _, _, members, _⟩ => Declaration.allDeclared members

/-- The types and delegates of a declaration. -/
def Declaration.declared : Declaration → List Declaration
  | .namespace_ n => n.declared
  | .type t => t.declared
  | .delegate d => [.delegate d]

/-- The types and delegates of declarations, in order. -/
def Declaration.allDeclared : List Declaration → List Declaration
  | [] => []
  | d :: ds => d.declared ++ Declaration.allDeclared ds

end

theorem TypeDeclaration.declared_eq (t : TypeDeclaration) :
    t.declared = .type t :: Member.allDeclared t.members := by
  cases t
  rfl

theorem NamespaceDeclaration.declared_eq (n : NamespaceDeclaration) :
    n.declared = Declaration.allDeclared n.members := by
  cases n
  rfl

/-- The types and delegates of a unit, in the order of the text. -/
def SourceUnit.declared (u : SourceUnit) : List Declaration :=
  Declaration.allDeclared u.members

/-- The type that a declaration is of. -/
def Declaration.type? : Declaration → Option TypeDeclaration
  | .type t => some t
  | _ => none

/-- The types of a unit, in the order of the text. -/
def SourceUnit.types (u : SourceUnit) : List TypeDeclaration :=
  u.declared.filterMap Declaration.type?

namespace Node

/-- The type or delegate that a node declares. -/
def declares? : Node → Option Declaration
  | type t => some (.type t)
  | delegate d => some (.delegate d)
  | _ => none

/-- The types and delegates in a node. -/
def declared : Node → List Declaration
  | unit u => u.declared
  | namespace_ n => n.declared
  | type t => t.declared
  | delegate d => [.delegate d]
  | _ => []

end Node

/-! ## The walk -/

theorem Member.allDeclared_eq (ms : List Member) :
    Member.allDeclared ms = (ms.map Node.ofMember).flatMap Node.declared := by
  induction ms with
  | nil => rfl
  | cons m ms ih =>
    rw [Member.allDeclared, List.map_cons, List.flatMap_cons, ih]
    cases m <;> rfl

theorem Declaration.allDeclared_eq (ds : List Declaration) :
    Declaration.allDeclared ds = (ds.map Node.ofDeclaration).flatMap Node.declared := by
  induction ds with
  | nil => rfl
  | cons d ds ih =>
    rw [Declaration.allDeclared, List.map_cons, List.flatMap_cons, ih]
    cases d <;> rfl

namespace Node

/-- Nothing is declared in parts of other kinds. -/
theorem flatMap_declared {α : Type} (f : α → Node) (h : ∀ a, (f a).declared = []) (as : List α) :
    (as.map f).flatMap declared = [] := by
  rw [List.flatMap_map, List.flatMap_eq_nil_iff]
  exact fun a _ => h a

/-- A node declares what it is, then what its children declare. -/
theorem declared_eq (n : Node) :
    n.declared = n.declares?.toList ++ n.children.flatMap declared := by
  cases n with
  | unit u =>
    simp only [children, List.flatMap_append, ← Declaration.allDeclared_eq]
    rw [flatMap_declared using_ fun _ => rfl, flatMap_declared attributeSection fun _ => rfl]
    rfl
  | namespace_ n =>
    obtain ⟨_, _, _, members, _⟩ := n
    simp only [children, List.flatMap_append, ← Declaration.allDeclared_eq]
    rw [flatMap_declared using_ fun _ => rfl]
    rfl
  | type t =>
    obtain ⟨_, _, _, _, _, _, _, _, members, _⟩ := t
    simp only [children, List.flatMap_append, ← Member.allDeclared_eq]
    rw [flatMap_declared attributeSection fun _ => rfl, flatMap_declared typeParameter fun _ => rfl,
      flatMap_declared parameter fun _ => rfl, flatMap_declared typeReference fun _ => rfl,
      flatMap_declared constraintClause fun _ => rfl]
    rfl
  | _ =>
    simp [children, declared, declares?, flatMap_declared attributeSection fun _ => rfl,
      flatMap_declared typeParameter fun _ => rfl, flatMap_declared parameter fun _ => rfl,
      flatMap_declared constraintClause fun _ => rfl, flatMap_declared variable_ fun _ => rfl,
      flatMap_declared accessor fun _ => rfl, flatMap_declared attribute_ fun _ => rfl,
      flatMap_declared attributeArgument fun _ => rfl]

theorem mem_visit {ns : List Node} {n : Node} (h : n ∈ ns) : n ∈ visit ns := by
  fun_induction visit ns with
  | case1 => exact h
  | case2 m ns ih =>
    rcases List.mem_cons.1 h with rfl | h
    · exact List.mem_cons_self
    · exact List.mem_cons_of_mem _ (ih (List.mem_append_right _ h))

/-- A walk that meets a node meets its children. -/
theorem mem_visit_of_mem_children {ns : List Node} {n m : Node} (hn : n ∈ visit ns)
    (hm : m ∈ n.children) : m ∈ visit ns := by
  fun_induction visit ns with
  | case1 => cases hn
  | case2 k ns ih =>
    refine List.mem_cons_of_mem _ ?_
    rcases List.mem_cons.1 hn with rfl | hn
    · exact mem_visit (List.mem_append_left _ hm)
    · exact ih hn

/-- **What passes from nodes to their children** holds of all nodes that a walk meets. -/
theorem visit_forall {P : Node → Prop} (step : ∀ n, P n → ∀ m ∈ n.children, P m) {ns : List Node}
    (h : ∀ n ∈ ns, P n) : ∀ n ∈ visit ns, P n := by
  fun_induction visit ns with
  | case1 => exact h
  | case2 n ns ih =>
    obtain ⟨hn, hns⟩ := List.forall_mem_cons.1 h
    exact List.forall_mem_cons.2 ⟨hn, ih (List.forall_mem_append.2 ⟨step n hn, hns⟩)⟩

/-- **A walk meets what the nodes declare**, node by node. -/
theorem visit_declared (ns : List Node) :
    (visit ns).filterMap declares? = ns.flatMap declared := by
  fun_induction visit ns with
  | case1 => rfl
  | case2 n ns ih =>
    rw [List.filterMap_cons, ih, List.flatMap_append, List.flatMap_cons, declared_eq n,
      List.append_assoc]
    cases declares? n <;> rfl

/-- A walk through nodes is one through each of them in turn. -/
theorem visit_eq (ns : List Node) : visit ns = ns.flatMap preorder := by
  fun_induction visit ns with
  | case1 => rfl
  | case2 n ns ih =>
    rw [ih, List.flatMap_append, List.flatMap_cons, preorder, List.cons_append]
    simp

theorem descendants_eq_preorder (n : Node) : n.descendants = n.preorder := by
  rw [descendants, visit_eq, List.flatMap_singleton]

/-- A walk meets the node, and then what is below each of its children. -/
theorem descendants_eq (n : Node) : n.descendants = n :: n.children.flatMap descendants := by
  have h : descendants = preorder := funext descendants_eq_preorder
  rw [h, preorder]
  simp

theorem self_mem_descendants (n : Node) : n ∈ n.descendants :=
  mem_visit List.mem_cons_self

/-- What holds of a node if it holds of its children holds of all nodes. -/
theorem descent {P : Node → Prop} (step : ∀ n, (∀ m ∈ n.children, P m) → P n) (n : Node) : P n := by
  induction n using preorder.induct with
  | case1 n ih => exact step n fun m hm => ih ⟨m, hm⟩

theorem declares?_type? (n : Node) :
    n.declares?.bind Declaration.type? = n.typeDeclaration? := by
  cases n <;> rfl

end Node

namespace SyntaxTree

theorem root_mem_nodes (t : SyntaxTree) : .unit t.root ∈ t.nodes :=
  Node.mem_visit List.mem_cons_self

theorem children_mem_nodes {t : SyntaxTree} {n m : Node} (hn : n ∈ t.nodes)
    (hm : m ∈ n.children) : m ∈ t.nodes :=
  Node.mem_visit_of_mem_children hn hm

theorem nodes_forall {P : Node → Prop} {t : SyntaxTree} (step : ∀ n, P n → ∀ m ∈ n.children, P m)
    (h : P (.unit t.root)) : ∀ n ∈ t.nodes, P n :=
  Node.visit_forall step (List.forall_mem_singleton.2 h)

/-- A walk through a tree meets what its unit declares, in the order of the text. -/
theorem nodes_declared (t : SyntaxTree) : t.nodes.filterMap Node.declares? = t.root.declared := by
  rw [nodes, Node.descendants, Node.visit_declared, List.flatMap_singleton]
  rfl

/-- The types that it meets are those of the unit. -/
theorem typeDeclarations_eq (t : SyntaxTree) : t.typeDeclarations = t.root.types := by
  rw [SourceUnit.types, ← nodes_declared, List.filterMap_filterMap, typeDeclarations]
  exact congrArg (List.filterMap · t.nodes) (funext fun n => (Node.declares?_type? n).symm)

end SyntaxTree

end CommandModules

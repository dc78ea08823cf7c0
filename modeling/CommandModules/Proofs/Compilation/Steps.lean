/-
  Command modules — going through a tree, step by step.

  * `Declaring.Step` are the steps that going through a tree consists of: a type or
    delegate of the tree is declared under one of the names of the tree, its bases are put
    aside, using directives of the tree are noted, a namespace of the tree is entered;
  * `declareTree_steps`: whatever the tree, going through it is a sequence of such steps,
    so what each step keeps is kept;
  * `Declaring.Step.extends`: no step takes anything away from the table.
-/
import CommandModules.Proofs.Symbol.FullName
import CommandModules.Proofs.Symbol.Table
import CommandModules.Proofs.Syntax.Walk

namespace CommandModules

open Relation

/-- The using directives stand together in the tree. -/
def SyntaxTree.HasUsings (tree : SyntaxTree) (us : List Using) : Prop :=
  us = tree.root.usings ∨ ∃ d, Node.namespace_ d ∈ tree.nodes ∧ us = d.usings

/-- The surroundings of a place in the tree, in the namespace with this path; their
    namespaces are in the table. -/
structure Surroundings.Within (w : Surroundings) (path : List String) (number : Nat)
    (tree : SyntaxTree) (origin : Origin) (t : SymbolTable) : Prop where
  number : w.number = number
  tree : w.tree = tree
  origin : w.origin = origin
  namespace_ : t.namespaces.path? w.namespace_ = some path
  usings : ∀ b ∈ w.usings, b.namespace_ < t.namespaces.nodes.length ∧ w.tree.HasUsings b.usings

/-- The type that a declaration introduces. -/
def Surroundings.introduces? (w : Surroundings) (outer? : Option TypeId) :
    Declaration → Option NewType
  | .type t => some (w.ofType outer? t)
  | .delegate d => some (w.ofDelegate outer? d)
  | .namespace_ _ => none

/-- The type around a declaration in the namespace, if any, is in the table and has this
    name. -/
structure SymbolTable.HoldsOuter (t : SymbolTable) (path : List String) (outer? : Option TypeId)
    (name? : Option FullName) : Prop where
  eq : outer? = name?.map FullName.id
  path : ∀ name, name? = some name → name.path = path
  isSome : ∀ outer, outer? = some outer → (t.get? outer).isSome

/-- One step on the way through a tree. -/
inductive Declaring.Step (number : Nat) (tree : SyntaxTree) (origin : Origin) :
    Declaring → Declaring → Prop
  | declare {s : Declaring} {w : Surroundings} {path : List String} {outer? : Option TypeId}
      {x : Declaration} {d : NewType} {n : FullName}
      (hw : w.Within path number tree origin s.table)
      (ho : ∀ outer, outer? = some outer → (s.table.get? outer).isSome)
      (hx : Node.ofDeclaration x ∈ tree.nodes) (hd : w.introduces? outer? x = some d)
      (hn : n ∈ tree.fullNames) (hname : d.IsNamed s.table n) :
      Step number tree origin s (s.declare w d).2
  | putAside {s : Declaring} {w : Surroundings} {path : List String} {outer? : Option TypeId}
      {id : TypeId} {t : TypeDeclaration} (hw : w.Within path number tree origin s.table)
      (ho : ∀ outer, outer? = some outer → (s.table.get? outer).isSome)
      (ht : Node.type t ∈ tree.nodes) (hid : (tree.key t.span, id) ∈ s.found.accepted)
      (hkind : s.table.kind? id = some t.kind) :
      Step number tree origin s (s.putAside w outer? id t)
  | noteUsings {s : Declaring} {us : List Using} (hus : tree.HasUsings us) :
      Step number tree origin s (s.noteUsings us)
  | enterNamespace {s : Declaring} {n : Nat} {d : NamespaceDeclaration}
      (hn : n < s.table.namespaces.nodes.length) (hd : Node.namespace_ d ∈ tree.nodes) :
      Step number tree origin s (s.enterNamespace n d.name.path).1

section
variable {number : Nat} {tree : SyntaxTree} {origin : Origin} {s s' : Declaring}
  {w : Surroundings} {t t' : SymbolTable} {outer? : Option TypeId} {id outer : TypeId}
  {path : List String} {name? : Option FullName}

namespace Declaring

/-- What declaring a type gives. -/
theorem declare_cases (s : Declaring) (w : Surroundings) (d : NewType) :
    (∃ id table, s.table.declare d = .ok (id, table) ∧ s.declare w d = (some id,
      ⟨table, { s.found with accepted := s.found.accepted ++ [(d.site.key, id)] }⟩)) ∨
    (∃ e, s.table.declare d = .error e ∧ (s.declare w d).1 = none ∧
      (s.declare w d).2.table = s.table ∧
      (s.declare w d).2.found.accepted = s.found.accepted) := by
  unfold declare
  rcases h : s.table.declare d with e | ⟨id, table⟩
  · refine .inr ⟨e, rfl, ?_⟩
    dsimp only
    cases w.origin <;> exact ⟨rfl, rfl, rfl⟩
  · exact .inl ⟨id, table, rfl, rfl⟩

theorem declare_extends (s : Declaring) (w : Surroundings) (d : NewType) :
    s.table.Extends (s.declare w d).2.table := by
  obtain ⟨id, table, h, he⟩ | ⟨e, -, -, h, -⟩ := declare_cases s w d
  · rw [he]
    exact .declare h
  · rw [h]
    exact .refl _

theorem putAside_table (s : Declaring) (w : Surroundings) (outer? : Option TypeId) (id : TypeId)
    (t : TypeDeclaration) : (s.putAside w outer? id t).table = s.table := by
  unfold putAside
  split <;> rfl

theorem enterNamespace_extends (s : Declaring) (n : Nat) (path : List String) :
    s.table.Extends (s.enterNamespace n path).1.table :=
  .namespaces (Namespaces.createPath_paths _ _ _)

/-- **No step takes anything away.** -/
theorem Step.extends (h : Step number tree origin s s') : s.table.Extends s'.table := by
  cases h with
  | declare => exact declare_extends s _ _
  | putAside => rw [putAside_table]; exact .refl _
  | noteUsings => exact .refl _
  | enterNamespace => exact enterNamespace_extends s _ _

theorem extends_of_steps (h : ReflTransGen (Step number tree origin) s s') :
    s.table.Extends s'.table := by
  induction h with
  | refl => exact .refl _
  | tail _ h ih => exact ih.trans h.extends

end Declaring

/-! ## Places stay places -/

theorem SymbolTable.Extends.length_le (h : t.Extends t') :
    t.namespaces.nodes.length ≤ t'.namespaces.nodes.length := by
  simpa using h.namespace_.length_le

theorem Surroundings.Within.mono (hw : w.Within path number tree origin t) (h : t.Extends t') :
    w.Within path number tree origin t' :=
  ⟨hw.number, hw.tree, hw.origin, Namespaces.path?_of_prefix h.namespace_ hw.namespace_,
    fun b hb => ⟨Nat.lt_of_lt_of_le (hw.usings b hb).1 h.length_le, (hw.usings b hb).2⟩⟩

theorem Surroundings.Within.lt_length (hw : w.Within path number tree origin t) :
    w.namespace_ < t.namespaces.nodes.length :=
  Namespaces.lt_length_iff.2 ⟨path, hw.namespace_⟩

theorem Surroundings.Within.withUsings (hw : w.Within path number tree origin t)
    {us : List Using} (hus : tree.HasUsings us) :
    (w.withUsings us).Within path number tree origin t := by
  unfold Surroundings.withUsings
  split
  · exact hw
  · exact ⟨hw.number, hw.tree, hw.origin, hw.namespace_,
      List.forall_mem_cons.2 ⟨⟨hw.lt_length, hw.tree ▸ hus⟩, hw.usings⟩⟩

theorem SymbolTable.HoldsOuter.none : t.HoldsOuter path none none :=
  ⟨rfl, nofun, nofun⟩

theorem SymbolTable.HoldsOuter.mono (ho : t.HoldsOuter path outer? name?) (h : t.Extends t') :
    t'.HoldsOuter path outer? name? :=
  ⟨ho.eq, ho.path, fun outer he => h.get?_isSome (ho.isSome outer he)⟩

/-- What is declared at a place is named by it. -/
theorem SymbolTable.HoldsOuter.isNamed (ho : t.HoldsOuter path outer? name?)
    (hw : w.Within path number tree origin t) (kind : TypeKind) (i : Ident) (arity : Nat)
    (modifiers : WrittenModifiers) (span : Span) :
    (w.newType outer? kind i arity modifiers span).IsNamed t
      (.inside path name? ⟨i.value, arity⟩) where
  part := (FullName.part_inside ..).symm
  path := by
    rw [FullName.path_inside ho.path]
    exact hw.namespace_
  outer := by
    rw [FullName.outer?_inside]
    exact ho.eq

/-- A type that was declared at a place holds what is declared in it. -/
theorem SymbolTable.HoldsOuter.declare (ho : t.HoldsOuter path outer? name?)
    (hw : w.Within path number tree origin t) {kind : TypeKind} {i : Ident} {arity : Nat}
    {modifiers : WrittenModifiers} {span : Span}
    (hd : t.declare (w.newType outer? kind i arity modifiers span) = .ok (id, t')) :
    t'.HoldsOuter path (some id) (some (.inside path name? ⟨i.value, arity⟩)) := by
  have hname := ho.isNamed hw kind i arity modifiers span
  refine ⟨?_, ?_, ?_⟩
  · exact congrArg some ((SymbolTable.declare_cases hd).1.trans (SymbolTable.idOf_eq hname))
  · rintro _ ⟨⟩
    exact FullName.path_inside ho.path
  · rintro _ ⟨⟩
    obtain ⟨x, hx, -⟩ := SymbolTable.declare_has hd
    rw [hx]
    rfl

/-! ## Types -/

/-- Nothing more is done for a type that is refused; else its bases are put aside and
    what is nested in it is declared. -/
theorem declareType_eq (w : Surroundings) (outer? : Option TypeId) (s : Declaring)
    (t : TypeDeclaration) :
    declareType w outer? s t =
      match s.declare w (w.ofType outer? t) with
      | (some id, s) => declareMembers w id (s.putAside w outer? id t) t.members
      | (none, s) => s := by
  obtain ⟨_, _, _, _, _, _, _, _, members, _⟩ := t
  rfl

theorem TypeDeclaration.fullNames_eq (path : List String) (outer? : Option FullName)
    (t : TypeDeclaration) : t.fullNames path outer? =
      .inside path outer? t.namePart :: Member.allFullNames path (.inside path outer? t.namePart) t.members := by
  obtain ⟨_, _, _, _, _, _, _, _, members, _⟩ := t
  rfl

/-- The bases of a type that is accepted are put aside in a step, and it holds what is
    declared in it. -/
theorem Declaring.declare_accepted (hw : w.Within path number tree origin s.table)
    (ho : s.table.HoldsOuter path outer? name?) {t : TypeDeclaration} (ht : Node.type t ∈ tree.nodes)
    (he : s.declare w (w.ofType outer? t) = (some id, s')) :
    Step number tree origin s' (s'.putAside w outer? id t) ∧
      (s'.putAside w outer? id t).table.HoldsOuter path (some id)
        (some (.inside path name? t.namePart)) := by
  obtain ⟨id', table, hd, hd'⟩ | ⟨e, -, hnone, -, -⟩ := declare_cases s w (w.ofType outer? t)
  · obtain ⟨hid, hs'⟩ := Prod.mk.inj (he.symm.trans hd')
    obtain rfl := Option.some_inj.1 hid
    have htable : s'.table = table := by rw [hs']
    have hmem : (tree.key t.span, id) ∈ s'.found.accepted := by
      rw [hs', ← hw.tree]
      exact List.mem_append_right _ (List.mem_singleton.2 rfl)
    have hext : s.table.Extends s'.table := htable ▸ .declare hd
    have hkind : s'.table.kind? id = some t.kind := by
      obtain ⟨y, hy, hhas⟩ := SymbolTable.declare_has hd
      rw [htable, SymbolTable.kind?, hy]
      exact congrArg some hhas.kind
    have h₂ := Step.putAside (hw.mono hext) (ho.mono hext).isSome ht hmem hkind
    exact ⟨h₂, (htable ▸ ho.declare hw hd : s'.table.HoldsOuter ..).mono h₂.extends⟩
  · rw [he] at hnone
    cases hnone

/-- The type itself is declared in a step. -/
theorem Declaring.declare_step (hw : w.Within path number tree origin s.table)
    (ho : s.table.HoldsOuter path outer? name?) {t : TypeDeclaration} (ht : Node.type t ∈ tree.nodes)
    (hn : FullName.inside path name? t.namePart ∈ tree.fullNames) :
    Step number tree origin s (s.declare w (w.ofType outer? t)).2 :=
  .declare (x := .type t) hw ho.isSome ht rfl hn (ho.isNamed hw ..)

/-- What follows when the type itself is declared are steps if its members are declared in
    steps. -/
theorem declareType_steps_of_members (hw : w.Within path number tree origin s.table)
    (ho : s.table.HoldsOuter path outer? name?) {t : TypeDeclaration} (ht : Node.type t ∈ tree.nodes)
    (hn : FullName.inside path name? t.namePart ∈ tree.fullNames)
    (hms : ∀ {s' : Declaring} {id : TypeId}, w.Within path number tree origin s'.table →
      s'.table.HoldsOuter path (some id) (some (.inside path name? t.namePart)) →
      ReflTransGen (Declaring.Step number tree origin) s' (declareMembers w id s' t.members)) :
    ReflTransGen (Declaring.Step number tree origin) (s.declare w (w.ofType outer? t)).2
      (declareType w outer? s t) := by
  have h₁ := Declaring.declare_step hw ho ht hn
  rw [declareType_eq]
  rcases he : s.declare w (w.ofType outer? t) with ⟨_ | id, s'⟩
  · exact .refl
  · rw [he] at h₁
    obtain ⟨h₂, hin⟩ := Declaring.declare_accepted hw ho ht he
    exact .head h₂ (hms ((hw.mono h₁.extends).mono h₂.extends) hin)

mutual

theorem declareType_steps {s : Declaring} {outer? : Option TypeId} {name? : Option FullName}
    (hw : w.Within path number tree origin s.table) (ho : s.table.HoldsOuter path outer? name?) :
    (t : TypeDeclaration) → Node.type t ∈ tree.nodes →
      (∀ n ∈ t.fullNames path name?, n ∈ tree.fullNames) →
      ReflTransGen (Declaring.Step number tree origin) s (declareType w outer? s t)
  | ⟨_, _, _, _, _, _, _, _, members, _⟩, ht, hn =>
    .head (Declaring.declare_step hw ho ht (hn _ List.mem_cons_self))
      (declareType_steps_of_members hw ho ht (hn _ List.mem_cons_self) fun hw' ho' =>
        declareMembers_steps hw' ho' members (fun _ hm => SyntaxTree.children_mem_nodes ht
          (List.mem_append_right _ (List.mem_map_of_mem hm))) fun n h => hn n (List.mem_cons_of_mem _ h))

theorem declareMember_steps {s : Declaring} {outer : TypeId} {name : FullName}
    (hw : w.Within path number tree origin s.table)
    (ho : s.table.HoldsOuter path (some outer) (some name)) :
    (m : Member) → Node.ofMember m ∈ tree.nodes →
      (∀ n ∈ m.fullNames path name, n ∈ tree.fullNames) →
      ReflTransGen (Declaring.Step number tree origin) s (declareMember w outer s m)
  | .type t, hm, hn => declareType_steps hw ho t hm hn
  | .delegate d, hm, hn => .single (.declare (x := .delegate d) hw ho.isSome hm rfl
      (hn _ List.mem_cons_self) (ho.isNamed hw ..))
  | .method _, _, _ | .constructor _, _, _ | .field _, _, _ | .property _, _, _ | .event _, _, _
  | .enumMember _, _, _ | .special _, _, _ => .refl

theorem declareMembers_steps {s : Declaring} {outer : TypeId} {name : FullName}
    (hw : w.Within path number tree origin s.table)
    (ho : s.table.HoldsOuter path (some outer) (some name)) :
    (ms : List Member) → (∀ m ∈ ms, Node.ofMember m ∈ tree.nodes) →
      (∀ n ∈ Member.allFullNames path name ms, n ∈ tree.fullNames) →
      ReflTransGen (Declaring.Step number tree origin) s (declareMembers w outer s ms)
  | [], _, _ => .refl
  | m :: ms, h, hn => by
    have h₁ := declareMember_steps hw ho m (h m List.mem_cons_self)
      fun n hm => hn n (List.mem_append_left _ hm)
    have he := Declaring.extends_of_steps h₁
    exact h₁.trans (declareMembers_steps (hw.mono he) (ho.mono he) ms
      (fun m hm => h m (List.mem_cons_of_mem _ hm)) fun n hm => hn n (List.mem_append_right _ hm))

end

/-- What follows when the type itself is declared are steps. -/
theorem declareType_steps_behind (hw : w.Within path number tree origin s.table)
    (ho : s.table.HoldsOuter path outer? name?) {t : TypeDeclaration} (ht : Node.type t ∈ tree.nodes)
    (hn : ∀ n ∈ t.fullNames path name?, n ∈ tree.fullNames) :
    ReflTransGen (Declaring.Step number tree origin) (s.declare w (w.ofType outer? t)).2
      (declareType w outer? s t) := by
  rw [t.fullNames_eq] at hn
  exact declareType_steps_of_members hw ho ht (hn _ List.mem_cons_self) fun hw' ho' =>
    declareMembers_steps hw' ho' t.members (fun _ hm => SyntaxTree.children_mem_nodes ht
      (List.mem_append_right _ (List.mem_map_of_mem hm))) fun n h => hn n (List.mem_cons_of_mem _ h)

/-! ## Namespaces and units -/

theorem declareNamespace_eq (w : Surroundings) (s : Declaring) (d : NamespaceDeclaration) :
    declareNamespace w s d =
      declareAll ({ w with namespace_ := (s.enterNamespace w.namespace_ d.name.path).2 }.withUsings
        d.usings) ((s.enterNamespace w.namespace_ d.name.path).1.noteUsings d.usings) d.members := by
  obtain ⟨_, _, _, members, _⟩ := d
  rfl

theorem Surroundings.within_enter (hw : w.Within path number tree origin s.table)
    (names : List String) :
    Surroundings.Within { w with namespace_ := (s.enterNamespace w.namespace_ names).2 }
      (path ++ names) number tree origin (s.enterNamespace w.namespace_ names).1.table := by
  have hm := hw.mono (Declaring.enterNamespace_extends s w.namespace_ names)
  exact ⟨hw.number, hw.tree, hw.origin, Namespaces.createPath_path? hw.namespace_, hm.usings⟩

mutual

theorem declareNamespace_steps {path : List String} {s : Declaring} {w : Surroundings}
    (hw : w.Within path number tree origin s.table) :
    (d : NamespaceDeclaration) → Node.namespace_ d ∈ tree.nodes →
      (∀ n ∈ d.fullNames path, n ∈ tree.fullNames) →
      ReflTransGen (Declaring.Step number tree origin) s (declareNamespace w s d)
  | ⟨name, _, us, members, _⟩, hd, hn => by
    have hus : tree.HasUsings us := .inr ⟨_, hd, rfl⟩
    have hin := (Surroundings.within_enter hw name.path).withUsings hus
    refine .head (.enterNamespace hw.lt_length hd) (.head (.noteUsings hus) ?_)
    exact declareAll_steps (s := (s.enterNamespace w.namespace_ name.path).1.noteUsings us) hin
      members (fun x hx => SyntaxTree.children_mem_nodes hd
        (List.mem_append_right _ (List.mem_map_of_mem hx))) hn

theorem declareOne_steps {path : List String} {s : Declaring} {w : Surroundings}
    (hw : w.Within path number tree origin s.table) :
    (x : Declaration) → Node.ofDeclaration x ∈ tree.nodes →
      (∀ n ∈ x.fullNames path, n ∈ tree.fullNames) →
      ReflTransGen (Declaring.Step number tree origin) s (declareOne w s x)
  | .namespace_ d, hx, hn => declareNamespace_steps hw d hx hn
  | .type t, hx, hn => declareType_steps hw .none t hx hn
  | .delegate d, hx, hn =>
    have ho : s.table.HoldsOuter path none none := .none
    .single (.declare (x := .delegate d) hw ho.isSome hx rfl (hn _ List.mem_cons_self)
      (ho.isNamed hw ..))

theorem declareAll_steps {path : List String} {s : Declaring} {w : Surroundings}
    (hw : w.Within path number tree origin s.table) :
    (xs : List Declaration) → (∀ x ∈ xs, Node.ofDeclaration x ∈ tree.nodes) →
      (∀ n ∈ Declaration.allFullNames path xs, n ∈ tree.fullNames) →
      ReflTransGen (Declaring.Step number tree origin) s (declareAll w s xs)
  | [], _, _ => .refl
  | x :: xs, h, hn => by
    have h₁ := declareOne_steps hw x (h x List.mem_cons_self)
      fun n hm => hn n (List.mem_append_left _ hm)
    exact h₁.trans (declareAll_steps (hw.mono (Declaring.extends_of_steps h₁)) xs
      (fun x hx => h x (List.mem_cons_of_mem _ hx)) fun n hm => hn n (List.mem_append_right _ hm))

end

/-- **Going through a tree is a sequence of steps.** -/
theorem declareTree_steps (number : Nat) (tree : SyntaxTree) (origin : Origin)
    (ht : t.namespaces.path? Namespaces.root = some []) :
    ReflTransGen (Declaring.Step number tree origin) ⟨t, .empty⟩
      ⟨(declareTree t number tree origin).1, (declareTree t number tree origin).2⟩ := by
  have hw : Surroundings.Within ⟨number, tree, origin, Namespaces.root, []⟩ [] number tree origin t :=
    ⟨rfl, rfl, rfl, ht, by simp⟩
  have hus : tree.HasUsings tree.root.usings := .inl rfl
  refine .head (.noteUsings hus) ?_
  exact declareAll_steps (s := (Declaring.mk t .empty).noteUsings tree.root.usings)
    (hw.withUsings hus) tree.root.members (fun x hx =>
      SyntaxTree.children_mem_nodes tree.root_mem_nodes
        (List.mem_append_right _ (List.mem_map_of_mem hx))) fun _ h => h

end

end CommandModules

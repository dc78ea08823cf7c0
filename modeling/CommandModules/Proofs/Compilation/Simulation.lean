/-
  Command modules — two runs through a tree.

  A tree is gone through twice, under two numbers and with two tables.

  * `Simulation` is what may hold between the two runs: between their states, and between the
    places at which they are;
  * `Simulation.IsKept`: the runs keep it, whatever they do at a place of the tree;
  * `Simulation.IsKept.tree_kept`: then it holds behind the tree.
-/
import CommandModules.Proofs.Compilation.Steps

namespace CommandModules

open Relation

/-- What is compared of two runs through a tree. -/
structure Simulation (tree : SyntaxTree) (origin : Origin) where
  /-- the number of the tree in the first run -/
  number : Nat
  /-- the number of the tree in the second run -/
  number' : Nat
  /-- how the states of the runs are related -/
  State : Declaring → Declaring → Prop
  /-- how the places of the runs are related, with their tables -/
  Around : SymbolTable → SymbolTable → Surroundings → Surroundings → Prop
  /-- the runs that count -/
  Ok : Declaring → Prop

namespace Simulation

variable {tree : SyntaxTree} {origin : Origin} {σ : Simulation tree origin} {path : List String}
  {s s' u u' : Declaring} {w w' : Surroundings} {t t' : SymbolTable} {outer? : Option TypeId}
  {name? : Option FullName}

/-- Both runs are at the same place of the tree, in the namespace with this path. -/
structure At (σ : Simulation tree origin) (path : List String) (s s' : Declaring)
    (w w' : Surroundings) : Prop where
  state : σ.State s s'
  around : σ.Around s.table s'.table w w'
  left : w.Within path σ.number tree origin s.table
  right : w'.Within path σ.number' tree origin s'.table

/-- Both tables hold the type around a declaration. -/
structure HoldOuter (path : List String) (outer? : Option TypeId) (name? : Option FullName)
    (t t' : SymbolTable) : Prop where
  left : t.HoldsOuter path outer? name?
  right : t'.HoldsOuter path outer? name?

theorem HoldOuter.mono (h : HoldOuter path outer? name? t t') {v v' : SymbolTable}
    (ht : t.Extends v) (ht' : t'.Extends v') : HoldOuter path outer? name? v v' :=
  ⟨h.left.mono ht, h.right.mono ht'⟩

/-- Two runs that are related stay related. -/
structure IsKept (σ : Simulation tree origin) : Prop where
  ok : ∀ {number s s'}, Declaring.Step number tree origin s s' → σ.Ok s' → σ.Ok s
  mono : ∀ {t t' v v' w w'}, σ.Around t t' w w' → t.Extends v → t'.Extends v' → σ.Around v v' w w'
  declare : ∀ {path s s' w w' outer? name?}, σ.At path s s' w w' →
    HoldOuter path outer? name? s.table s'.table → ∀ kind i arity modifiers span,
    FullName.inside path name? ⟨Ident.value i, arity⟩ ∈ tree.fullNames →
    let r := s.declare w (w.newType outer? kind i arity modifiers span)
    let r' := s'.declare w' (w'.newType outer? kind i arity modifiers span)
    σ.Ok r.2 → σ.Ok r'.2 → r'.1 = r.1 ∧ σ.State r.2 r'.2
  putAside : ∀ {path s s' w w'}, σ.At path s s' w w' → ∀ outer? id t,
    σ.State (s.putAside w outer? id t) (s'.putAside w' outer? id t)
  noteUsings : ∀ {s s'}, σ.State s s' → ∀ us, σ.State (s.noteUsings us) (s'.noteUsings us)
  withUsings : ∀ {path s s' w w'}, σ.At path s s' w w' → ∀ us,
    σ.Around s.table s'.table (w.withUsings us) (w'.withUsings us)
  enterNamespace : ∀ {path s s' w w'}, σ.At path s s' w w' → ∀ names,
    let r := s.enterNamespace w.namespace_ names
    let r' := s'.enterNamespace w'.namespace_ names
    σ.State r.1 r'.1 ∧
      σ.Around r.1.table r'.1.table { w with namespace_ := r.2 } { w' with namespace_ := r'.2 }

namespace IsKept

variable (hσ : σ.IsKept)
include hσ

theorem ok_of_steps {number : Nat} (h : ReflTransGen (Declaring.Step number tree origin) s s')
    (hs : σ.Ok s') : σ.Ok s := by
  induction h with
  | refl => exact hs
  | tail _ h ih => exact ih (hσ.ok h hs)

/-- Once they have gone on, the runs are still at a place. -/
theorem at_of_state (h : σ.At path s s' w w') (ht : s.table.Extends u.table)
    (ht' : s'.table.Extends u'.table) (hu : σ.State u u') : σ.At path u u' w w' :=
  ⟨hu, hσ.mono h.around ht ht', h.left.mono ht, h.right.mono ht'⟩

theorem at_withUsings (h : σ.At path s s' w w') {us : List Using} (hus : tree.HasUsings us) :
    σ.At path (s.noteUsings us) (s'.noteUsings us) (w.withUsings us) (w'.withUsings us) :=
  ⟨hσ.noteUsings h.state us, hσ.withUsings h us, h.left.withUsings hus, h.right.withUsings hus⟩

/-! ## Types -/

theorem type_kept_of_members (h : σ.At path s s' w w') (ho : HoldOuter path outer? name? s.table s'.table)
    {t : TypeDeclaration} (ht : Node.type t ∈ tree.nodes)
    (hn : ∀ n ∈ t.fullNames path name?, n ∈ tree.fullNames)
    (hok : σ.Ok (declareType w outer? s t)) (hok' : σ.Ok (declareType w' outer? s' t))
    (hms : ∀ {u u' : Declaring} {id : TypeId}, σ.At path u u' w w' →
      HoldOuter path (some id) (some (.inside path name? t.namePart)) u.table u'.table →
      σ.Ok (declareMembers w id u t.members) → σ.Ok (declareMembers w' id u' t.members) →
      σ.State (declareMembers w id u t.members) (declareMembers w' id u' t.members)) :
    σ.State (declareType w outer? s t) (declareType w' outer? s' t) := by
  have hin : FullName.inside path name? t.namePart ∈ tree.fullNames :=
    hn _ (t.fullNames_eq path name? ▸ List.mem_cons_self)
  have hstep := Declaring.declare_step h.left ho.left ht hin
  have hstep' := Declaring.declare_step h.right ho.right ht hin
  obtain ⟨hid, hstate⟩ := hσ.declare h ho t.kind t.name t.arity t.modifiers t.span hin
    (hσ.ok_of_steps (declareType_steps_behind h.left ho.left ht hn) hok)
    (hσ.ok_of_steps (declareType_steps_behind h.right ho.right ht hn) hok')
  have hat := hσ.at_of_state h hstep.extends hstep'.extends hstate
  rw [declareType_eq] at hok hok' ⊢
  rw [declareType_eq]
  rcases he : s.declare w (w.ofType outer? t) with ⟨id?, u⟩
  rcases he' : s'.declare w' (w'.ofType outer? t) with ⟨id'?, u'⟩
  obtain rfl : id'? = id? := by
    have hid : (s'.declare w' (w'.ofType outer? t)).1 = (s.declare w (w.ofType outer? t)).1 := hid
    rwa [he, he'] at hid
  rw [he] at hok hat
  rw [he'] at hok' hat
  cases id'? with
  | none => exact hat.state
  | some id =>
    obtain ⟨h₂, hout⟩ := Declaring.declare_accepted h.left ho.left ht he
    obtain ⟨h₂', hout'⟩ := Declaring.declare_accepted h.right ho.right ht he'
    exact hms (hσ.at_of_state hat h₂.extends h₂'.extends (hσ.putAside hat outer? id t)) ⟨hout, hout'⟩
      hok hok'

mutual

theorem type_kept {s s' : Declaring} {outer? : Option TypeId} {name? : Option FullName}
    (h : σ.At path s s' w w') (ho : HoldOuter path outer? name? s.table s'.table) :
    (t : TypeDeclaration) → Node.type t ∈ tree.nodes →
      (∀ n ∈ t.fullNames path name?, n ∈ tree.fullNames) →
      σ.Ok (declareType w outer? s t) → σ.Ok (declareType w' outer? s' t) →
      σ.State (declareType w outer? s t) (declareType w' outer? s' t)
  | ⟨_, _, _, _, _, _, _, _, members, _⟩, ht, hn, hok, hok' =>
    hσ.type_kept_of_members h ho ht hn hok hok' fun hat hout hok hok' =>
      members_kept hat hout members (fun _ hm => SyntaxTree.children_mem_nodes ht
        (List.mem_append_right _ (List.mem_map_of_mem hm)))
        (fun n hmem => hn n (List.mem_cons_of_mem _ hmem)) hok hok'

theorem member_kept {s s' : Declaring} {outer : TypeId} {name : FullName} (h : σ.At path s s' w w')
    (ho : HoldOuter path (some outer) (some name) s.table s'.table) :
    (m : Member) → Node.ofMember m ∈ tree.nodes → (∀ n ∈ m.fullNames path name, n ∈ tree.fullNames) →
      σ.Ok (declareMember w outer s m) → σ.Ok (declareMember w' outer s' m) →
      σ.State (declareMember w outer s m) (declareMember w' outer s' m)
  | .type t, hm, hn, hok, hok' => type_kept h ho t hm hn hok hok'
  | .delegate _, _, hn, hok, hok' =>
    (hσ.declare h ho _ _ _ _ _ (hn _ List.mem_cons_self) hok hok').2
  | .method _, _, _, _, _ | .constructor _, _, _, _, _ | .field _, _, _, _, _
  | .property _, _, _, _, _ | .event _, _, _, _, _ | .enumMember _, _, _, _, _
  | .special _, _, _, _, _ => h.state

theorem members_kept {s s' : Declaring} {outer : TypeId} {name : FullName} (h : σ.At path s s' w w')
    (ho : HoldOuter path (some outer) (some name) s.table s'.table) :
    (ms : List Member) → (∀ m ∈ ms, Node.ofMember m ∈ tree.nodes) →
      (∀ n ∈ Member.allFullNames path name ms, n ∈ tree.fullNames) →
      σ.Ok (declareMembers w outer s ms) → σ.Ok (declareMembers w' outer s' ms) →
      σ.State (declareMembers w outer s ms) (declareMembers w' outer s' ms)
  | [], _, _, _, _ => h.state
  | m :: ms, hm, hn, hok, hok' => by
    obtain ⟨hm₁, hms⟩ := List.forall_mem_cons.1 hm
    obtain ⟨hn₁, hns⟩ := List.forall_mem_append.1 hn
    have h₁ := declareMember_steps h.left ho.left m hm₁ hn₁
    have h₁' := declareMember_steps h.right ho.right m hm₁ hn₁
    have he := Declaring.extends_of_steps h₁
    have he' := Declaring.extends_of_steps h₁'
    have hok₁ := hσ.ok_of_steps
      (declareMembers_steps (h.left.mono he) (ho.left.mono he) ms hms hns) hok
    have hok₁' := hσ.ok_of_steps
      (declareMembers_steps (h.right.mono he') (ho.right.mono he') ms hms hns) hok'
    exact members_kept (hσ.at_of_state h he he' (member_kept h ho m hm₁ hn₁ hok₁ hok₁')) (ho.mono he he')
      ms hms hns hok hok'

end

/-! ## Namespaces and units -/

theorem at_enterNamespace (h : σ.At path s s' w w') (names : List String) :
    σ.At (path ++ names) (s.enterNamespace w.namespace_ names).1
      (s'.enterNamespace w'.namespace_ names).1
      { w with namespace_ := (s.enterNamespace w.namespace_ names).2 }
      { w' with namespace_ := (s'.enterNamespace w'.namespace_ names).2 } :=
  ⟨(hσ.enterNamespace h names).1, (hσ.enterNamespace h names).2,
    Surroundings.within_enter h.left names, Surroundings.within_enter h.right names⟩

mutual

theorem namespace_kept {path : List String} {s s' : Declaring} {w w' : Surroundings}
    (h : σ.At path s s' w w') : (d : NamespaceDeclaration) → Node.namespace_ d ∈ tree.nodes →
      (∀ n ∈ d.fullNames path, n ∈ tree.fullNames) →
      σ.Ok (declareNamespace w s d) → σ.Ok (declareNamespace w' s' d) →
      σ.State (declareNamespace w s d) (declareNamespace w' s' d)
  | ⟨name, _, us, members, _⟩, hd, hn, hok, hok' => by
    have hat := hσ.at_withUsings (hσ.at_enterNamespace h name.path) (.inr ⟨_, hd, rfl⟩ : tree.HasUsings us)
    rw [declareNamespace_eq] at hok hok' ⊢
    rw [declareNamespace_eq]
    exact all_kept hat members (fun x hx => SyntaxTree.children_mem_nodes hd
      (List.mem_append_right _ (List.mem_map_of_mem hx))) hn hok hok'

theorem one_kept {path : List String} {s s' : Declaring} {w w' : Surroundings}
    (h : σ.At path s s' w w') : (x : Declaration) → Node.ofDeclaration x ∈ tree.nodes →
      (∀ n ∈ x.fullNames path, n ∈ tree.fullNames) →
      σ.Ok (declareOne w s x) → σ.Ok (declareOne w' s' x) →
      σ.State (declareOne w s x) (declareOne w' s' x)
  | .namespace_ d, hx, hn, hok, hok' => namespace_kept h d hx hn hok hok'
  | .type t, hx, hn, hok, hok' => hσ.type_kept h ⟨.none, .none⟩ t hx hn hok hok'
  | .delegate _, _, hn, hok, hok' =>
    (hσ.declare h ⟨.none, .none⟩ _ _ _ _ _ (hn _ List.mem_cons_self) hok hok').2

theorem all_kept {path : List String} {s s' : Declaring} {w w' : Surroundings}
    (h : σ.At path s s' w w') : (xs : List Declaration) →
      (∀ x ∈ xs, Node.ofDeclaration x ∈ tree.nodes) →
      (∀ n ∈ Declaration.allFullNames path xs, n ∈ tree.fullNames) →
      σ.Ok (declareAll w s xs) → σ.Ok (declareAll w' s' xs) →
      σ.State (declareAll w s xs) (declareAll w' s' xs)
  | [], _, _, _, _ => h.state
  | x :: xs, hx, hn, hok, hok' => by
    obtain ⟨hx₁, hxs⟩ := List.forall_mem_cons.1 hx
    obtain ⟨hn₁, hns⟩ := List.forall_mem_append.1 hn
    have he := Declaring.extends_of_steps (declareOne_steps h.left x hx₁ hn₁)
    have he' := Declaring.extends_of_steps (declareOne_steps h.right x hx₁ hn₁)
    have hok₁ := hσ.ok_of_steps (declareAll_steps (h.left.mono he) xs hxs hns) hok
    have hok₁' := hσ.ok_of_steps (declareAll_steps (h.right.mono he') xs hxs hns) hok'
    exact all_kept (hσ.at_of_state h he he' (one_kept h x hx₁ hn₁ hok₁ hok₁')) xs hxs hns hok hok'

end

/-- **Two runs that are related at the start of a tree** are related behind it. -/
theorem tree_kept {t t' : SymbolTable} (ht : t.namespaces.path? Namespaces.root = some [])
    (ht' : t'.namespaces.path? Namespaces.root = some [])
    (hstate : σ.State ⟨t, .empty⟩ ⟨t', .empty⟩)
    (haround : σ.Around t t' ⟨σ.number, tree, origin, Namespaces.root, []⟩
      ⟨σ.number', tree, origin, Namespaces.root, []⟩)
    (hok : σ.Ok ⟨(declareTree t σ.number tree origin).1, (declareTree t σ.number tree origin).2⟩)
    (hok' : σ.Ok ⟨(declareTree t' σ.number' tree origin).1,
      (declareTree t' σ.number' tree origin).2⟩) :
    σ.State ⟨(declareTree t σ.number tree origin).1, (declareTree t σ.number tree origin).2⟩
      ⟨(declareTree t' σ.number' tree origin).1, (declareTree t' σ.number' tree origin).2⟩ := by
  have hat : σ.At [] ⟨t, .empty⟩ ⟨t', .empty⟩ ⟨σ.number, tree, origin, Namespaces.root, []⟩
      ⟨σ.number', tree, origin, Namespaces.root, []⟩ :=
    ⟨hstate, haround, ⟨rfl, rfl, rfl, ht, List.forall_mem_nil _⟩,
      ⟨rfl, rfl, rfl, ht', List.forall_mem_nil _⟩⟩
  exact hσ.all_kept (hσ.at_withUsings hat (.inl rfl)) tree.root.members (fun x hx =>
    SyntaxTree.children_mem_nodes tree.root_mem_nodes
      (List.mem_append_right _ (List.mem_map_of_mem hx))) (fun _ h => h) hok hok'

end IsKept

end Simulation

end CommandModules

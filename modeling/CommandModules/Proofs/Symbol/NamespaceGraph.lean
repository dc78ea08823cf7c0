/-
  Command modules — namespaces and their paths correspond.

  * `NamespaceGraph.Depicts g s`: the links of the graph say where the namespaces `s` stand, and
    nothing else; `child?_eq`, `parent?_eq`, `path?_eq`, `descend?_eq` and `globalUsings_eq`: then
    every question has the same answer in both;
  * `Depicts.create`, `Depicts.createPath`, `Depicts.register`, `Depicts.addGlobalUsing`: each
    operation on both keeps it so;
  * `NamespaceGraph.Reached g s`: the two are reached by the same operations;
  * `Reached.paths_correspond`: nodes and paths are in bijection, whatever is added in whatever
    order.
-/
import Mathlib.Data.List.Induction
import Mathlib.Data.List.Nodup
import CommandModules.Proofs.Symbol.Enclosing
import CommandModules.Symbol.NamespaceGraph

namespace CommandModules

open Relation

/-! ## Paths of namespaces -/

namespace Namespaces

variable {s : Namespaces} {n m : Nat} {p names : List String} {name : String}

namespace IsTree

/-- Different namespaces have different paths. -/
theorem path?_inj (h : s.IsTree) (hn : s.path? n = some p) (hm : s.path? m = some p) : n = m :=
  Option.some_inj.1 (((find?_eq_some_iff h.nodup).2 hn).symm.trans ((find?_eq_some_iff h.nodup).2 hm))

/-- With a path the one around it is there. -/
theorem exists_path? (h : s.IsTree) (hp : p ++ names ∈ s.paths) : ∃ m, s.path? m = some p := by
  obtain ⟨m, hm⟩ := Option.isSome_iff_exists.1 (find?_isSome (h.closed.prefix_mem hp))
  exact ⟨m, find?_path? hm⟩

/-- A path has less names than there are namespaces, for each of its heads is the path of another
    one. -/
theorem length_lt (h : s.IsTree) (hn : s.path? n = some p) : p.length < s.nodes.length := by
  have hnodup : ((List.range (p.length + 1)).map p.take).Nodup := by
    refine List.Nodup.map_on (fun i hi j hj hij => ?_) List.nodup_range
    have hlen := congrArg List.length hij
    rw [List.length_take, List.length_take] at hlen
    rw [List.mem_range] at hi hj
    omega
  have hpaths : (List.range (p.length + 1)).map p.take ⊆ s.paths := by
    intro q hq
    obtain ⟨i, -, rfl⟩ := List.mem_map.1 hq
    have hp := mem_paths_of_path? hn
    rw [← List.take_append_drop i p] at hp
    exact h.closed.prefix_mem hp
  have hle := hnodup.length_le_of_subset hpaths
  rwa [List.length_map, List.length_range, length_paths] at hle

theorem child?_eq_some_iff (h : s.IsTree) (hn : s.path? n = some p) :
    s.child? n name = some m ↔ s.path? m = some (p ++ [name]) := by
  rw [child?_eq hn, find?_eq_some_iff h.nodup]

/-- Going down leads to the namespace of the path. -/
theorem descend?_eq_some_iff (h : s.IsTree) (hn : s.path? n = some p) :
    s.descend? n names = some m ↔ s.path? m = some (p ++ names) := by
  induction names generalizing n p with
  | nil =>
    rw [descend?, List.append_nil, Option.some_inj]
    constructor
    · rintro rfl
      exact hn
    · intro hm
      exact h.path?_inj hn hm
  | cons name names ih =>
    rw [List.append_cons]
    constructor
    · intro hm
      obtain ⟨k, hk, hm⟩ := Option.bind_eq_some_iff.1 hm
      exact (ih ((h.child?_eq_some_iff hn).1 hk)).1 hm
    · intro hm
      obtain ⟨k, hk⟩ := h.exists_path? (mem_paths_of_path? hm)
      exact Option.bind_eq_some_iff.2 ⟨k, (h.child?_eq_some_iff hn).2 hk, (ih hk).2 hm⟩

/-- The namespace around one is that of the path without its last name. -/
theorem parent?_eq_some_iff (h : s.IsTree) : s.parent? n = some m ↔
    ∃ p name, s.path? m = some p ∧ s.path? n = some (p ++ [name]) := by
  constructor
  · intro hm
    rcases List.eq_nil_or_concat (s.path n) with hp | ⟨p, name, hp⟩
    · rw [parent?_eq_none hp] at hm
      cases hm
    · rw [List.concat_eq_append] at hp
      obtain ⟨m', hm', hfind, -⟩ := h.parent?_concat hp
      obtain rfl := Option.some_inj.1 (hm.symm.trans hm')
      exact ⟨p, name, find?_path? hfind, path?_of_path hp (by simp)⟩
  · rintro ⟨p, name, hm, hn⟩
    obtain ⟨m', hm', hfind, -⟩ := h.parent?_concat (path_eq hn)
    rw [hm', h.path?_inj hm (find?_path? hfind)]

end IsTree

end Namespaces

namespace NamespaceGraph

variable {g : NamespaceGraph} {s : Namespaces} {n m : Nat} {p names : List String}
  {name : String} {id : TypeId}

/-! ## Links -/

theorem name?_eq_some_iff {l : NamespaceLink} :
    l.name? = some name ↔ l = ⟨l.source, .contains name, l.target⟩ := by
  obtain ⟨a, label, b⟩ := l
  cases label <;> simp [NamespaceLink.name?]

theorem mem_links_of_child? (h : g.child? n name = some m) : ⟨n, .contains name, m⟩ ∈ g.links := by
  obtain ⟨l, hl, hm⟩ := List.exists_of_findSome?_eq_some h
  obtain ⟨hl, hsource⟩ := List.mem_filter.1 hl
  split at hm
  · rename_i hname
    obtain rfl := Option.some_inj.1 hm
    rw [name?_eq_some_iff.1 hname, beq_iff_eq.1 hsource] at hl
    exact hl
  · cases hm

theorem child?_ne_none (h : ⟨n, .contains name, m⟩ ∈ g.links) : g.child? n name ≠ none := by
  intro hnone
  have := List.findSome?_eq_none_iff.1 hnone _ (List.mem_filter.2 ⟨h, beq_self_eq_true n⟩)
  simp [NamespaceLink.name?] at this

theorem mem_links_of_parent? (h : g.parent? n = some m) :
    ∃ name, ⟨m, .contains name, n⟩ ∈ g.links := by
  obtain ⟨l, hl, rfl⟩ := Option.map_eq_some_iff.1 h
  have hsome : l.name?.isSome := by simpa using List.find?_some hl
  obtain ⟨name, hname⟩ := Option.isSome_iff_exists.1 hsome
  obtain ⟨hl, htarget⟩ := List.mem_filter.1 (List.mem_of_find?_eq_some hl)
  rw [name?_eq_some_iff.1 hname, beq_iff_eq.1 htarget] at hl
  exact ⟨name, hl⟩

theorem parent?_ne_none (h : ⟨m, .contains name, n⟩ ∈ g.links) : g.parent? n ≠ none := by
  intro hnone
  have := List.find?_eq_none.1 (Option.map_eq_none_iff.1 hnone) _
    (List.mem_filter.2 ⟨h, beq_self_eq_true n⟩)
  simp [NamespaceLink.name?] at this

theorem mem_links_of_name? (h : g.name? n = some name) :
    ∃ m, ⟨m, .contains name, n⟩ ∈ g.links := by
  obtain ⟨l, hl, hname⟩ := List.exists_of_findSome?_eq_some h
  obtain ⟨hl, htarget⟩ := List.mem_filter.1 hl
  rw [name?_eq_some_iff.1 hname, beq_iff_eq.1 htarget] at hl
  exact ⟨l.source, hl⟩

theorem name?_ne_none (h : ⟨m, .contains name, n⟩ ∈ g.links) : g.name? n ≠ none := by
  intro hnone
  have := List.findSome?_eq_none_iff.1 hnone _ (List.mem_filter.2 ⟨h, beq_self_eq_true n⟩)
  simp [NamespaceLink.name?] at this

/-! ## Graphs and paths -/

/-- The nodes hold the types of the namespaces, a link with a name leads from each namespace to
    those right inside it, and the other links say what is imported. -/
structure Depicts (g : NamespaceGraph) (s : Namespaces) : Prop where
  isTree : s.IsTree
  nodes : g.nodes = s.nodes.map Namespace.types
  contains : ∀ a name b, ⟨a, .contains name, b⟩ ∈ g.links ↔
    ∃ p, s.path? a = some p ∧ s.path? b = some (p ++ [name])
  uses : g.links.filter (fun l => l.label == .uses) = s.globalUsings.map fun n => ⟨root, .uses, n⟩

namespace Depicts

theorem empty : Depicts .empty .empty where
  isTree := Namespaces.Built.empty.isTree
  nodes := rfl
  contains a name b := by
    constructor
    · intro h
      cases h
    · rintro ⟨p, -, hb⟩
      have := Namespaces.mem_paths_of_path? hb
      simp [Namespaces.paths, Namespaces.empty] at this
  uses := rfl

theorem length_eq (h : g.Depicts s) : g.nodes.length = s.nodes.length := by
  rw [h.nodes, List.length_map]

/-- A namespace inside another one is the same in both. -/
theorem child?_eq (h : g.Depicts s) (n : Nat) (name : String) : g.child? n name = s.child? n name := by
  cases hg : g.child? n name with
  | some m =>
    obtain ⟨p, hn, hm⟩ := (h.contains _ _ _).1 (mem_links_of_child? hg)
    exact ((h.isTree.child?_eq_some_iff hn).2 hm).symm
  | none =>
    cases hs : s.child? n name with
    | none => rfl
    | some m =>
      obtain ⟨p, hn, -⟩ := Option.bind_eq_some_iff.1 hs
      have hm := (h.isTree.child?_eq_some_iff hn).1 hs
      exact absurd hg (child?_ne_none ((h.contains _ _ _).2 ⟨p, hn, hm⟩))

/-- The namespace around another one is the same in both. -/
theorem parent?_eq (h : g.Depicts s) (n : Nat) : g.parent? n = s.parent? n := by
  cases hg : g.parent? n with
  | some m =>
    obtain ⟨name, hl⟩ := mem_links_of_parent? hg
    obtain ⟨p, hm, hn⟩ := (h.contains _ _ _).1 hl
    exact (h.isTree.parent?_eq_some_iff.2 ⟨p, name, hm, hn⟩).symm
  | none =>
    cases hs : s.parent? n with
    | none => rfl
    | some m =>
      obtain ⟨p, name, hm, hn⟩ := h.isTree.parent?_eq_some_iff.1 hs
      exact absurd hg (parent?_ne_none ((h.contains _ _ _).2 ⟨p, hm, hn⟩))

theorem name?_eq (h : g.Depicts s) (hn : s.path? n = some (p ++ [name])) : g.name? n = some name := by
  obtain ⟨m, hm⟩ := h.isTree.exists_path? (Namespaces.mem_paths_of_path? hn)
  cases hg : g.name? n with
  | none => exact absurd hg (name?_ne_none ((h.contains _ _ _).2 ⟨p, hm, hn⟩))
  | some other =>
    obtain ⟨k, hk⟩ := mem_links_of_name? hg
    obtain ⟨q, -, hn'⟩ := (h.contains _ _ _).1 hk
    have hsame := Option.some_inj.1 (hn.symm.trans hn')
    exact congrArg some (List.singleton_inj.1 (List.append_inj' hsame rfl).2).symm

/-- The way up from a namespace ends, and gives its path. -/
theorem climb_eq (h : g.Depicts s) (hn : s.path? n = some p) {fuel : Nat} (hf : p.length < fuel)
    (names : List String) : g.climb fuel n names = some (p ++ names) := by
  obtain ⟨fuel, rfl⟩ : ∃ k, fuel = k + 1 := ⟨fuel - 1, by omega⟩
  induction p using List.reverseRecOn generalizing fuel n names with
  | nil =>
    have hroot : n = root := h.isTree.path?_inj hn h.isTree.root
    rw [climb, if_pos hroot]
    rfl
  | append_singleton p name ih =>
    have hne : n ≠ root := by
      rintro rfl
      have := Option.some_inj.1 (hn.symm.trans h.isTree.root)
      simp at this
    obtain ⟨m, hm⟩ := h.isTree.exists_path? (Namespaces.mem_paths_of_path? hn)
    have hparent : g.parent? n = some m :=
      (h.parent?_eq n).trans (h.isTree.parent?_eq_some_iff.2 ⟨p, name, hm, hn⟩)
    rw [List.length_append, List.length_singleton] at hf
    obtain ⟨fuel, rfl⟩ : ∃ k, fuel = k + 1 := ⟨fuel - 1, by omega⟩
    rw [climb, if_neg hne, h.name?_eq hn, hparent, List.append_assoc]
    exact ih hm _ fuel (by omega)

theorem path?_eq (h : g.Depicts s) (hn : n < g.nodes.length) : g.path? n = s.path? n := by
  rw [h.length_eq] at hn
  obtain ⟨p, hp⟩ := Namespaces.lt_length_iff.1 hn
  rw [path?, h.climb_eq hp (h.length_eq ▸ h.isTree.length_lt hp), hp, List.append_nil]

theorem descend?_eq (h : g.Depicts s) (n : Nat) (names : List String) :
    g.descend? n names = s.descend? n names := by
  induction names generalizing n with
  | nil => rfl
  | cons name names ih =>
    rw [descend?, Namespaces.descend?, h.child?_eq]
    exact congrArg _ (funext ih)

theorem typeIn?_eq (h : g.Depicts s) (n : Nat) (name : String) :
    g.typeIn? n name = s.typeIn? n name := by
  rw [typeIn?, Namespaces.typeIn?, h.nodes, List.getElem?_map]
  cases s.nodes[n]? <;> rfl

theorem globalUsings_eq (h : g.Depicts s) : g.globalUsings = s.globalUsings := by
  have hroot : (g.outgoing root).filter (fun l => l.label == .uses) =
      (g.links.filter fun l => l.label == .uses).filter fun l => l.source == root := by
    rw [outgoing, List.filter_filter, List.filter_filter]
    exact List.filter_congr fun l _ => Bool.and_comm _ _
  rw [globalUsings, hroot, h.uses, List.filter_eq_self.2 (by simp), List.map_map]
  exact List.map_id _

/-! ## Operations -/

/-- A namespace that is added inside another one is added to both. -/
theorem create (h : g.Depicts s) (hn : n < g.nodes.length) (name : String) :
    (g.create n name).1.Depicts (s.create n name).1 ∧
      (g.create n name).2 = (s.create n name).2 := by
  obtain ⟨p, hp⟩ := Namespaces.lt_length_iff.1 (h.length_eq ▸ hn)
  have htree : (s.create n name).1.IsTree :=
    ⟨Namespaces.path?_of_prefix (Namespaces.create_paths s n name) h.isTree.root,
      Namespaces.nodup_create h.isTree.nodup hp name, h.isTree.closed.create hp name⟩
  have hkept {k : Nat} {q : List String} (hk : s.path? k = some q) :
      (s.create n name).1.path? k = some q :=
    Namespaces.path?_of_prefix (Namespaces.create_paths s n name) hk
  have hadded : (s.create n name).1.path? (s.create n name).2 = some (p ++ [name]) :=
    Namespaces.create_path? hp
  cases hc : s.child? n name with
  | some child =>
    have hs : s.create n name = (s, child) := by rw [Namespaces.create, hc]
    have hg : g.create n name = (g, child) := by rw [NamespaceGraph.create, h.child?_eq, hc]
    rw [hs, hg]
    exact ⟨h, rfl⟩
  | none =>
    have hs : s.create n name =
        ({ s with nodes := s.nodes ++ [⟨s.path n ++ [name], []⟩] }, s.nodes.length) := by
      rw [Namespaces.create, hc]
    have hg : g.create n name = (⟨g.nodes ++ [[]], ⟨n, .contains name, g.nodes.length⟩ :: g.links⟩,
        g.nodes.length) := by
      rw [NamespaceGraph.create, h.child?_eq, hc]
    have hother {k : Nat} {q : List String} (hk : (s.create n name).1.path? k = some q)
        (hne : k ≠ s.nodes.length) : s.path? k = some q := by
      rw [hs, Namespaces.path?, List.getElem?_append] at hk
      split at hk
      · exact hk
      · rw [List.getElem?_eq_none (by simp; omega)] at hk
        cases hk
    have hnew : (s.create n name).2 = s.nodes.length := by rw [hs]
    rw [hnew] at hadded
    refine ⟨⟨htree, ?_, fun a name' b => ?_, ?_⟩, ?_⟩
    · rw [hg, hs]
      simp [h.nodes]
    · rw [hg, h.length_eq, List.mem_cons]
      constructor
      · rintro (heq | hl)
        · cases heq
          exact ⟨p, hkept hp, hadded⟩
        · obtain ⟨q, ha, hb⟩ := (h.contains _ _ _).1 hl
          exact ⟨q, hkept ha, hkept hb⟩
      · rintro ⟨q, ha, hb⟩
        by_cases hlast : b = s.nodes.length
        · -- the namespace that was added
          subst hlast
          obtain ⟨rfl, hname⟩ := List.append_inj' (Option.some_inj.1 (hb.symm.trans hadded)) rfl
          obtain rfl := List.singleton_inj.1 hname
          obtain rfl := htree.path?_inj ha (hkept hp)
          exact .inl rfl
        · have hb := hother hb hlast
          obtain ⟨a', ha'⟩ := h.isTree.exists_path? (Namespaces.mem_paths_of_path? hb)
          obtain rfl := htree.path?_inj ha (hkept ha')
          exact .inr ((h.contains _ _ _).2 ⟨q, ha', hb⟩)
    · rw [hg, hs]
      exact h.uses
    · rw [hg, hs]
      exact h.length_eq

theorem createPath (h : g.Depicts s) (hn : n < g.nodes.length) (names : List String) :
    (g.createPath n names).1.Depicts (s.createPath n names).1 ∧
      (g.createPath n names).2 = (s.createPath n names).2 := by
  induction names generalizing g s n with
  | nil => exact ⟨h, rfl⟩
  | cons name names ih =>
    obtain ⟨p, hp⟩ := Namespaces.lt_length_iff.1 (h.length_eq ▸ hn)
    obtain ⟨hcreate, hchild⟩ := h.create hn name
    have hlt : (g.create n name).2 < (g.create n name).1.nodes.length := by
      rw [hcreate.length_eq, hchild]
      exact Namespaces.lt_length_iff.2 ⟨_, Namespaces.create_path? hp⟩
    rw [NamespaceGraph.createPath, Namespaces.createPath_cons, ← hchild]
    exact ih hcreate hlt

theorem register (h : g.Depicts s) (n : Nat) (name : String) (id : TypeId) :
    (g.register n name id).1.Depicts (s.register n name id) := by
  have hpaths := Namespaces.paths_register s n name id
  have hglobal := Namespaces.globalUsings_register s n name id
  refine ⟨h.isTree.of_paths hpaths, ?_, fun a name' b => ?_, ?_⟩
  · unfold NamespaceGraph.register Namespaces.register
    rw [h.typeIn?_eq]
    cases s.typeIn? n name with
    | some other => exact h.nodes
    | none =>
      refine List.ext_getElem? fun i => ?_
      simp only [Option.isSome_none, Bool.false_eq_true, if_false, h.nodes, List.getElem?_modify,
        List.getElem?_map]
      by_cases hi : n = i <;> cases s.nodes[i]? <;> simp [hi]
  · have hlinks : (g.register n name id).1.links = g.links := by
      unfold NamespaceGraph.register
      split <;> rfl
    rw [hlinks, Namespaces.path?_congr hpaths, Namespaces.path?_congr hpaths]
    exact h.contains a name' b
  · have hlinks : (g.register n name id).1.links = g.links := by
      unfold NamespaceGraph.register
      split <;> rfl
    rw [hlinks, hglobal]
    exact h.uses

theorem addGlobalUsing (h : g.Depicts s) (n : Nat) :
    (g.addGlobalUsing n).Depicts (s.addGlobalUsing n) := by
  have hany : (g.outgoing root).any (fun l => l.label == .uses && l.target == n) =
      s.globalUsings.contains n := by
    rw [← h.globalUsings_eq, globalUsings, Bool.eq_iff_iff, List.any_eq_true, List.contains_iff_mem,
      List.mem_map]
    simp only [List.mem_filter, Bool.and_eq_true, beq_iff_eq]
    constructor
    · rintro ⟨l, hl, hu, ht⟩
      exact ⟨l, ⟨hl, hu⟩, ht⟩
    · rintro ⟨l, ⟨hl, hu⟩, ht⟩
      exact ⟨l, hl, hu, ht⟩
  unfold NamespaceGraph.addGlobalUsing Namespaces.addGlobalUsing
  rw [hany]
  split
  · exact h
  · refine ⟨h.isTree.of_paths rfl, h.nodes, fun a name b => ?_, ?_⟩
    · rw [List.mem_cons]
      refine ⟨fun hl => ?_, fun hp => .inr ((h.contains a name b).2 hp)⟩
      rcases hl with heq | hl
      · cases heq
      · exact (h.contains a name b).1 hl
    · rw [List.filter_cons_of_pos (by rfl), h.uses]
      rfl

end Depicts

/-! ## What is reached -/

/-- The graph and the namespaces are reached from the global namespace alone by the same operations,
    each about a namespace that is there. -/
inductive Reached : NamespaceGraph → Namespaces → Prop
  | empty : Reached .empty .empty
  | step {g : NamespaceGraph} {s : Namespaces} (op : NamespaceOperation) :
      Reached g s → op.node < g.nodes.length → Reached (op.onGraph g) (op.onNamespaces s)

/-- What is reached by the same operations is the same. -/
theorem Reached.depicts (h : Reached g s) : g.Depicts s := by
  induction h with
  | empty => exact .empty
  | step op _ hn ih =>
    cases op with
    | create n name => exact (ih.create hn name).1
    | createPath n names => exact (ih.createPath hn names).1
    | register n name id => exact ih.register n name id
    | addGlobalUsing n => exact ih.addGlobalUsing n

/-- The second namespace is the first one or around it. -/
def Around (g : NamespaceGraph) (n m : Nat) : Prop :=
  ReflTransGen (fun a b => g.parent? a = some b) n m

/-- The way up from a namespace leads to the global one. -/
theorem Depicts.around_root (h : g.Depicts s) (hn : s.path? n = some p) : g.Around n root := by
  induction p using List.reverseRecOn generalizing n with
  | nil =>
    obtain rfl : n = root := h.isTree.path?_inj hn h.isTree.root
    exact .refl
  | append_singleton p name ih =>
    obtain ⟨m, hm⟩ := h.isTree.exists_path? (Namespaces.mem_paths_of_path? hn)
    have hparent : g.parent? n = some m :=
      (h.parent?_eq n).trans (h.isTree.parent?_eq_some_iff.2 ⟨p, name, hm, hn⟩)
    exact .head hparent (ih hm)

/-- It goes on from every namespace on the way but the global one. -/
theorem Depicts.up (h : g.Depicts s) (hn : n < g.nodes.length) (hm : g.Around n m) :
    g.Around m root ∧ (g.parent? m = none ↔ m = root) := by
  have hexists : ∃ p, s.path? m = some p := by
    induction hm with
    | refl => exact Namespaces.lt_length_iff.1 (h.length_eq ▸ hn)
    | tail _ hstep _ =>
      obtain ⟨p, _, hp, -⟩ := h.isTree.parent?_eq_some_iff.1 ((h.parent?_eq _).symm.trans hstep)
      exact ⟨p, hp⟩
  obtain ⟨p, hp⟩ := hexists
  refine ⟨h.around_root hp, fun hnone => ?_, ?_⟩
  · rcases ReflTransGen.cases_head (h.around_root hp) with heq | ⟨k, hk, -⟩
    · exact heq
    · cases hnone.symm.trans hk
  · rintro rfl
    rw [h.parent?_eq]
    exact Namespaces.parent?_eq_none (Namespaces.path_eq h.isTree.root)

/-- A path that is there is handed back, and nothing is added. -/
theorem createPath_of_descend? (h : g.descend? n names = some m) : g.createPath n names = (g, m) := by
  induction names generalizing n with
  | nil =>
    obtain rfl := Option.some_inj.1 h
    rfl
  | cons name names ih =>
    obtain ⟨k, hk, h⟩ := Option.bind_eq_some_iff.1 h
    have hcreate : g.create n name = (g, k) := by rw [create, hk]
    rw [createPath, hcreate]
    exact ih h

/-- A path that is added leaves the types of all namespaces alone. -/
theorem nodes_createPath (g : NamespaceGraph) (n : Nat) (names : List String) :
    g.nodes <+: (g.createPath n names).1.nodes := by
  induction names generalizing g n with
  | nil => exact List.prefix_rfl
  | cons name names ih =>
    refine List.IsPrefix.trans ?_ (ih (g.create n name).1 _)
    unfold create
    split
    · exact List.prefix_rfl
    · exact List.prefix_append _ _

/-- **Namespaces and their paths correspond**, whatever was added in whatever order.  The graph and
    the table of paths give the same answers.  A node is found under the path that its links give,
    and what is found under a path has that path; the way up from a node ends at the global
    namespace and nowhere else.  A path that is there is not added again; one that is added leads
    to its node, and leaves the paths and the types of all other nodes as they are. -/
theorem Reached.paths_correspond (h : Reached g s) :
    (g.nodes.length = s.nodes.length ∧ g.globalUsings = s.globalUsings ∧
      ∀ n, g.parent? n = s.parent? n ∧ (n < g.nodes.length → g.path? n = s.path? n) ∧
        (∀ name, g.child? n name = s.child? n name ∧ g.typeIn? n name = s.typeIn? n name)) ∧
    (∀ n < g.nodes.length, ∃ p, g.path? n = some p ∧ g.descend? root p = some n) ∧
    (∀ p n, g.descend? root p = some n → n < g.nodes.length ∧ g.path? n = some p) ∧
    (∀ n < g.nodes.length, ∀ m, g.Around n m →
      g.Around m root ∧ (g.parent? m = none ↔ m = root)) ∧
    ∀ n p names, g.descend? root p = some n →
      (∀ m, g.descend? root (p ++ names) = some m → g.createPath n names = (g, m)) ∧
      (g.createPath n names).1.descend? root (p ++ names) = some (g.createPath n names).2 ∧
      ∀ m < g.nodes.length, (g.createPath n names).1.path? m = g.path? m ∧
        (g.createPath n names).1.nodes[m]? = g.nodes[m]? := by
  have hd := h.depicts
  have hroot : s.path? root = some [] := hd.isTree.root
  have hdown {n : Nat} {p : List String} : g.descend? root p = some n ↔ s.path? n = some p := by
    rw [hd.descend?_eq, hd.isTree.descend?_eq_some_iff hroot, List.nil_append]
  have hlt {n : Nat} {p : List String} (hn : s.path? n = some p) : n < g.nodes.length :=
    hd.length_eq ▸ Namespaces.lt_length_iff.2 ⟨p, hn⟩
  refine ⟨⟨hd.length_eq, hd.globalUsings_eq, fun n => ⟨hd.parent?_eq n, hd.path?_eq, fun name =>
    ⟨hd.child?_eq n name, hd.typeIn?_eq n name⟩⟩⟩, fun n hn => ?_, fun p n hn => ?_,
    fun n hn m hm => hd.up hn hm, fun n p names hn => ?_⟩
  · obtain ⟨p, hp⟩ := Namespaces.lt_length_iff.1 (hd.length_eq ▸ hn)
    exact ⟨p, (hd.path?_eq hn).trans hp, hdown.2 hp⟩
  · have hp := hdown.1 hn
    exact ⟨hlt hp, (hd.path?_eq (hlt hp)).trans hp⟩
  · have hp := hdown.1 hn
    obtain ⟨hcreated, hnode⟩ := hd.createPath (hlt hp) names
    refine ⟨fun m hm => createPath_of_descend? ?_, ?_, fun m hm => ⟨?_, ?_⟩⟩
    · rw [hd.descend?_eq]
      exact (hd.isTree.descend?_eq_some_iff hp).2 (hdown.1 hm)
    · rw [hcreated.descend?_eq, hnode]
      have hroot' : (s.createPath n names).1.path? root = some [] := hcreated.isTree.root
      refine (hcreated.isTree.descend?_eq_some_iff hroot').2 ?_
      rw [List.nil_append]
      exact Namespaces.createPath_path? hp
    · obtain ⟨q, hq⟩ := Namespaces.lt_length_iff.1 (hd.length_eq ▸ hm)
      have hkept := Namespaces.path?_of_prefix (Namespaces.createPath_paths s n names) hq
      have hm' : m < (g.createPath n names).1.nodes.length :=
        Nat.lt_of_lt_of_le hm (nodes_createPath g n names).length_le
      rw [hcreated.path?_eq hm', hkept, hd.path?_eq hm, hq]
    · obtain ⟨more, hmore⟩ := nodes_createPath g n names
      rw [← hmore, List.getElem?_append_left hm]

/-- The global namespace, linked to itself, and two more, one of which is mentioned twice. -/
def demo : NamespaceGraph :=
  (NamespaceOperation.createPath root ["Demo", "Commands"]).onGraph
    ((NamespaceOperation.addGlobalUsing root).onGraph
      ((NamespaceOperation.create root "Demo").onGraph .empty))

/-- A link of the global namespace to itself does not lead astray. -/
theorem paths_correspond_demo : demo.links =
      [⟨1, .contains "Commands", 2⟩, ⟨0, .uses, 0⟩, ⟨0, .contains "Demo", 1⟩] ∧
    demo.path? 2 = some ["Demo", "Commands"] ∧ demo.Around 2 root := by
  have hreached : Reached demo _ :=
    .step _ (.step _ (.step _ .empty (by decide)) (by decide)) (by decide +kernel)
  obtain ⟨-, -, hpath, hup, -⟩ := hreached.paths_correspond
  refine ⟨by decide +kernel, (hpath ["Demo", "Commands"] 2 (by decide +kernel)).2, ?_⟩
  exact (hup 2 (by decide +kernel) 2 .refl).1

end NamespaceGraph

end CommandModules

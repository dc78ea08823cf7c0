/-
  Command modules — the namespaces around a namespace.

  * `Namespaces.Built`: namespaces that were entered one after the other, with their types
    and the imports of all files;
  * `Built.isTree`: their paths differ, and with each path those around it are there;
  * `IsTree.enclosing_eq`: so the namespaces around one are those around its parent, and the
    parent itself;
  * `Namespaces.Around`, `Nearest`: going up from a namespace, and the first type of a name
    that is met on the way;
  * `IsTree.mem_enclosing`, `IsTree.nearest_iff`: the list of namespaces around one says the
    same.
-/
import Mathlib.Logic.Relation
import CommandModules.Proofs.Symbol.Namespace

namespace CommandModules.Namespaces

open Relation

variable {s : Namespaces} {n m : Nat} {p : List String} {name : String} {id : TypeId}

/-! ## Trees -/

/-- Namespaces made step by step from the global one. -/
inductive Built : Namespaces → Prop
  | empty : Built .empty
  | create {s : Namespaces} {n : Nat} (h : Built s) (hn : n < s.nodes.length) (name : String) :
      Built (s.create n name).1
  | createPath {s : Namespaces} {n : Nat} (h : Built s) (hn : n < s.nodes.length)
      (names : List String) : Built (s.createPath n names).1
  | register {s : Namespaces} (h : Built s) (n : Nat) (name : String) (id : TypeId) :
      Built (s.register n name id)
  | addGlobalUsing {s : Namespaces} {n : Nat} (h : Built s) (hn : n < s.nodes.length) :
      Built (s.addGlobalUsing n)

/-- The global namespace comes first, all paths differ, and with each of them those around it
    are there. -/
structure IsTree (s : Namespaces) : Prop where
  root : s.path? root = some []
  nodup : s.paths.Nodup
  closed : s.IsClosed

theorem IsTree.of_paths {t : Namespaces} (h : s.IsTree) (ht : t.paths = s.paths) : t.IsTree :=
  ⟨path?_congr ht _ ▸ h.root, ht ▸ h.nodup, h.closed.of_paths ht⟩

theorem Built.isTree (h : s.Built) : s.IsTree := by
  induction h with
  | empty =>
    refine ⟨rfl, List.pairwise_singleton _ _, fun p name hp => ?_⟩
    cases p <;> simp [paths, Namespaces.empty] at hp
  | @create s n _ hn name ih =>
    obtain ⟨p, hp⟩ := lt_length_iff.1 hn
    exact ⟨Namespaces.path?_of_prefix (create_paths s n name) ih.root, nodup_create ih.nodup hp name,
      ih.closed.create hp name⟩
  | @createPath s n _ hn names ih =>
    exact ⟨Namespaces.path?_of_prefix (createPath_paths s n names) ih.root, nodup_createPath ih.nodup hn,
      ih.closed.createPath hn⟩
  | register _ n name id ih => exact ih.of_paths (paths_register ..)
  | addGlobalUsing _ _ ih => exact ih.of_paths (paths_addGlobalUsing ..)

/-! ## Going up -/

theorem parent?_eq_none (hp : s.path n = []) : s.parent? n = none := by
  unfold parent?
  cases hn : s.path? n with
  | none => rfl
  | some q =>
    obtain rfl : q = [] := (path_eq hn).symm.trans hp
    rfl

theorem path?_of_path (hp : s.path n = p) (hne : p ≠ []) : s.path? n = some p := by
  unfold path at hp
  cases hn : s.path? n with
  | none =>
    rw [hn] at hp
    exact absurd hp.symm hne
  | some q =>
    rw [hn] at hp
    exact congrArg some hp

theorem outerPaths_concat (p : List String) (name : String) :
    outerPaths (p ++ [name]) = p :: outerPaths p := by
  unfold outerPaths
  rw [List.length_append, List.length_singleton, List.range_succ, List.reverse_append,
    List.reverse_singleton, List.singleton_append, List.map_cons, List.take_left]
  refine congrArg _ (List.map_congr_left fun k hk => ?_)
  rw [List.mem_reverse, List.mem_range] at hk
  exact List.take_append_of_le_length (Nat.le_of_lt hk)

/-- A namespace with a longer path has a parent, with one name less. -/
theorem IsTree.parent?_concat (h : s.IsTree) (hp : s.path n = p ++ [name]) :
    ∃ m, s.parent? n = some m ∧ s.find? p = some m ∧ s.path m = p := by
  have hn := path?_of_path hp (by simp)
  obtain ⟨m, hm⟩ :=
    Option.isSome_iff_exists.1 (find?_isSome (h.closed p name (mem_paths_of_path? hn)))
  refine ⟨m, ?_, hm, path_eq (find?_path? hm)⟩
  simp [parent?, hn, hm]

/-- **The namespaces around one** are those around its parent, behind the parent. -/
theorem IsTree.enclosing_eq (h : s.IsTree) (n : Nat) :
    s.enclosing n = n :: ((s.parent? n).map s.enclosing).getD [] := by
  rcases List.eq_nil_or_concat (s.path n) with hp | ⟨p, name, hp⟩
  · rw [parent?_eq_none hp, enclosing, hp]
    rfl
  · rw [List.concat_eq_append] at hp
    obtain ⟨m, hm, hfind, hpath⟩ := h.parent?_concat hp
    rw [hm, enclosing, hp, outerPaths_concat, List.filterMap_cons_some hfind]
    simp only [Option.map_some, Option.getD_some, enclosing, hpath]

/-- What holds of a namespace if it holds of the one around it holds of all. -/
theorem IsTree.inward {P : Nat → Prop} (h : s.IsTree)
    (hP : ∀ n, (∀ m, s.parent? n = some m → P m) → P n) (n : Nat) : P n := by
  induction hk : (s.path n).length generalizing n with
  | zero =>
    refine hP n fun m hm => ?_
    rw [parent?_eq_none (List.length_eq_zero_iff.1 hk)] at hm
    cases hm
  | succ k ih =>
    refine hP n fun m hm => ih m ?_
    obtain ⟨p, name, hp⟩ := (List.eq_nil_or_concat (s.path n)).resolve_left fun hnil => by
      simp [hnil] at hk
    rw [List.concat_eq_append] at hp
    obtain ⟨m', hm', -, hpath⟩ := h.parent?_concat hp
    obtain rfl := Option.some_inj.1 (hm.symm.trans hm')
    rw [hpath]
    simpa [hp] using hk

/-- The second namespace is the first one or around it. -/
def Around (s : Namespaces) (n m : Nat) : Prop :=
  ReflTransGen (fun a b => s.parent? a = some b) n m

/-- The type of this metadata name in the nearest namespace that has one, from a namespace
    upwards. -/
inductive Nearest (s : Namespaces) (name : String) : Nat → TypeId → Prop
  | here {n : Nat} {id : TypeId} (h : s.typeIn? n name = some id) : Nearest s name n id
  | outer {n m : Nat} {id : TypeId} (h : s.typeIn? n name = none) (hm : s.parent? n = some m)
      (hid : Nearest s name m id) : Nearest s name n id

theorem IsTree.mem_enclosing (h : s.IsTree) : m ∈ s.enclosing n ↔ s.Around n m := by
  constructor
  · intro hm
    induction n using h.inward generalizing m with
    | hP n ih =>
      rw [h.enclosing_eq] at hm
      rcases List.mem_cons.1 hm with rfl | hm
      · exact .refl
      · cases hp : s.parent? n with
        | none =>
          rw [hp] at hm
          cases hm
        | some k =>
          rw [hp] at hm
          exact .head hp (ih k hp hm)
  · intro hm
    induction hm using ReflTransGen.head_induction_on with
    | refl =>
      rw [h.enclosing_eq]
      exact List.mem_cons_self
    | head hp _ ih =>
      rw [h.enclosing_eq, hp]
      exact List.mem_cons_of_mem _ ih

theorem IsTree.nearest_iff (h : s.IsTree) : s.Nearest name n id ↔
    (s.enclosing n).findSome? (fun m => s.typeIn? m name) = some id := by
  constructor
  · intro hid
    induction hid with
    | here ht => rw [h.enclosing_eq, List.findSome?_cons, ht]
    | outer ht hm _ ih =>
      rw [h.enclosing_eq, List.findSome?_cons, ht, hm]
      exact ih
  · intro hid
    induction n using h.inward with
    | hP n ih =>
      rw [h.enclosing_eq, List.findSome?_cons] at hid
      cases ht : s.typeIn? n name with
      | some id' =>
        rw [ht] at hid
        exact .here (ht.trans hid)
      | none =>
        rw [ht] at hid
        cases hp : s.parent? n with
        | none =>
          rw [hp] at hid
          cases hid
        | some m =>
          rw [hp] at hid
          exact .outer ht hp (ih m hp hid)

end CommandModules.Namespaces

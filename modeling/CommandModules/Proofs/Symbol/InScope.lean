/-
  Command modules — types in scope.

  * `Resolution.meanings` are all meanings of a name, `Resolution.Same` compares two
    resolutions whatever the order in which meanings are listed;
  * `Namespaces.Imported`: the file, or all files, import a namespace that has the type;
  * `Namespaces.Means`: what a name of a type has to mean in a scope;
  * `resolveType_same`: only the nearest type and the set of the imported ones count;
  * `type_in_scope`: a name means what it has to, and neither the order of imports, nor
    repetitions, nor namespaces without the name change that.
-/
import CommandModules.Proofs.Symbol.Enclosing
import CommandModules.Symbol.Resolve

namespace CommandModules

namespace Resolution

variable {α : Type}

/-- All meanings. -/
def meanings : Resolution α → List α
  | found a => [a]
  | ambiguous ms => ms.map Prod.snd
  | notFound => []

/-- The same meanings, perhaps listed in another order and found in other namespaces. -/
inductive Same : Resolution α → Resolution α → Prop
  | found (a : α) : Same (found a) (found a)
  | ambiguous {ms ms' : List (Nat × α)} (h : (ms.map Prod.snd).Perm (ms'.map Prod.snd)) :
      Same (ambiguous ms) (ambiguous ms')
  | notFound : Same notFound notFound

theorem Same.refl (r : Resolution α) : r.Same r := by
  cases r with
  | found a => exact .found a
  | ambiguous ms => exact .ambiguous (.refl _)
  | notFound => exact .notFound

end Resolution

namespace Namespaces

variable {s s' : Namespaces} {ms : List (Nat × TypeId)} {id : TypeId} {name : String}
  {ns : List Nat} {scope scope' : Scope}

/-! ## Imports -/

theorem distinct_sublist (ms : List (Nat × TypeId)) : (distinct ms).Sublist ms := by
  induction ms with
  | nil => exact .slnil
  | cons m ms ih => exact (List.filter_sublist.trans ih).cons_cons m

theorem nodup_distinct (ms : List (Nat × TypeId)) : ((distinct ms).map Prod.snd).Nodup := by
  induction ms with
  | nil => exact List.nodup_nil
  | cons m ms ih =>
    rw [distinct, List.map_cons, List.nodup_cons]
    refine ⟨fun hmem => ?_, ih.sublist (List.filter_sublist.map _)⟩
    obtain ⟨n, hn, heq⟩ := List.mem_map.1 hmem
    simpa [heq] using (List.mem_filter.1 hn).2

theorem mem_distinct : id ∈ (distinct ms).map Prod.snd ↔ id ∈ ms.map Prod.snd := by
  induction ms with
  | nil => rfl
  | cons m ms ih =>
    rw [distinct, List.map_cons, List.map_cons, List.mem_cons, List.mem_cons, ← ih]
    by_cases hid : id = m.2
    · simp [hid]
    · simp only [hid, false_or, List.mem_map, List.mem_filter, bne_iff_ne]
      refine exists_congr fun n => ⟨fun h => ⟨h.1.1, h.2⟩, fun h => ⟨⟨h.1, ?_⟩, h.2⟩⟩
      rintro heq
      exact hid (h.2.symm.trans heq)

/-- The types of a name that are imported. -/
theorem mem_typesIn (s : Namespaces) : id ∈ (s.typesIn name ns).map Prod.snd ↔
    ∃ n ∈ ns, s.typeIn? n name = some id := by
  rw [typesIn, mem_distinct]
  simp [List.mem_map, List.mem_filterMap]

/-- Each type is listed with a namespace that has it. -/
theorem typeIn?_of_mem_typesIn {m : Nat × TypeId} (hm : m ∈ s.typesIn name ns) :
    m.1 ∈ ns ∧ s.typeIn? m.1 name = some m.2 := by
  obtain ⟨n, hn, hmap⟩ := List.mem_filterMap.1 ((distinct_sublist _).subset hm)
  obtain ⟨id, hid, rfl⟩ := Option.map_eq_some_iff.1 hmap
  exact ⟨hn, hid⟩

/-- The file, or all files, import a namespace that has the type under this name. -/
def Imported (s : Namespaces) (name : String) (scope : Scope) (id : TypeId) : Prop :=
  ∃ n ∈ scope.imports ++ s.globalUsings, s.typeIn? n name = some id

/-! ## Meanings -/

/-- What the name of a type means: the type in the nearest namespace around that has one; else
    the imported type, if there is one only. -/
inductive Means (s : Namespaces) (name : String) (scope : Scope) : Resolution TypeId → Prop
  | nearest {id : TypeId} (h : s.Nearest name scope.namespace_ id) : Means s name scope (.found id)
  | imported {id : TypeId} (hn : ∀ m, s.Around scope.namespace_ m → s.typeIn? m name = none)
      (h : ∀ id', s.Imported name scope id' ↔ id' = id) : Means s name scope (.found id)
  | ambiguous {ms : List (Nat × TypeId)}
      (hn : ∀ m, s.Around scope.namespace_ m → s.typeIn? m name = none) (hms : 2 ≤ ms.length)
      (h : ∀ id, s.Imported name scope id ↔ id ∈ ms.map Prod.snd) (hd : (ms.map Prod.snd).Nodup)
      (hin : ∀ m ∈ ms, m.1 ∈ scope.imports ++ s.globalUsings ∧ s.typeIn? m.1 name = some m.2) :
      Means s name scope (.ambiguous ms)
  | missing (hn : ∀ m, s.Around scope.namespace_ m → s.typeIn? m name = none)
      (h : ∀ id, ¬ s.Imported name scope id) : Means s name scope .notFound

theorem IsTree.resolveType_means (h : s.IsTree) (name : String) (scope : Scope) :
    s.Means name scope (s.resolveType name scope) := by
  unfold resolveType
  cases hnear : (s.enclosing scope.namespace_).findSome? fun n => s.typeIn? n name with
  | some id => exact .nearest (h.nearest_iff.2 hnear)
  | none =>
    have hn (m : Nat) (hm : s.Around scope.namespace_ m) : s.typeIn? m name = none :=
      List.findSome?_eq_none_iff.1 hnear m (h.mem_enclosing.2 hm)
    have hmem (id : TypeId) : s.Imported name scope id ↔
        id ∈ (s.typesIn name (scope.imports ++ s.globalUsings)).map Prod.snd := (mem_typesIn s).symm
    have hin (m : Nat × TypeId) (hm : m ∈ s.typesIn name (scope.imports ++ s.globalUsings)) :=
      typeIn?_of_mem_typesIn hm
    have hd : ((s.typesIn name (scope.imports ++ s.globalUsings)).map Prod.snd).Nodup :=
      nodup_distinct _
    generalize s.typesIn name (scope.imports ++ s.globalUsings) = ms at hmem hin hd
    match ms with
    | [] => exact .missing hn fun id hid => by cases (hmem id).1 hid
    | [m] => exact .imported hn fun id => (hmem id).trans List.mem_singleton
    | m :: m' :: ms => exact .ambiguous hn (Nat.le_add_left 2 ms.length) hmem hd hin

theorem resolveFirstType?_eq (s : Namespaces) (name : String) (scope : Scope) :
    s.resolveFirstType? name scope = (s.resolveType name scope).meanings.head? := by
  unfold resolveFirstType?
  cases s.resolveType name scope with
  | found id => rfl
  | ambiguous ms => exact List.head?_map.symm
  | notFound => rfl

/-- **Only the nearest type and the imported types count**, not where those are imported
    from. -/
theorem resolveType_same
    (hnear : (s.enclosing scope.namespace_).findSome? (fun n => s.typeIn? n name) =
      (s'.enclosing scope'.namespace_).findSome? fun n => s'.typeIn? n name)
    (himp : ∀ id, s.Imported name scope id ↔ s'.Imported name scope' id) :
    (s.resolveType name scope).Same (s'.resolveType name scope') := by
  unfold resolveType
  rw [hnear]
  cases (s'.enclosing scope'.namespace_).findSome? fun n => s'.typeIn? n name with
  | some id => exact .found id
  | none =>
    have hperm : ((s.typesIn name (scope.imports ++ s.globalUsings)).map Prod.snd).Perm
        ((s'.typesIn name (scope'.imports ++ s'.globalUsings)).map Prod.snd) :=
      (List.perm_ext_iff_of_nodup (nodup_distinct _) (nodup_distinct _)).2 fun id =>
        (mem_typesIn s).trans ((himp id).trans (mem_typesIn s').symm)
    dsimp only
    generalize s.typesIn name (scope.imports ++ s.globalUsings) = ms at hperm
    generalize s'.typesIn name (scope'.imports ++ s'.globalUsings) = ms' at hperm
    have hlen : ms.length = ms'.length := by simpa using hperm.length_eq
    match ms, ms', hlen with
    | [], [], _ => exact .notFound
    | [m], [m'], _ =>
      have heq : m.2 = m'.2 := by simpa using hperm
      show (Resolution.found m.2).Same (.found m'.2)
      rw [heq]
      exact .found _
    | _ :: _ :: _, _ :: _ :: _, _ => exact .ambiguous hperm

/-- **A type in scope**: a name means the type of the nearest namespace around that has one, else
    what is imported, ambiguous if these are several types.  Lists of imports with the same
    namespaces that have the name give it the same meanings, whatever their order, repetitions
    and further namespaces. -/
theorem type_in_scope (h : s.Built) (name : String) (scope : Scope) :
    s.Means name scope (s.resolveType name scope) ∧
      s.resolveFirstType? name scope = (s.resolveType name scope).meanings.head? ∧
      ∀ imports, (∀ n, (s.typeIn? n name).isSome → (n ∈ imports ↔ n ∈ scope.imports)) →
        (s.resolveType name scope).Same (s.resolveType name { scope with imports }) := by
  refine ⟨h.isTree.resolveType_means name scope, resolveFirstType?_eq s name scope,
    fun imports hi => ?_⟩
  refine resolveType_same rfl fun id => exists_congr fun n => and_congr_left fun hn => ?_
  simp only [List.mem_append, hi n (Option.isSome_of_eq_some hn)]

/-- Two namespaces with a type of one name, one of them imported everywhere. -/
def demo : Namespaces :=
  let s := ((empty.create root "A").1.create root "B").1
  ((s.register 1 "T" ⟨1⟩).register 2 "T" ⟨2⟩).addGlobalUsing 2

theorem type_in_scope_demo :
    let scope : Scope := { Scope.ofNamespace root with imports := [1] }
    demo.Built ∧ demo.resolveType "T" scope = .ambiguous [(1, ⟨1⟩), (2, ⟨2⟩)] ∧
      demo.Means "T" scope (.ambiguous [(1, ⟨1⟩), (2, ⟨2⟩)]) ∧
      (∀ n, (demo.typeIn? n "T").isSome → (n ∈ [0, 1, 1] ↔ n ∈ [1])) ∧
      (Resolution.ambiguous [(1, ⟨1⟩), (2, ⟨2⟩)]).Same
        (demo.resolveType "T" { scope with imports := [0, 1, 1] }) := by
  intro scope
  have hbuilt : demo.Built :=
    ((((Built.empty.create (by decide) "A").create (by decide) "B").register 1 "T" ⟨1⟩).register 2
      "T" ⟨2⟩).addGlobalUsing (by decide)
  have himports (n : Nat) (hn : (demo.typeIn? n "T").isSome) : n ∈ [0, 1, 1] ↔ n ∈ [1] := by
    cases n with
    | zero => cases hn
    | succ n => simp
  obtain ⟨hmeans, -, hsame⟩ := type_in_scope hbuilt "T" scope
  exact ⟨hbuilt, rfl, hmeans, himports, hsame [0, 1, 1] himports⟩

end Namespaces

end CommandModules

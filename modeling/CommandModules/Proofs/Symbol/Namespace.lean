/-
  Command modules — namespaces that are added.

  * `Namespaces.paths` are the paths of all namespaces, by number; entering a type and
    importing a namespace leave them alone;
  * `createPath_paths`: adding a path only adds namespaces behind those that are there;
  * `createPath_path?`: it leads to the namespace of the path below the given one;
  * `mem_paths_createPath`: they are those on the way to it;
  * `createPath_forall`: what holds of all paths and of a path with one more name holds of
    all paths behind it;
  * `find?_eq_some_iff`, `nodup_createPath`: all paths stay different, so that a namespace is
    found under its path;
  * `createPath_self`: a path that is there stays as it is, if with each path those around
    it are there;
  * `find?_congr`, `enclosing_congr`, `descend?_congr`: what is looked up among namespaces
    depends on their paths alone;
  * `typeIn?_register`, `typeIn?_createPath`: a type that is entered is found under its
    name, unless another one is there; nothing else changes what is found;
  * `Namespaces.entries` are the types of a namespace, each by its name.
-/
import CommandModules.Symbol.Namespace

namespace CommandModules.Namespaces

variable {s : Namespaces} {n m : Nat} {p : List String} {name : String} {names : List String}

/-- The paths of the namespaces, by number. -/
def paths (s : Namespaces) : List (List String) :=
  s.nodes.map Namespace.path

@[simp] theorem length_paths (s : Namespaces) : s.paths.length = s.nodes.length :=
  List.length_map _

theorem path?_eq (s : Namespaces) (n : Nat) : s.path? n = s.paths[n]? := by
  simp [path?, paths]

theorem lt_length_iff : n < s.nodes.length ↔ ∃ p, s.path? n = some p := by
  simp only [path?_eq, List.getElem?_eq_some_iff, length_paths]
  exact ⟨fun h => ⟨_, h, rfl⟩, fun ⟨_, h, _⟩ => h⟩

@[simp] theorem paths_register (s : Namespaces) (n : Nat) (name : String) (id : TypeId) :
    (s.register n name id).paths = s.paths := by
  unfold register
  split
  · rfl
  · refine List.ext_getElem? fun i => ?_
    simp only [paths, List.getElem?_map, List.getElem?_modify]
    cases s.nodes[i]? with
    | none => rfl
    | some ns => by_cases h : n = i <;> simp [h]

@[simp] theorem paths_addGlobalUsing (s : Namespaces) (n : Nat) :
    (s.addGlobalUsing n).paths = s.paths := by
  unfold addGlobalUsing
  split <;> rfl

theorem path?_of_prefix {t : Namespaces} (h : s.paths <+: t.paths) (hn : s.path? n = some p) :
    t.path? n = some p := by
  rw [path?_eq] at hn ⊢
  obtain ⟨more, hm⟩ := h
  rw [← hm, List.getElem?_append_left (List.getElem?_eq_some_iff.1 hn).1, hn]

theorem find?_path? (h : s.find? p = some n) : s.path? n = some p := by
  obtain ⟨hn, hp, -⟩ := List.findIdx?_eq_some_iff_getElem.1 h
  rw [path?, List.getElem?_eq_getElem hn]
  simpa using hp

/-! ## Adding namespaces -/

theorem create_paths (s : Namespaces) (n : Nat) (name : String) :
    s.paths <+: (s.create n name).1.paths := by
  unfold create
  split
  · exact List.prefix_rfl
  · simp [paths]

theorem create_path? (hn : s.path? n = some p) :
    (s.create n name).1.path? (s.create n name).2 = some (p ++ [name]) := by
  unfold create child?
  rw [hn]
  dsimp only [Option.bind_eq_bind, Option.bind_some]
  split
  · rename_i child hc
    exact find?_path? hc
  · simp [path?, path, show s.nodes[n]?.map Namespace.path = some p from hn]

theorem createPath_cons (s : Namespaces) (n : Nat) (name : String) (names : List String) :
    s.createPath n (name :: names) = (s.create n name).1.createPath (s.create n name).2 names :=
  rfl

theorem createPath_paths (s : Namespaces) (n : Nat) (names : List String) :
    s.paths <+: (s.createPath n names).1.paths := by
  induction names generalizing s n with
  | nil => exact List.prefix_rfl
  | cons name names ih => exact (create_paths s n name).trans (ih _ _)

/-- **Adding a path leads to its namespace.** -/
theorem createPath_path? (hn : s.path? n = some p) :
    (s.createPath n names).1.path? (s.createPath n names).2 = some (p ++ names) := by
  induction names generalizing s n p with
  | nil => simpa [createPath] using hn
  | cons name names ih =>
    rw [createPath, ih (create_path? hn), List.append_assoc]
    rfl

theorem path_eq (hn : s.path? n = some p) : s.path n = p := by
  rw [path, hn]
  rfl

theorem mem_paths_of_path? (hn : s.path? n = some p) : p ∈ s.paths := by
  rw [path?_eq] at hn
  exact List.mem_of_getElem? hn

theorem create_forall {P : List String → Prop} (hP : ∀ p ∈ s.paths, P p) (hn : s.path? n = some p)
    (hname : P (p ++ [name])) : ∀ q ∈ (s.create n name).1.paths, P q := by
  unfold create
  split
  · exact hP
  · rw [path_eq hn]
    simpa [paths, or_imp, forall_and, hname] using hP

/-- **What holds of all paths** and of a path with one more name holds behind it. -/
theorem createPath_forall {P : List String → Prop} (hP : ∀ p ∈ s.paths, P p)
    (hn : n < s.nodes.length) (hext : ∀ p, P p → ∀ name ∈ names, P (p ++ [name])) :
    ∀ p ∈ (s.createPath n names).1.paths, P p := by
  induction names generalizing s n with
  | nil => exact hP
  | cons name names ih =>
    obtain ⟨p, hp⟩ := lt_length_iff.1 hn
    refine ih (create_forall hP hp (hext p (hP p (mem_paths_of_path? hp)) name (by simp))) ?_ fun p h m hm =>
      hext p h m (List.mem_cons_of_mem _ hm)
    exact lt_length_iff.2 ⟨_, create_path? hp⟩

/-- The paths behind a namespace that was added. -/
theorem mem_paths_create (hn : s.path? n = some p) {q : List String} :
    q ∈ (s.create n name).1.paths ↔ q ∈ s.paths ∨ q = p ++ [name] := by
  unfold create child?
  rw [hn]
  dsimp only [Option.bind_eq_bind, Option.bind_some]
  split
  · rename_i child hc
    exact ⟨.inl, fun h => h.elim id fun h => h ▸ mem_paths_of_path? (find?_path? hc)⟩
  · rw [path_eq hn]
    simp [paths]

/-- **The paths behind a path that was added**: those that were there, and those on the way. -/
theorem mem_paths_createPath (hn : s.path? n = some p) {q : List String} :
    q ∈ (s.createPath n names).1.paths ↔ q ∈ s.paths ∨ p <+: q ∧ q <+: p ++ names := by
  induction names generalizing s n p with
  | nil =>
    rw [createPath, List.append_nil]
    refine ⟨.inl, fun h => h.elim id fun ⟨hpq, hqp⟩ => ?_⟩
    rw [hqp.eq_of_length_le hpq.length_le]
    exact mem_paths_of_path? hn
  | cons name names ih =>
    rw [createPath_cons, ih (create_path? hn), mem_paths_create hn, or_assoc]
    by_cases hq : q ∈ s.paths
    · exact ⟨fun _ => .inl hq, fun _ => .inl hq⟩
    simp only [hq, false_or]
    refine ⟨?_, fun ⟨hpq, hqp⟩ => ?_⟩
    · rintro (rfl | ⟨hpq, hqp⟩)
      · exact ⟨List.prefix_append _ _, by simp⟩
      · exact ⟨(List.prefix_append _ _).trans hpq, by rwa [List.append_assoc] at hqp⟩
    · obtain ⟨k, rfl⟩ := hpq
      rw [List.prefix_append_right_inj] at hqp
      cases k with
      | nil => exact absurd (mem_paths_of_path? hn) (by rwa [List.append_nil] at hq)
      | cons name' k =>
        obtain ⟨rfl, hk⟩ := List.cons_prefix_cons.1 hqp
        exact .inr ⟨by simp, by simpa using hk⟩

/-! ## Namespaces around others -/

/-- With each path those around it are there. -/
def IsClosed (s : Namespaces) : Prop :=
  ∀ p name, p ++ [name] ∈ s.paths → p ∈ s.paths

theorem IsClosed.of_paths {t : Namespaces} (h : s.IsClosed) (ht : t.paths = s.paths) : t.IsClosed := by
  intro p name
  rw [ht]
  exact h p name

theorem IsClosed.create (h : s.IsClosed) (hn : s.path? n = some p) (name : String) :
    (s.create n name).1.IsClosed := by
  unfold Namespaces.create
  split
  · exact h
  · rw [path_eq hn]
    intro q m hq
    have hpaths : Namespaces.paths { s with nodes := s.nodes ++ [⟨p ++ [name], []⟩] } =
        s.paths ++ [p ++ [name]] := by simp [paths]
    rw [hpaths] at hq ⊢
    rcases List.mem_append.1 hq with hq | hq
    · exact List.mem_append_left _ (h q m hq)
    · obtain ⟨rfl, -⟩ := List.append_inj' (List.mem_singleton.1 hq) rfl
      exact List.mem_append_left _ (mem_paths_of_path? hn)

theorem IsClosed.createPath (h : s.IsClosed) (hn : n < s.nodes.length) :
    (s.createPath n names).1.IsClosed := by
  induction names generalizing s n with
  | nil => exact h
  | cons name names ih =>
    obtain ⟨p, hp⟩ := lt_length_iff.1 hn
    exact ih (h.create hp name) (lt_length_iff.2 ⟨_, create_path? hp⟩)

theorem IsClosed.prefix_mem {q : List String} (h : s.IsClosed) (hp : p ++ q ∈ s.paths) : p ∈ s.paths := by
  induction hq : q.reverse generalizing q with
  | nil => simpa [List.reverse_eq_nil_iff.1 hq] using hp
  | cons name q' ih =>
    obtain rfl : q = q'.reverse ++ [name] := by simpa using congrArg List.reverse hq
    rw [← List.append_assoc] at hp
    exact ih (h _ _ hp) (List.reverse_reverse q')

theorem find?_isSome (h : p ∈ s.paths) : (s.find? p).isSome := by
  obtain ⟨ns, hns, rfl⟩ := List.mem_map.1 h
  rw [find?, List.findIdx?_isSome, List.any_eq_true]
  exact ⟨ns, hns, beq_self_eq_true _⟩

/-! ## Different paths -/

/-- Namespaces with different paths are found under them. -/
theorem find?_eq_some_iff (h : s.paths.Nodup) : s.find? p = some n ↔ s.path? n = some p := by
  refine ⟨find?_path?, fun hn => ?_⟩
  obtain ⟨m, hm⟩ := Option.isSome_iff_exists.1 (find?_isSome (mem_paths_of_path? hn))
  have hpath := find?_path? hm
  rw [path?_eq] at hn hpath
  obtain ⟨hlt, -⟩ := List.getElem?_eq_some_iff.1 hn
  rw [hm, (List.getElem?_inj hlt h).1 (hn.trans hpath.symm)]

theorem child?_eq (hn : s.path? n = some p) (name : String) :
    s.child? n name = s.find? (p ++ [name]) := by
  rw [child?, hn]
  rfl

/-- A namespace is added only if its path is new. -/
theorem nodup_create (h : s.paths.Nodup) (hn : s.path? n = some p) (name : String) :
    (s.create n name).1.paths.Nodup := by
  unfold create
  rw [child?_eq hn]
  cases hc : s.find? (p ++ [name]) with
  | some child => exact h
  | none =>
    have hnew : p ++ [name] ∉ s.paths := fun hmem => by
      obtain ⟨child, hchild⟩ := Option.isSome_iff_exists.1 (find?_isSome hmem)
      cases hc.symm.trans hchild
    simp only [paths, List.map_append, List.map_cons, List.map_nil, path_eq hn]
    exact List.nodup_append.2 ⟨h, List.pairwise_singleton _ _, fun a ha b hb hab =>
      hnew (List.mem_singleton.1 hb ▸ hab ▸ ha)⟩

/-- **Namespaces that are added keep all paths different.** -/
theorem nodup_createPath (h : s.paths.Nodup) (hn : n < s.nodes.length) :
    (s.createPath n names).1.paths.Nodup := by
  induction names generalizing s n with
  | nil => exact h
  | cons name names ih =>
    obtain ⟨p, hp⟩ := lt_length_iff.1 hn
    exact ih (nodup_create h hp name) (lt_length_iff.2 ⟨_, create_path? hp⟩)

/-- **A path that is there stays as it is.** -/
theorem createPath_self (h : s.IsClosed) (hn : s.path? n = some p) (hp : p ++ names ∈ s.paths) :
    (s.createPath n names).1 = s := by
  induction names generalizing n p with
  | nil => rfl
  | cons name names ih =>
    rw [List.append_cons] at hp
    obtain ⟨child, hc⟩ := Option.isSome_iff_exists.1 (find?_isSome (h.prefix_mem hp))
    have hcreate : s.create n name = (s, child) := by
      have : s.child? n name = some child := by
        rw [child?, hn]
        exact hc
      rw [create, this]
    rw [createPath, hcreate]
    exact ih (find?_path? hc) hp

/-! ## What depends on paths alone -/

section
variable {t : Namespaces} (h : t.paths = s.paths)
include h

theorem path?_congr (n : Nat) : t.path? n = s.path? n := by
  rw [path?_eq, path?_eq, h]

theorem path_congr (n : Nat) : t.path n = s.path n := by
  rw [path, path, path?_congr h]

theorem length_congr : t.nodes.length = s.nodes.length := by
  rw [← length_paths, ← length_paths, h]

theorem find?_congr (p : List String) : t.find? p = s.find? p := by
  have eq (u : Namespaces) : u.find? p = u.paths.findIdx? fun q => q == p := by
    rw [find?, paths, List.findIdx?_map]
    rfl
  rw [eq, eq, h]

theorem child?_congr (n : Nat) (name : String) : t.child? n name = s.child? n name := by
  simp only [child?, path?_congr h, find?_congr h]

theorem enclosing_congr (n : Nat) : t.enclosing n = s.enclosing n := by
  simp only [enclosing, path_congr h]
  rw [show t.find? = s.find? from funext (find?_congr h)]

theorem descend?_congr (n : Nat) (names : List String) : t.descend? n names = s.descend? n names := by
  induction names generalizing n with
  | nil => rfl
  | cons name names ih =>
    rw [descend?, descend?, child?_congr h]
    exact congrArg _ (funext ih)

theorem qualified_congr (n : Nat) (name : String) : t.qualified n name = s.qualified n name := by
  rw [qualified, qualified, path_congr h]

theorem create_congr (n : Nat) (name : String) :
    (t.create n name).1.paths = (s.create n name).1.paths ∧ (t.create n name).2 = (s.create n name).2 := by
  unfold create
  rw [child?_congr h]
  cases s.child? n name with
  | some child => exact ⟨h, rfl⟩
  | none =>
    refine ⟨?_, length_congr h⟩
    have h' : t.nodes.map Namespace.path = s.nodes.map Namespace.path := h
    simp [paths, h', path_congr h]

theorem createPath_congr (n : Nat) (names : List String) :
    (t.createPath n names).1.paths = (s.createPath n names).1.paths ∧
      (t.createPath n names).2 = (s.createPath n names).2 := by
  induction names generalizing s t n with
  | nil => exact ⟨h, rfl⟩
  | cons name names ih =>
    obtain ⟨hp, hn⟩ := create_congr h n name
    rw [createPath_cons, createPath_cons, hn]
    exact ih hp _

end

@[simp] theorem globalUsings_createPath (s : Namespaces) (n : Nat) (names : List String) :
    (s.createPath n names).1.globalUsings = s.globalUsings := by
  induction names generalizing s n with
  | nil => rfl
  | cons name names ih =>
    rw [createPath, ih]
    unfold create
    split <;> rfl

@[simp] theorem globalUsings_register (s : Namespaces) (n : Nat) (name : String) (id : TypeId) :
    (s.register n name id).globalUsings = s.globalUsings := by
  unfold register
  split <;> rfl

/-! ## Types by name -/

theorem typeIn?_eq (s : Namespaces) (n : Nat) (name : String) :
    s.typeIn? n name = s.nodes[n]?.bind fun ns => ns.types.lookup name :=
  rfl

/-- **What is found behind a type that was entered.** -/
theorem typeIn?_register (s : Namespaces) (m : Nat) (key : String) (id : TypeId) (n : Nat)
    (name : String) : (s.register m key id).typeIn? n name =
      (s.typeIn? n name).or (if n = m ∧ name = key ∧ m < s.nodes.length then some id else none) := by
  unfold register
  split
  · rename_i h
    split
    · rename_i hc
      obtain ⟨rfl, rfl, -⟩ := hc
      rw [Option.or_of_isSome h]
    · rw [Option.or_none]
  · rename_i h
    simp only [typeIn?_eq, List.getElem?_modify, Option.map_eq_map]
    by_cases hn : n = m
    · subst hn
      cases hs : s.nodes[n]? with
      | none =>
        have : ¬ n < s.nodes.length := by simpa using hs
        simp [this]
      | some ns =>
        have hlt : n < s.nodes.length := (List.getElem?_eq_some_iff.1 hs).1
        simp only [if_true, Option.map_some, Option.bind_some, List.lookup_append, hlt, and_true, true_and]
        by_cases hname : name = key
        · simp [hname]
        · simp [List.lookup_cons, hname, beq_false_of_ne hname]
    · have hm : m ≠ n := fun h => hn h.symm
      cases s.nodes[n]? <;> simp [hn, hm]

@[simp] theorem typeIn?_addGlobalUsing (s : Namespaces) (m n : Nat) (name : String) :
    (s.addGlobalUsing m).typeIn? n name = s.typeIn? n name := by
  unfold addGlobalUsing
  split <;> rfl

theorem typeIn?_create (s : Namespaces) (m : Nat) (key : String) (n : Nat) (name : String) :
    (s.create m key).1.typeIn? n name = s.typeIn? n name := by
  unfold create
  split
  · rfl
  · simp only [typeIn?_eq, List.getElem?_append]
    split
    · rfl
    · rename_i h
      rw [List.getElem?_eq_none (Nat.le_of_not_lt h)]
      rcases hn : n - s.nodes.length with _ | k <;> simp

@[simp] theorem typeIn?_createPath (s : Namespaces) (m : Nat) (names : List String) (n : Nat)
    (name : String) : (s.createPath m names).1.typeIn? n name = s.typeIn? n name := by
  induction names generalizing s m with
  | nil => rfl
  | cons key names ih => rw [createPath, ih, typeIn?_create]

/-! ## The types of a namespace -/

/-- The types right in the namespace numbered `n`, by metadata name. -/
def entries (s : Namespaces) (n : Nat) : List (String × TypeId) :=
  (s.nodes[n]?.map Namespace.types).getD []

theorem lookup_entries (s : Namespaces) (n : Nat) (name : String) :
    (s.entries n).lookup name = s.typeIn? n name := by
  rw [entries, typeIn?_eq]
  cases s.nodes[n]? <;> rfl

/-- A type that is entered stands behind the others, if none has its name. -/
theorem entries_register {m : Nat} {key : String} (hm : m < s.nodes.length)
    (hkey : s.typeIn? m key = none) (id : TypeId) (n : Nat) :
    (s.register m key id).entries n = s.entries n ++ if n = m then [(key, id)] else [] := by
  unfold register entries
  rw [hkey, if_neg (by simp), List.getElem?_modify]
  by_cases hn : m = n
  · subst hn
    simp [List.getElem?_eq_getElem hm]
  · simp [hn, show n ≠ m from fun h => hn h.symm]

@[simp] theorem entries_addGlobalUsing (s : Namespaces) (m n : Nat) :
    (s.addGlobalUsing m).entries n = s.entries n := by
  unfold addGlobalUsing
  split <;> rfl

theorem entries_create (s : Namespaces) (m : Nat) (key : String) (n : Nat) :
    (s.create m key).1.entries n = s.entries n := by
  unfold create
  split
  · rfl
  · simp only [entries, List.getElem?_append]
    split
    · rfl
    · rename_i h
      rw [List.getElem?_eq_none (Nat.le_of_not_lt h)]
      rcases n - s.nodes.length with _ | k <;> simp

@[simp] theorem entries_createPath (s : Namespaces) (m : Nat) (names : List String) (n : Nat) :
    (s.createPath m names).1.entries n = s.entries n := by
  induction names generalizing s m with
  | nil => rfl
  | cons key names ih => rw [createPath, ih, entries_create]

end CommandModules.Namespaces

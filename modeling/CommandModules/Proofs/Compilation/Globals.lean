/-
  Command modules — what global using directives leave.

  Directives are applied one after the other, and the target of an alias is looked up in the
  namespaces that are imported by then.

  * `GlobalUsings.add_cases`: a directive imports a namespace, declares an alias or has no effect;
  * `mem_globalUsings_foldl`: in the end the namespaces are imported that the directives name;
  * `SymbolTable.Feeds`: a directive imports a type that the target of an alias may begin with;
  * `aliases_foldl`: aliases mean what they would mean if they were declared in the end, if no
    directive comes after an alias that it feeds.
-/
import CommandModules.Proofs.Compilation.Rebind
import CommandModules.Proofs.Symbol.Imports

namespace CommandModules

open Namespaces SymbolTable

variable {t t' : SymbolTable} {u a : Using} {us : List Using} {n m : Nat} {name : String}

/-- The directive imports a namespace. -/
def Using.isImport (u : Using) : Bool :=
  !u.isStatic && u.alias?.isNone

/-- The directive declares an alias. -/
def Using.isAlias (u : Using) : Bool :=
  !u.isStatic && u.alias?.isSome

/-! ## Imports -/

theorem Namespaces.mem_addGlobalUsing {s : Namespaces} :
    m ∈ (s.addGlobalUsing n).globalUsings ↔ m = n ∨ m ∈ s.globalUsings := by
  unfold addGlobalUsing
  split
  · rename_i hn
    rw [List.contains_iff_mem] at hn
    exact ⟨.inr, fun h => h.elim (fun h => h ▸ hn) id⟩
  · exact List.mem_cons

/-- An import does not change a name that is found without it or that it does not have. -/
theorem Namespaces.resolveType_addGlobalUsing {s : Namespaces}
    (h : s.typeIn? n name = none ∨ s.typeIn? m name ≠ none) :
    (s.resolveType name (.ofNamespace m)).Same
      ((s.addGlobalUsing n).resolveType name (.ofNamespace m)) := by
  have hencl : (s.addGlobalUsing n).enclosing m = s.enclosing m :=
    enclosing_congr (paths_addGlobalUsing s n) m
  rcases h with h | h
  · refine resolveType_same ?_ fun id => exists_congr fun k => ?_
    · simp only [Scope.ofNamespace, hencl, typeIn?_addGlobalUsing]
    · simp only [Scope.ofNamespace, List.nil_append, typeIn?_addGlobalUsing, mem_addGlobalUsing]
      refine and_congr_left fun hk => ⟨.inr, fun hmem => hmem.resolve_left ?_⟩
      rintro rfl
      rw [h] at hk
      cases hk
  · obtain ⟨id, hid⟩ := Option.ne_none_iff_exists'.1 h
    have hfound (s' : Namespaces) (hs' : s'.typeIn? m name = some id) :
        s'.resolveType name (.ofNamespace m) = .found id := by
      unfold resolveType
      rw [enclosing, Scope.ofNamespace, List.findSome?_cons, hs']
    rw [hfound s hid, hfound _ ((typeIn?_addGlobalUsing ..).trans hid)]
    exact .found id

namespace SymbolTable

/-- The table in which a directive has imported the namespace that it names. -/
def importing (t : SymbolTable) (u : Using) : SymbolTable :=
  match t.usingNamespace? u.name root with
  | some n => { t with namespaces := t.namespaces.addGlobalUsing n }
  | none => t

theorem sameTypes_importing (t : SymbolTable) (u : Using) : t.SameTypes (t.importing u) := by
  unfold importing
  split
  · refine ⟨?_, rfl, rfl⟩
    dsimp only
    unfold addGlobalUsing
    split <;> rfl
  · exact ⟨rfl, rfl, rfl⟩

theorem mem_importing : m ∈ (t.importing u).namespaces.globalUsings ↔
    t.usingNamespace? u.name root = some m ∨ m ∈ t.namespaces.globalUsings := by
  unfold importing
  split
  · rename_i n hn
    rw [mem_addGlobalUsing, hn, Option.some_inj, eq_comm]
  · rename_i hn
    simp [hn]

theorem SameTypes.eq_withGlobals (h : t.SameTypes t') :
    t' = t.withGlobals t'.namespaces.globalUsings := by
  obtain ⟨⟨nodes, globals⟩, types, order⟩ := t
  obtain ⟨⟨nodes', globals'⟩, types', order'⟩ := t'
  obtain ⟨rfl, rfl, rfl⟩ := h
  rfl

/-! ## Aliases -/

/-- The target of an alias is the same if the first part of its name means the same. -/
theorem SameTypes.aliasTarget?_eq (h : t.SameTypes t') {name : Name}
    (hfirst : t.usingNamespace? name n = none → name.isGlobal = false → ∀ first ∈ name.parts.head?,
      (t.namespaces.resolveType first.metadataName (.ofNamespace n)).Same
        (t'.namespaces.resolveType first.metadataName (.ofNamespace n))) :
    t'.aliasTarget? name n = t.aliasTarget? name n := by
  unfold aliasTarget?
  rw [usingNamespace?_congr h.paths]
  cases hspace : t.usingNamespace? name n with
  | some m => rfl
  | none =>
    have hrel : (t.resolveName name.parts name.isGlobal (.ofNamespace n)).Rel (· = ·)
        (t'.resolveName name.parts name.isGlobal (.ofNamespace n)) :=
      h.resolveName (.refl _) (hfirst hspace)
    dsimp only
    rw [rel_eq_iff.1 hrel.get?]

namespace SameImports

variable (h : t.SameImports t')
include h

theorem aliases_eq (n : Nat) (us : List Using) : t'.aliases n us = t.aliases n us := by
  refine List.filterMap_congr fun u _ => ?_
  rw [h.aliasTarget?_eq fun _ _ first _ => h.resolveType (.refl _) first.metadataName]

theorem imports_eq (n : Nat) (us : List Using) : t'.imports n us = t.imports n us := by
  refine List.filterMap_congr fun u _ => ?_
  rw [usingNamespace?_congr h.paths]

end SameImports

theorem aliases_cons (t : SymbolTable) (n : Nat) (u : Using) (us : List Using) :
    t.aliases n (u :: us) = t.aliases n [u] ++ t.aliases n us :=
  List.filterMap_append (l := [u])

/-- The directive `u` imports a namespace with a type that the name behind the alias of `a` may
    begin with: it is not the name of a namespace, nor of a type of the global namespace. -/
def Feeds (t : SymbolTable) (u a : Using) : Prop :=
  u.isImport = true ∧ a.isAlias = true ∧ a.name.isGlobal = false ∧
    t.usingNamespace? a.name root = none ∧
      ∃ n ∈ t.usingNamespace? u.name root, ∃ first ∈ a.name.parts.head?,
        (t.namespaces.typeIn? n first.metadataName).isSome ∧
          t.namespaces.typeIn? root first.metadataName = none

instance (t : SymbolTable) (u a : Using) : Decidable (t.Feeds u a) :=
  inferInstanceAs (Decidable (_ ∧ _ ∧ _ ∧ _ ∧ _))

theorem SameTypes.feeds_iff (h : t.SameTypes t') : t'.Feeds u a ↔ t.Feeds u a := by
  unfold Feeds
  simp only [usingNamespace?_congr h.paths, h.typeIn?_eq]

/-- An import leaves an alias alone that it does not feed. -/
theorem aliases_importing (hu : u.isImport = true) (ha : a.isAlias = true) (hfree : ¬ t.Feeds u a) :
    (t.importing u).aliases root [a] = t.aliases root [a] := by
  refine List.filterMap_congr fun b hb => ?_
  obtain rfl := List.mem_singleton.1 hb
  rw [(sameTypes_importing t u).aliasTarget?_eq fun hspace hglobal first hmem => ?_]
  unfold importing
  split
  · rename_i n hn
    refine resolveType_addGlobalUsing (or_iff_not_imp_left.2 fun hsome hroot => hfree ?_)
    exact ⟨hu, ha, hglobal, hspace, n, hn, first, hmem, Option.isSome_iff_ne_none.2 hsome, hroot⟩
  · exact .refl _

end SymbolTable

/-! ## Directives, one after the other -/

namespace GlobalUsings

variable {g : GlobalUsings}

/-- What a directive does: nothing, or it imports a namespace or declares an alias. -/
theorem add_cases (u : Using) :
    (u.isImport = false ∧ u.isAlias = false ∧ ∀ g, add g u = g) ∨
    (u.isImport = true ∧ u.isAlias = false ∧
      ∀ g, add g u = { g with table := g.table.importing u }) ∨
    (u.isImport = false ∧ u.isAlias = true ∧
      ∀ g, add g u = { g with aliases := g.aliases ++ g.table.aliases root [u] }) := by
  unfold add Using.isImport Using.isAlias
  cases u.isStatic with
  | true => exact .inl ⟨rfl, rfl, fun _ => rfl⟩
  | false =>
    cases u.alias? with
    | some i => exact .inr (.inr ⟨rfl, rfl, fun _ => rfl⟩)
    | none =>
      refine .inr (.inl ⟨rfl, rfl, fun g => ?_⟩)
      unfold importing
      dsimp only
      cases g.table.usingNamespace? u.name root <;> rfl

theorem sameTypes_add (g : GlobalUsings) (u : Using) : g.table.SameTypes (g.add u).table := by
  obtain ⟨-, -, h⟩ | ⟨-, -, h⟩ | ⟨-, -, h⟩ := add_cases u <;> rw [h]
  · exact ⟨rfl, rfl, rfl⟩
  · exact sameTypes_importing _ u
  · exact ⟨rfl, rfl, rfl⟩

theorem sameTypes_foldl (g : GlobalUsings) (us : List Using) :
    g.table.SameTypes (us.foldl add g).table := by
  induction us generalizing g with
  | nil => exact ⟨rfl, rfl, rfl⟩
  | cons u us ih => exact (sameTypes_add g u).trans (ih (g.add u))

theorem mem_globalUsings_add : n ∈ (g.add u).table.namespaces.globalUsings ↔
    n ∈ g.table.namespaces.globalUsings ∨
      u.isImport = true ∧ g.table.usingNamespace? u.name root = some n := by
  obtain ⟨hi, -, h⟩ | ⟨hi, -, h⟩ | ⟨hi, -, h⟩ := add_cases u <;> rw [h, hi]
  · simp
  · simp [mem_importing, or_comm]
  · simp

/-- **The namespaces are imported** that the directives name, in whatever order. -/
theorem mem_globalUsings_foldl (ht : t.SameTypes g.table) :
    n ∈ (us.foldl add g).table.namespaces.globalUsings ↔ n ∈ g.table.namespaces.globalUsings ∨
      ∃ u ∈ us, u.isImport = true ∧ t.usingNamespace? u.name root = some n := by
  induction us generalizing g with
  | nil => simp
  | cons u us ih =>
    rw [List.foldl_cons, ih (ht.trans (sameTypes_add g u)), mem_globalUsings_add,
      usingNamespace?_congr ht.paths, or_assoc, List.exists_mem_cons_iff]

/-- An alias is not changed by directives that do not feed it. -/
theorem aliases_foldl_of_not_feeds (ht : t.SameTypes g.table) (ha : a.isAlias = true)
    (hfree : ∀ u ∈ us, ¬ t.Feeds u a) :
    (us.foldl add g).table.aliases root [a] = g.table.aliases root [a] := by
  induction us generalizing g with
  | nil => rfl
  | cons u us ih =>
    obtain ⟨hu, hus⟩ := List.forall_mem_cons.1 hfree
    rw [List.foldl_cons, ih (ht.trans (sameTypes_add g u)) hus]
    obtain ⟨-, -, h⟩ | ⟨himport, -, h⟩ | ⟨-, -, h⟩ := add_cases u <;> rw [h]
    exact aliases_importing himport ha (ht.feeds_iff.not.2 hu)

/-- **Aliases mean what they would mean in the end**, if no directive comes after an alias that it
    feeds. -/
theorem aliases_foldl (ht : t.SameTypes g.table) (horder : us.Pairwise fun a u => ¬ t.Feeds u a) :
    (us.foldl add g).aliases =
      g.aliases ++ (us.foldl add g).table.aliases root (us.filter Using.isAlias) := by
  induction us generalizing g with
  | nil => exact (List.append_nil _).symm
  | cons a us ih =>
    obtain ⟨hlater, hrest⟩ := List.pairwise_cons.1 horder
    have hend := ht.trans (sameTypes_add g a)
    rw [List.foldl_cons, ih hend hrest]
    obtain ⟨-, ha, h⟩ | ⟨-, ha, h⟩ | ⟨-, ha, h⟩ := add_cases a
    · rw [List.filter_cons_of_neg (by simp [ha]), h]
    · rw [List.filter_cons_of_neg (by simp [ha]), h]
    -- the later directives do not feed the alias, so its target means the same in the end
    · rw [List.filter_cons_of_pos ha, aliases_cons, aliases_foldl_of_not_feeds hend ha hlater, h,
        List.append_assoc]

theorem sameTypes_of (t : SymbolTable) (us : List Using) : t.SameTypes (of t us).table :=
  sameTypes_foldl ⟨t, []⟩ us

theorem paths_of (t : SymbolTable) (us : List Using) :
    t.namespaces.paths <+: (of t us).table.namespaces.paths :=
  (sameTypes_of t us).paths ▸ List.prefix_rfl

theorem mem_globalUsings_of : n ∈ (of t us).table.namespaces.globalUsings ↔
    n ∈ t.namespaces.globalUsings ∨
      ∃ u ∈ us, u.isImport = true ∧ t.usingNamespace? u.name root = some n :=
  mem_globalUsings_foldl ⟨rfl, rfl, rfl⟩

theorem aliases_of (horder : us.Pairwise fun a u => ¬ t.Feeds u a) :
    (of t us).aliases = (of t us).table.aliases root (us.filter Using.isAlias) :=
  aliases_foldl ⟨rfl, rfl, rfl⟩ horder

end GlobalUsings

end CommandModules

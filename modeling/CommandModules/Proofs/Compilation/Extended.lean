/-
  Command modules — compilations with further sources.

  * `Compilation.sourceTable` is the table behind the declarations of the sources alone;
  * `Declaring.Step.isIn`: bases that were put aside stand in types of the table, and using
    directives have names;
  * `Compilation.Avoids`: no name that is looked up to bind bases is that of a stray;
  * `Compilation.withSources_grows`: further sources, with one part each, add declarations to
    the types of the compilation and strays, and change nothing else.
-/
import CommandModules.Proofs.Compilation.Rebind
import CommandModules.Proofs.Compilation.Supplement

namespace CommandModules

open Relation

/-! ## Bases that were put aside -/

section
variable {number : Nat} {tree : SyntaxTree} {origin : Origin} {s s' : Declaring}
  {us : List Using} {t t' : SymbolTable} {p : PendingBases}

theorem SyntaxTree.IsParsed.usings_named (h : tree.IsParsed) (hus : tree.HasUsings us) :
    ∀ u ∈ us, u.name.segments ≠ [] := by
  obtain rfl | ⟨d, hd, rfl⟩ := hus
  · exact (h.nodes_isWorded _ tree.root_mem_nodes).1
  · cases h.nodes_isWorded _ hd with
    | namespace_ _ hu _ => exact hu

theorem PendingBases.IsIn.mono (h : p.IsIn t) (ht : t.Extends t') : p.IsIn t' :=
  ⟨fun outer ho => (h.containing outer ho).mono ht, h.usings⟩

/-- What was found is in the table, and using directives have names. -/
structure Declaring.IsIn (s : Declaring) : Prop where
  pending : ∀ p ∈ s.found.pending, p.IsIn s.table
  globalUsings : ∀ u ∈ s.found.globalUsings, u.name.segments ≠ []

theorem Declaring.declare_found (s : Declaring) (w : Surroundings) (d : NewType) :
    (s.declare w d).2.found.pending = s.found.pending ∧
      (s.declare w d).2.found.globalUsings = s.found.globalUsings := by
  unfold declare
  split
  · exact ⟨rfl, rfl⟩
  · split <;> exact ⟨rfl, rfl⟩

/-- Each step keeps it that what was found is in the table. -/
theorem Declaring.Step.isIn (h : Declaring.Step number tree origin s s') (ht : tree.IsParsed)
    (hs : s.IsIn) : s'.IsIn := by
  have he := h.extends
  cases h with
  | @declare w _ _ _ d =>
    obtain ⟨hpending, husings⟩ := s.declare_found w d
    refine ⟨fun p hp => ?_, fun u hu => hs.globalUsings u (husings ▸ hu)⟩
    exact (hs.pending p (hpending ▸ hp)).mono he
  | @putAside w path outer? id t hw ho =>
    unfold Declaring.putAside
    split
    · exact hs
    · refine ⟨List.forall_mem_append.2 ⟨hs.pending, List.forall_mem_singleton.2 ?_⟩,
        hs.globalUsings⟩
      exact ⟨ho, fun b hb => ht.usings_named (hw.tree ▸ (hw.usings b hb).2)⟩
  | noteUsings hus =>
    refine ⟨hs.pending, List.forall_mem_append.2 ⟨hs.globalUsings, fun u hu => ?_⟩⟩
    exact ht.usings_named hus u (List.mem_of_mem_filter hu)
  | enterNamespace => exact ⟨fun p hp => (hs.pending p hp).mono he, hs.globalUsings⟩

theorem isIn_isKept : Declaring.IsKept fun _ tree s => tree.IsParsed → s.IsIn where
  start _ _ _ _ := ⟨List.forall_mem_nil _, List.forall_mem_nil _⟩
  step h hs ht := h.isIn ht (hs ht)
  mono hs ht hp := ⟨fun p hmem => ((hs hp).pending p hmem).mono ht, (hs hp).globalUsings⟩

end

namespace Compilation

variable (c : Compilation)

/-! ## The sources alone -/

/-- The table behind the declarations of the sources. -/
def sourceTable : SymbolTable :=
  (declareTrees .empty 0 (c.sources.map (·, Origin.source))).1

/-- What the sources hold. -/
def sourceFound : List (Origin × TreeDeclarations) :=
  (declareTrees .empty 0 (c.sources.map (·, Origin.source))).2

theorem sourceTable_steps : ReflTransGen (SymbolTable.Step c.sources) .empty c.sourceTable := by
  refine declareTrees_steps rfl fun i _ => ?_
  simp [Function.comp_def]

theorem sourceTable_root : c.sourceTable.namespaces.path? Namespaces.root = some [] :=
  (SymbolTable.sound_of_steps c.sourceTable_steps SymbolTable.sound_empty).root

theorem sourceTable_isClosed : c.sourceTable.namespaces.IsClosed :=
  SymbolTable.induction_of_steps c.sourceTable_steps SymbolTable.isClosed_empty
    fun _ _ hs => hs.isClosed

theorem sourceTable_hasWords (h : ∀ tree ∈ c.sources, tree.IsParsed) : c.sourceTable.HasWords :=
  SymbolTable.induction_of_steps c.sourceTable_steps SymbolTable.hasWords_empty
    fun _ _ hs => hs.hasWords h

/-- The references are declared behind the sources. -/
theorem declaring_eq : c.declaring =
    let refs := declareTrees c.sourceTable c.sources.length
      ((c.references.flatMap Reference.trees).map (·, Origin.metadata))
    (refs.1, c.sourceFound ++ refs.2) := by
  rw [declaring, numberedTrees, declareTrees_append, List.length_map, Nat.zero_add]
  rfl

/-- Further sources are declared between the sources and the references. -/
theorem withSources_declaring (gs : List SyntaxTree) : (c.withSources gs).declaring =
    let new := declareTrees c.sourceTable c.sources.length (gs.map (·, Origin.source))
    let refs := declareTrees new.1 (c.sources.length + gs.length)
      ((c.references.flatMap Reference.trees).map (·, Origin.metadata))
    (refs.1, c.sourceFound ++ new.2 ++ refs.2) := by
  show declareTrees .empty 0 (numberedTrees (c.sources ++ gs) c.references) = _
  rw [numberedTrees, List.map_append, declareTrees_append, declareTrees_append, List.length_append,
    List.length_map, List.length_map, Nat.zero_add, Nat.zero_add]
  rfl

/-! ## What is bound -/

/-- The lists of bases of the compilation. -/
def pending : List PendingBases :=
  c.declaring.2.flatMap fun f => f.2.pending

/-- The global using directives of the compilation. -/
def globalUsings : List Using :=
  effectiveUsings c.declaring.2

/-- What binding the bases gives. -/
def binding : Binding :=
  bindBases c.declaring.1 c.globalUsings c.pending

theorem table_eq : c.table = c.binding.table :=
  c.symbols_table_eq

theorem symbols_diagnostics_eq : c.symbols.diagnostics =
    (c.declaring.2.flatMap fun f => f.2.diagnostics) ++ c.binding.diagnostics := by
  rw [c.symbols_eq]
  rfl

/-- The names that are looked up to bind the bases of the compilation avoid strays. -/
def Avoids (strays : TypeId → Prop) : Prop :=
  c.declaring.1.BindingAvoids strays c.globalUsings c.pending

/-- Without strays there is nothing to avoid. -/
theorem avoids_of_none {strays : TypeId → Prop} (h : ∀ id, ¬ strays id) : c.Avoids strays where
  global _ _ _ := .of_head fun _ _ => h _
  aliases _ _ _ _ _ _ _ := .of_head fun _ _ => h _
  bases _ _ _ _ _ _ := .of_head fun _ _ => h _

theorem declaring_isIn (h : ∀ tree ∈ c.trees, tree.IsParsed) :
    ∀ f ∈ c.declaring.2, Declaring.IsIn ⟨c.declaring.1, f.2⟩ := by
  intro f hf
  obtain ⟨i, tree, hi, hp⟩ := declareTrees_found isIn_isKept (t := .empty) rfl f hf
  refine hp (h tree ?_)
  rw [trees_eq]
  exact List.mem_map_of_mem (List.mem_of_getElem? hi)

theorem pending_isIn (h : ∀ tree ∈ c.trees, tree.IsParsed) : ∀ p ∈ c.pending, p.IsIn c.declaring.1 := by
  intro p hp
  obtain ⟨f, hf, hp⟩ := List.mem_flatMap.1 hp
  exact (c.declaring_isIn h f hf).pending p hp

theorem globalUsings_named (h : ∀ tree ∈ c.trees, tree.IsParsed) :
    ∀ u ∈ c.globalUsings, u.name.segments ≠ [] := by
  intro u hu
  obtain ⟨f, hf, hu⟩ := List.mem_flatMap.1 hu
  split at hu
  · exact (c.declaring_isIn h f hf).globalUsings u hu
  · cases hu

/-! ## Further sources -/

theorem effectiveUsings_append (fs gs : List (Origin × TreeDeclarations)) :
    effectiveUsings (fs ++ gs) = effectiveUsings fs ++ effectiveUsings gs :=
  List.flatMap_append

variable {c}

/-- **Further sources with one part each** add declarations to the types of the compilation,
    and strays; nothing else changes, if no name that is looked up is that of a stray. -/
theorem withSources_grows {gs : List SyntaxTree} {strays : TypeId → Prop}
    (hparsed : ∀ tree ∈ c.trees, tree.IsParsed) (hd : c.symbols.diagnostics = [])
    (hgs : ∀ g ∈ gs, ∃ path k, g.Supplements strays c.sourceTable path k)
    (hrefs : ∀ r ∈ c.references, ∀ tree ∈ r.trees, ∀ n ∈ tree.fullNames, ¬ strays n.id)
    (havoid : c.Avoids strays) :
    let new := declareTrees c.sourceTable c.sources.length (gs.map (·, Origin.source))
    c.table.Grows strays (SymbolTable.Grows.keysOf (new.2.flatMap fun f => f.2.accepted))
        (c.withSources gs).table ∧
      (c.withSources gs).symbols.diagnostics = new.2.flatMap fun f => f.2.diagnostics := by
  intro new
  have hsources : ∀ tree ∈ c.sources, tree.IsParsed := fun tree ht =>
    hparsed tree (List.mem_append_left _ ht)
  obtain ⟨hnew, hpending, husings⟩ :=
    (SymbolTable.Grows.refl strays c.sourceTable).declareTrees c.sourceTable_root
      c.sourceTable_isClosed (c.sourceTable_hasWords hsources) hgs c.sources.length
  have hnew := hnew.congr fun id => List.nil_append _
  have hrefs : ∀ tree ∈ c.references.flatMap Reference.trees, ∀ n ∈ tree.fullNames, ¬ strays n.id :=
    fun tree ht =>
      have ⟨r, hr, ht⟩ := List.mem_flatMap.1 ht
      hrefs r hr tree ht
  obtain ⟨hgrows, halike, hdiags⟩ := declareTrees_alike c.sources.length
    (c.sources.length + gs.length) hrefs hnew c.sourceTable_root
  have hus : (c.withSources gs).globalUsings = c.globalUsings := by
    rw [globalUsings, globalUsings, withSources_declaring, declaring_eq]
    simp only [effectiveUsings_append, effectiveUsings_metadata]
    rw [show effectiveUsings _ = [] from husings, List.append_nil]
  have hpendings : List.Forall₂ PendingBases.Alike c.pending (c.withSources gs).pending := by
    rw [pending, pending, withSources_declaring, declaring_eq]
    simp only [List.flatMap_append]
    rw [show List.flatMap _ (declareTrees c.sourceTable c.sources.length
      (gs.map (·, Origin.source))).2 = [] from hpending, List.append_nil]
    have hsame (ps : List PendingBases) : List.Forall₂ PendingBases.Alike ps ps :=
      List.forall₂_same.2 fun _ _ => rfl
    exact List.rel_append (hsame _) halike
  rw [symbols_diagnostics_eq] at hd
  obtain ⟨hfound, hbinding⟩ := List.append_eq_nil_iff.1 hd
  have htables : c.declaring.1.Grows strays
      (SymbolTable.Grows.keysOf (new.2.flatMap fun f => f.2.accepted))
      (c.withSources gs).declaring.1 := by
    rw [declaring_eq, withSources_declaring]
    exact hgrows
  have hsound : c.declaring.1.Sound :=
    SymbolTable.sound_of_steps c.declaring_steps SymbolTable.sound_empty
  obtain ⟨hbound, hnone⟩ := bindBases_grows htables hsound (c.globalUsings_named hparsed)
    (c.pending_isIn hparsed) hpendings havoid hbinding
  refine ⟨?_, ?_⟩
  · rw [table_eq, table_eq, binding, binding, hus]
    exact hbound
  · rw [symbols_diagnostics_eq, binding, hus, hnone, List.append_nil, withSources_declaring]
    rw [declaring_eq] at hfound
    simp only [List.flatMap_append, List.append_eq_nil_iff] at hfound ⊢
    rw [hfound.1, List.nil_append]
    rw [hdiags, hfound.2, List.append_nil]

end Compilation

end CommandModules

/-
  Command modules — the sources that a run adds.

  A run adds one source for each registered class, with one more part of it.

  * `generated_registered`: the trees that a run adds are those of the registered classes;
  * `Compilation.IsFaultless`: nothing is wrong with the texts of a compilation;
    `IsFaultless.taken`: a registered class was accepted as itself then;
  * `IsFaultless.supplements`: the source of a class is one more part of it, or declares a
    stray.
-/
import CommandModules.Proofs.Compilation.SourcePart

namespace CommandModules

/-! ## Trees of a run -/

/-- What each element on the left says of its partner holds of all on the right. -/
theorem forall_of_forall₂ {α β : Type} {R : α → β → Prop} {P : β → Prop} {as : List α} {bs : List β}
    (h : List.Forall₂ R as bs) (hP : ∀ a ∈ as, ∀ b, R a b → P b) : ∀ b ∈ bs, P b := by
  induction h with
  | nil => nofun
  | cons hab _ ih =>
    obtain ⟨ha, has⟩ := List.forall_mem_cons.1 hP
    exact List.forall_mem_cons.2 ⟨ha _ hab, ih has⟩

theorem forall₂_readSources (name : String) (id : Nat) (sources : List GeneratedSource) :
    List.Forall₂ (fun s (g : GeneratedTree) =>
        ∃ i, g.tree = SyntaxTree.parse i (generatedPath name s.hintName) s.text)
      sources (readSources name id sources) := by
  induction sources generalizing id with
  | nil => exact .nil
  | cons s sources ih => exact .cons ⟨_, rfl⟩ (ih (id + 1))

/-- The trees that a run adds are those of the registered classes. -/
theorem generated_registered (c : Compilation) (o : Options) (hall : o.candidates = .all)
    (heff : o.override c.settings = o) :
    List.Forall₂ (fun k tree => ∃ i, tree = SyntaxTree.parse i
        (generatedPath "ModuleGenerator" (o.registration c k).hintName) (o.registration c k).text)
      (c.registered o) (generatedTrees (runGenerators [moduleGenerator o] c)) := by
  have hsources : ((moduleGenerator o).run c).sources.sources =
      (c.registered o).map (o.registration c) := by
    rw [moduleGenerator_sources c o hall (by rw [heff, hall]), heff, SourceSet.kept_registrations]
  rw [runGenerators_one _ _ rfl, hsources]
  have hread := forall₂_readSources (moduleGenerator o).name c.freshId
    ((c.registered o).map (o.registration c))
  rw [List.forall₂_map_left_iff] at hread
  have htrees : ∀ gs, generatedTrees [Generator.result (moduleGenerator o)
      ((moduleGenerator o).run c) gs] = gs.map GeneratedTree.tree := fun gs => by
    simp [generatedTrees, Generator.result]
  rw [htrees, List.forall₂_map_right_iff]
  exact hread

namespace Compilation

variable {c : Compilation} {o : Options} {k : Candidate} {s : TypeSymbol} {n : FullName}

theorem registers_of_registered (h : k ∈ c.registered o) : c.Registers o k := by
  have hmem := List.mem_of_mem_filter ((eraseDupsBy_sublist _ _).subset h)
  simpa using (List.mem_filter.1 hmem).2

/-- Different registered classes differ in the names of their sources. -/
theorem registered_names (c : Compilation) (o : Options) : (c.registered o).Pairwise fun k k' =>
    Text.eqCaseless (o.registration c k').hintName (o.registration c k).hintName = false :=
  pairwise_eraseDupsBy _ _

/-! ## What a source supplements -/

/-- The trees of the compilation were read from texts, they have different ids, and nothing
    is wrong with the sources. -/
structure IsFaultless (c : Compilation) : Prop where
  isParsed : ∀ t ∈ c.trees, t.IsParsed
  ids : (c.trees.map SyntaxTree.id).Nodup
  diagnostics : c.diagnostics = []

theorem IsFaultless.isRead (h : c.IsFaultless) : ∀ t ∈ c.sources, t.IsRead := by
  intro t ht
  have hnone : t.diagnostics = [] :=
    List.flatMap_eq_nil_iff.1 (List.append_eq_nil_iff.1 h.diagnostics).1 t ht
  exact ⟨h.isParsed t (List.mem_append_left _ ht), List.map_eq_nil_iff.1 hnone⟩

theorem IsFaultless.symbols (h : c.IsFaultless) : c.symbols.diagnostics = [] :=
  (List.append_eq_nil_iff.1 h.diagnostics).2

/-- A registered class is a module, and it was accepted as itself. -/
theorem IsFaultless.taken (h : c.IsFaultless) (hk : k ∈ c.registered o) : ∃ s n s₀,
    c.IsModule o k s ∧ c.Takes k n s₀ ∧ n.id = s.id := by
  obtain ⟨⟨s, hs⟩, -⟩ := registers_of_registered hk
  obtain ⟨n, s₀, ht, hid⟩ := taken_of_lookup h.isRead h.ids
    ((c.registered_sublist o).subset hk) hs.accepted
  exact ⟨s, n, s₀, hs, ht, hid⟩

/-- **The source of a class supplements it**, or a stray. -/
theorem IsFaultless.supplements (h : c.IsFaultless) (ho : o.FitsHost) {s₀ : TypeSymbol}
    {strays : TypeId → Prop} (hk : k ∈ c.registered o) (hs : c.IsModule o k s)
    (ht : c.Takes k n s₀) (hr : k.IsReadable o c s)
    (hspace : o.wrappingPath c s ∈ c.sourceTable.namespaces.paths)
    (hpart : (strays (k.declaration.idIn (o.wrappingPath c s)) ∧ o.wrappingPath c s = []) ∨
      k.declaration.idIn (o.wrappingPath c s) = n.id) (i : Nat) (file : String) :
    let tree := SyntaxTree.parse i file (o.registration c k).text
    tree.errors = [] ∧
      tree.Supplements strays c.sourceTable (o.wrappingPath c s) k.declaration := by
  intro tree
  obtain ⟨hiff, hholds⟩ := registration_reads ho h.isRead (c.hasWords h.isParsed)
    ((c.registered_sublist o).subset hk) hs i file
  have he : tree.errors = [] := hiff.2 hr
  refine ⟨he, hholds he, hspace, hpart.imp_right fun hid => ⟨s₀, ?_, ht.covers⟩⟩
  rw [hid]
  exact ht.symbol

end Compilation

/-! ## A sample -/

/-- A module in a namespace. -/
def demoModule : Compilation :=
  .of
    [.parse 0 "Foo.cs" <| "namespace Demo \x7b public partial class Foo : ModuleBase " ++
        "\x7b [Command] public void Run() \x7b \x7d \x7d \x7d"]
    [] .empty

theorem demoModule_isFaultless : demoModule.IsFaultless where
  isParsed := List.forall_mem_singleton.2 ⟨_, _, _, rfl⟩
  ids := List.pairwise_singleton _ _
  diagnostics := by decide +kernel

theorem demoModule_nested : ∀ k ∈ demoModule.classParts, ∀ m ∈ k.declaration.methods,
    (m.command "Command").IsNested := by decide +kernel

end CommandModules

/-
  Command modules — diagnostics and references.

  * `located_isKept`: what is reported while a tree is gone through is about the file of the
    tree, and its lists of bases are put aside under its path;
  * `declareTrees_silent`: nothing that is refused in a reference is reported;
  * `PendingBases.bind_diagnostics_eq_nil`: looking a list of bases up reports its ambiguous
    entries and nothing else;
  * `Compilation.reports_of_references`: so the diagnostics of a compilation are those of its
    sources, and reports about ambiguous bases in references.
-/
import CommandModules.Proofs.Compilation.Reference
import CommandModules.Proofs.Compilation.Shadow

namespace CommandModules

/-- The diagnostic is about a place in the file at `path`. -/
def Diagnostic.IsAbout (d : Diagnostic) (path : String) : Prop :=
  ∃ span, d.location? = some ⟨path, span⟩

/-! ## Declarations -/

section
variable {number : Nat} {tree : SyntaxTree} {origin : Origin} {s s' : Declaring} {t : SymbolTable}

/-- What was found so far concerns the file at `path`. -/
structure Declaring.Concerns (s : Declaring) (path : String) : Prop where
  diagnostics : ∀ d ∈ s.found.diagnostics, d.IsAbout path
  pending : ∀ p ∈ s.found.pending, p.path = path

/-- Each step keeps it that what was found concerns the file of the tree. -/
theorem Declaring.Step.concerns (h : Declaring.Step number tree origin s s')
    (hs : s.Concerns tree.path) : s'.Concerns tree.path := by
  cases h with
  | @declare w _ _ _ d _ hw =>
    refine ⟨?_, (s.declare_found w d).1 ▸ hs.pending⟩
    unfold Declaring.declare
    split
    · exact hs.diagnostics
    · split
      · refine List.forall_mem_append.2 ⟨hs.diagnostics, List.forall_mem_singleton.2 ?_⟩
        rw [← hw.tree]
        exact ⟨_, rfl⟩
      · exact hs.diagnostics
  | putAside hw =>
    unfold Declaring.putAside
    split
    · exact hs
    · exact ⟨hs.diagnostics, List.forall_mem_append.2 ⟨hs.pending,
        List.forall_mem_singleton.2 (congrArg SyntaxTree.path hw.tree)⟩⟩
  | noteUsings => exact ⟨hs.diagnostics, hs.pending⟩
  | enterNamespace => exact ⟨hs.diagnostics, hs.pending⟩

theorem located_isKept : Declaring.IsKept fun _ tree s => s.Concerns tree.path where
  start _ _ _ := ⟨List.forall_mem_nil _, List.forall_mem_nil _⟩
  step h hs := h.concerns hs
  mono hs _ := ⟨hs.diagnostics, hs.pending⟩

/-- A step through a reference reports nothing. -/
theorem Declaring.Step.silent (h : Declaring.Step number tree .metadata s s') :
    s'.found.diagnostics = s.found.diagnostics := by
  cases h with
  | @declare w _ _ _ d _ hw =>
    unfold Declaring.declare
    rw [hw.origin]
    split <;> rfl
  | putAside =>
    unfold Declaring.putAside
    split <;> rfl
  | noteUsings => rfl
  | enterNamespace => rfl

/-- **What references declare is never reported.** -/
theorem declareTrees_silent (ht : t.namespaces.path? Namespaces.root = some [])
    (trees : List SyntaxTree) (number : Nat) :
    ∀ f ∈ (declareTrees t number (trees.map (·, Origin.metadata))).2, f.2.diagnostics = [] := by
  induction trees generalizing t number with
  | nil => exact List.forall_mem_nil _
  | cons tree trees ih =>
    have hsteps := declareTree_steps number tree .metadata ht
    refine List.forall_mem_cons.2 ⟨?_, ih ((Declaring.extends_of_steps hsteps).path?_root ht) _⟩
    generalize hs : Declaring.mk (declareTree t number tree .metadata).1
      (declareTree t number tree .metadata).2 = s at hsteps
    have main : s.found.diagnostics = [] := by
      clear hs
      induction hsteps with
      | refl => rfl
      | tail _ h ih => exact h.silent.trans ih
    rw [← hs] at main
    exact main

end

/-! ## Bases -/

/-- The entry of a list of bases that was put aside is ambiguous where the list was written. -/
def PendingBases.IsAmbiguous (p : PendingBases) (g : GlobalUsings) (type : TypeSyntax) : Prop :=
  ∃ name ∈ type.name?,
    (g.table.resolveName name.parts name.isGlobal (p.scope g)).isAmbiguous = true

instance (p : PendingBases) (g : GlobalUsings) (type : TypeSyntax) :
    Decidable (p.IsAmbiguous g type) :=
  inferInstanceAs (Decidable (∃ name ∈ type.name?, _ = true))

section
variable {p : PendingBases} {g : GlobalUsings}

/-- An entry is reported if it is ambiguous, and only then. -/
theorem PendingBases.bindBase_diagnostics_eq_nil (type : TypeSyntax) :
    (g.table.bindBase (p.scope g) p.path type).2 = [] ↔ ¬ p.IsAmbiguous g type := by
  unfold SymbolTable.bindBase PendingBases.IsAmbiguous
  cases type.name? with
  | none => simp
  | some name =>
    cases hr : g.table.resolveName name.parts name.isGlobal (p.scope g) <;>
      simp [hr, Resolution.isAmbiguous]

/-- **Looking a list up reports its ambiguous entries** and nothing else. -/
theorem PendingBases.bind_diagnostics_eq_nil :
    (p.bind g).diagnostics = [] ↔ ∀ type ∈ p.declaration.bases, ¬ p.IsAmbiguous g type := by
  unfold PendingBases.bind
  simp only [List.flatMap_eq_nil_iff, List.forall_mem_map, bindBase_diagnostics_eq_nil]

/-- What is reported about a list is about its file. -/
theorem PendingBases.bind_isAbout : ∀ d ∈ (p.bind g).diagnostics, d.IsAbout p.path := by
  intro d hd
  obtain ⟨e, he, hd⟩ := List.mem_flatMap.1 hd
  obtain ⟨type, -, rfl⟩ := List.mem_map.1 he
  unfold SymbolTable.bindBase at hd
  split at hd
  · cases hd
  · dsimp only at hd
    split at hd
    · cases hd
    · obtain rfl := List.mem_singleton.1 hd
      exact ⟨_, rfl⟩
    · cases hd

end

/-! ## Compilations -/

namespace Compilation

variable (c : Compilation)

/-- The lists of bases that are written in the references. -/
def referencePending : List PendingBases :=
  (declareTrees c.sourceTable c.sources.length
    ((c.references.flatMap Reference.trees).map (·, Origin.metadata))).2.flatMap fun f => f.2.pending

/-- What is wrong with the sources: their syntax errors, what was refused when they were
    declared, before the references, and their ambiguous bases. -/
def ownDiagnostics : List Diagnostic :=
  c.sources.flatMap SyntaxTree.diagnostics ++ (c.sourceFound.flatMap fun f => f.2.diagnostics) ++
    c.sourcePending.flatMap fun p => (p.bind c.globals).diagnostics

/-- What is reported about the bases in references. -/
def referenceReports : List Diagnostic :=
  c.referencePending.flatMap fun p => (p.bind c.globals).diagnostics

theorem pending_eq : c.pending = c.sourcePending ++ c.referencePending := by
  rw [pending, declaring_eq, List.flatMap_append]
  rfl

theorem diagnostics_eq : c.diagnostics = c.ownDiagnostics ++ c.referenceReports := by
  have hrefs : ((declareTrees c.sourceTable c.sources.length
      ((c.references.flatMap Reference.trees).map (·, Origin.metadata))).2.flatMap
        fun f => f.2.diagnostics) = [] :=
    List.flatMap_eq_nil_iff.2 (declareTrees_silent c.sourceTable_root _ _)
  have hbinding : c.binding.diagnostics =
      c.pending.flatMap fun p => (p.bind c.globals).diagnostics := List.flatMap_map ..
  rw [diagnostics, symbols_diagnostics_eq, declaring_eq, List.flatMap_append, hrefs, hbinding,
    pending_eq, List.flatMap_append, List.append_nil]
  simp only [ownDiagnostics, referenceReports, List.append_assoc]

variable {c}

theorem sourceFound_concerns {f : Origin × TreeDeclarations} (hf : f ∈ c.sourceFound) :
    ∃ tree ∈ c.sources, Declaring.Concerns ⟨c.sourceTable, f.2⟩ tree.path := by
  obtain ⟨i, tree, hi, hc⟩ := declareTrees_found located_isKept (t := .empty) rfl f hf
  obtain ⟨_, ht, he⟩ := List.mem_map.1 (List.mem_of_getElem? hi)
  obtain ⟨rfl, -⟩ := Prod.mk.inj he
  exact ⟨_, ht, hc⟩

/-- What is wrong with the sources is about their files. -/
theorem ownDiagnostics_isAbout {d : Diagnostic} (hd : d ∈ c.ownDiagnostics) :
    ∃ tree ∈ c.sources, d.IsAbout tree.path := by
  rcases List.mem_append.1 hd with hd | hd
  · rcases List.mem_append.1 hd with hd | hd
    · obtain ⟨tree, ht, hd⟩ := List.mem_flatMap.1 hd
      obtain ⟨e, -, rfl⟩ := List.mem_map.1 hd
      exact ⟨tree, ht, _, rfl⟩
    · obtain ⟨f, hf, hd⟩ := List.mem_flatMap.1 hd
      obtain ⟨tree, ht, hc⟩ := sourceFound_concerns hf
      exact ⟨tree, ht, hc.diagnostics d hd⟩
  · obtain ⟨p, hp, hd⟩ := List.mem_flatMap.1 hd
    obtain ⟨f, hf, hp⟩ := List.mem_flatMap.1 hp
    obtain ⟨tree, ht, hc⟩ := sourceFound_concerns hf
    exact ⟨tree, ht, hc.pending p hp ▸ PendingBases.bind_isAbout d hd⟩

/-- **References are silent, but for ambiguous bases**: what is reported are the diagnostics of
    the sources, which are about their files, and then what is reported about the bases in
    references; nothing is reported about these if and only if none is ambiguous. -/
theorem reports_of_references (c : Compilation) :
    c.diagnostics = c.ownDiagnostics ++ c.referenceReports ∧
      (∀ d ∈ c.ownDiagnostics, ∃ tree ∈ c.sources, d.IsAbout tree.path) ∧
      (c.referenceReports = [] ↔
        ∀ p ∈ c.referencePending, ∀ type ∈ p.declaration.bases, ¬ p.IsAmbiguous c.globals type) := by
  refine ⟨c.diagnostics_eq, fun d hd => ownDiagnostics_isAbout hd, ?_⟩
  rw [referenceReports, List.flatMap_eq_nil_iff]
  simp only [PendingBases.bind_diagnostics_eq_nil]

/-- A reference that imports two namespaces with a type of the same name. -/
example :
    let c := Compilation.of [.parse 0 "X.cs" "class X \x7b \x7d"]
      [⟨"Lib", [.parse 1 "Lib.cs" ("using One; using Two; namespace One \x7b class Base \x7b \x7d \x7d " ++
        "namespace Two \x7b class Base \x7b \x7d \x7d class A : Base \x7b \x7d")]⟩] .empty
    c.ownDiagnostics = [] ∧ c.diagnostics.map Diagnostic.message =
      ["'Base' is an ambiguous reference between One.Base and Two.Base"] := by
  decide +kernel

end Compilation

end CommandModules

/-
  Command modules — references behind further sources.

  The trees of references are declared behind the sources.  If there are more sources, they
  have other numbers and meet a larger table; but what they declare is the same, as long as it
  is no stray.

  * `Declaring.Alike`: two runs through trees have found the same, and their tables are those
    of `Grows`;
  * `declareTree_alike`, `declareTrees_alike`: going through the trees of references leaves
    two runs alike.
-/
import Mathlib.Data.List.Forall2
import CommandModules.Proofs.Compilation.Simulation
import CommandModules.Proofs.Symbol.Grows

namespace CommandModules

/-- The lists of bases are the same, but for the numbers of their trees. -/
def PendingBases.Alike (p p' : PendingBases) : Prop :=
  p' = { p with tree := p'.tree }

/-- Two runs have found the same, one of them with more declarations in its table. -/
structure Declaring.Alike (strays : TypeId → Prop) (more : TypeId → List NodeKey)
    (s s' : Declaring) : Prop where
  root : s.table.namespaces.path? Namespaces.root = some []
  table : s.table.Grows strays more s'.table
  pending : List.Forall₂ PendingBases.Alike s.found.pending s'.found.pending
  diagnostics : s'.found.diagnostics = s.found.diagnostics

section
variable {strays : TypeId → Prop} {more : TypeId → List NodeKey} {s s' : Declaring}
  {w : Surroundings} {outer? : Option TypeId} {path : List String} {name? : Option FullName}
  {number m : Nat} {tree : SyntaxTree} {d : NewType} {site : DeclarationSite} {id : TypeId}

/-- The same place, in a tree with another number. -/
def Surroundings.renumber (w : Surroundings) (m : Nat) : Surroundings :=
  { w with number := m }

theorem renumber_withUsings (w : Surroundings) (us : List Using) :
    (w.renumber m).withUsings us = (w.withUsings us).renumber m := by
  unfold Surroundings.withUsings
  split <;> rfl

namespace Declaring.Alike

theorem declare (h : s.Alike strays more s') (hw : w.origin = .metadata)
    (hkey : site.key = d.site.key) (hstray : ¬ strays (s.table.idOf d)) :
    (s'.declare (w.renumber m) { d with site }).1 = (s.declare w d).1 ∧
      (s.declare w d).2.Alike strays more (s'.declare (w.renumber m) { d with site }).2 := by
  have hext := Declaring.declare_extends s w d
  unfold Declaring.declare at hext ⊢
  obtain ⟨id, u, u', hu, hu', hg⟩ | ⟨e, e', he, he'⟩ := h.table.declare h.root hkey hstray
  · rw [hu] at hext ⊢
    rw [hu']
    exact ⟨rfl, hext.path?_root h.root, hg, h.pending, h.diagnostics⟩
  · rw [he, he', show (w.renumber m).origin = _ from hw, hw]
    exact ⟨rfl, h⟩

theorem putAside (h : s.Alike strays more s') (t : TypeDeclaration) :
    (s.putAside w outer? id t).Alike strays more (s'.putAside (w.renumber m) outer? id t) := by
  unfold Declaring.putAside
  split
  · exact h
  · exact ⟨h.root, h.table, List.rel_append h.pending (.cons rfl .nil), h.diagnostics⟩

theorem noteUsings (h : s.Alike strays more s') (us us' : List Using) :
    (s.noteUsings us).Alike strays more (s'.noteUsings us') :=
  ⟨h.root, h.table, h.pending, h.diagnostics⟩

theorem enterNamespace (h : s.Alike strays more s') (n : Nat) (names : List String) :
    (s.enterNamespace n names).1.Alike strays more (s'.enterNamespace n names).1 ∧
      (s'.enterNamespace n names).2 = (s.enterNamespace n names).2 :=
  ⟨⟨(Declaring.enterNamespace_extends s n names).path?_root h.root, h.table.createPath n names,
    h.pending, h.diagnostics⟩, (Namespaces.createPath_congr h.table.paths n names).2⟩

end Declaring.Alike

/-- Two runs through a tree of a reference, one with more declarations in its table. -/
def Simulation.alike (strays : TypeId → Prop) (more : TypeId → List NodeKey) (tree : SyntaxTree)
    (number m : Nat) : Simulation tree .metadata where
  number := number
  number' := m
  State := Declaring.Alike strays more
  Around _ _ w w' := w' = w.renumber m
  Ok _ := True

theorem Simulation.alike_isKept (hstray : ∀ n ∈ tree.fullNames, ¬ strays n.id) (number m : Nat) :
    (Simulation.alike strays more tree number m).IsKept where
  ok _ _ := trivial
  mono h _ _ := h
  declare {path s s' w w' outer? name?} h ho kind i arity modifiers span hn _ _ := by
    obtain rfl : w' = w.renumber m := h.around
    have hstate : s.Alike strays more s' := h.state
    refine hstate.declare (d := w.newType outer? kind i arity modifiers span) h.left.origin
      (show (⟨m, w.tree.key span, span⟩ : DeclarationSite).key = w.tree.key span from rfl) ?_
    rw [SymbolTable.idOf_eq (ho.left.isNamed h.left kind i arity modifiers span)]
    exact hstray _ hn
  putAside {path s s' w w'} h outer? id t := by
    obtain rfl : w' = w.renumber m := h.around
    exact Declaring.Alike.putAside h.state t
  noteUsings h us := Declaring.Alike.noteUsings h us us
  withUsings {path s s' w w'} h us := by
    obtain rfl : w' = w.renumber m := h.around
    exact renumber_withUsings w us
  enterNamespace {path s s' w w'} h names := by
    obtain rfl : w' = w.renumber m := h.around
    obtain ⟨ha, hinner⟩ := Declaring.Alike.enterNamespace h.state w.namespace_ names
    refine ⟨ha, ?_⟩
    show Surroundings.mk .. = Surroundings.mk ..
    rw [← hinner]
    rfl

/-- **Going through a tree of a reference** leaves two runs alike, whatever the number of the
    tree. -/
theorem declareTree_alike {t t' : SymbolTable} (hstray : ∀ n ∈ tree.fullNames, ¬ strays n.id)
    (number m : Nat) (h : t.Grows strays more t')
    (ht : t.namespaces.path? Namespaces.root = some []) :
    Declaring.Alike strays more
      ⟨(declareTree t number tree .metadata).1, (declareTree t number tree .metadata).2⟩
      ⟨(declareTree t' m tree .metadata).1, (declareTree t' m tree .metadata).2⟩ := by
  have ht' : t'.namespaces.path? Namespaces.root = some [] := by
    rw [Namespaces.path?_congr h.paths, ht]
  exact (Simulation.alike_isKept hstray number m).tree_kept ht ht' ⟨ht, h, .nil, rfl⟩ rfl trivial trivial

/-! ## References -/

/-- **Going through the trees of references** leaves two runs alike. -/
theorem declareTrees_alike {trees : List SyntaxTree} {t t' : SymbolTable} (number m : Nat)
    (hstray : ∀ tree ∈ trees, ∀ n ∈ tree.fullNames, ¬ strays n.id) (h : t.Grows strays more t')
    (ht : t.namespaces.path? Namespaces.root = some []) :
    let r := declareTrees t number (trees.map (·, Origin.metadata))
    let r' := declareTrees t' m (trees.map (·, Origin.metadata))
    r.1.Grows strays more r'.1 ∧
      List.Forall₂ PendingBases.Alike (r.2.flatMap fun f => f.2.pending)
        (r'.2.flatMap fun f => f.2.pending) ∧
      (r'.2.flatMap fun f => f.2.diagnostics) = r.2.flatMap fun f => f.2.diagnostics := by
  induction trees generalizing t t' number m with
  | nil => exact ⟨h, .nil, rfl⟩
  | cons tree trees ih =>
    obtain ⟨htree, htrees⟩ := List.forall_mem_cons.1 hstray
    have ha := declareTree_alike htree number m h ht
    obtain ⟨hg, hp, hd⟩ := ih (number + 1) (m + 1) htrees ha.table ha.root
    refine ⟨hg, List.rel_append ha.pending hp, ?_⟩
    exact congrArg₂ (· ++ ·) ha.diagnostics hd

theorem origin_of_mem_declareTrees {trees : List (SyntaxTree × Origin)} {t : SymbolTable}
    {number : Nat} {f : Origin × TreeDeclarations} (h : f ∈ (declareTrees t number trees).2) :
    ∃ e ∈ trees, f.1 = e.2 := by
  induction trees generalizing t number with
  | nil => cases h
  | cons e trees ih =>
    rcases List.mem_cons.1 h with rfl | h
    · exact ⟨e, List.mem_cons_self, rfl⟩
    · obtain ⟨e', he', hf⟩ := ih h
      exact ⟨e', List.mem_cons_of_mem _ he', hf⟩

/-- Using directives of references have no effect. -/
theorem effectiveUsings_metadata (t : SymbolTable) (number : Nat) (trees : List SyntaxTree) :
    effectiveUsings (declareTrees t number (trees.map (·, Origin.metadata))).2 = [] := by
  refine List.flatMap_eq_nil_iff.2 fun f hf => ?_
  obtain ⟨e, he, hfe⟩ := origin_of_mem_declareTrees hf
  obtain ⟨tree, -, rfl⟩ := List.mem_map.1 he
  rw [hfe]

end

end CommandModules

/-
  Command modules — sources in another order.

  * `Pass`, `Passes`: sources are gone through one after the other, each with the table that
    those before it have led to;
  * `Passes.takes`: together they enter what each of them enters;
  * `Passes.exists_paired`: two orders of the same sources have the same passes, if nothing is
    refused;
  * `SameOutcome`: two ways of declaring trees have entered the same, and found the same up to
    its order;
  * `Compilation.sameOutcome`: so it is for two orders of the sources in which nothing is
    refused.
-/
import Mathlib.Data.List.Perm.Basic
import CommandModules.Proofs.Compilation.Extended
import CommandModules.Proofs.Compilation.Paired

namespace CommandModules

open SymbolTable (Describes)

/-! ## Passes -/

/-- A pass through a source: its number, and the table before it. -/
structure Pass where
  tree : SyntaxTree
  number : Nat
  before : SymbolTable

namespace Pass

/-- The table behind the source. -/
def after (v : Pass) : SymbolTable :=
  (declareTree v.before v.number v.tree .source).1

/-- What is found in the source. -/
def found (v : Pass) : TreeDeclarations :=
  (declareTree v.before v.number v.tree .source).2

end Pass

/-- The passes lead from the first table to the second one. -/
inductive Passes : SymbolTable → List Pass → SymbolTable → Prop
  | nil (t : SymbolTable) : Passes t [] t
  | cons {vs : List Pass} {t : SymbolTable} (v : Pass) (h : Passes v.after vs t) :
      Passes v.before (v :: vs) t

variable {t t' u u' : SymbolTable} {vs vs' ws : List Pass} {sources sources' trees : List SyntaxTree}
  {found found' : List (Origin × TreeDeclarations)}

/-- Declaring sources is passing through them. -/
theorem declareTrees_passes (t : SymbolTable) (number : Nat) (trees : List SyntaxTree) :
    ∃ vs, Passes t vs (declareTrees t number (trees.map (·, Origin.source))).1 ∧
      vs.map Pass.tree = trees ∧
      (declareTrees t number (trees.map (·, Origin.source))).2 =
        vs.map fun v => (Origin.source, v.found) := by
  induction trees generalizing t number with
  | nil => exact ⟨[], .nil t, rfl, rfl⟩
  | cons tree trees ih =>
    let v : Pass := ⟨tree, number, t⟩
    obtain ⟨vs, hvs, htrees, hfound⟩ := ih v.after (number + 1)
    exact ⟨v :: vs, .cons v hvs, congrArg (tree :: ·) htrees, congrArg ((Origin.source, v.found) :: ·) hfound⟩

namespace Passes

/-- Each pass starts with a table that has the global namespace, and the last table has all
    that it has entered. -/
theorem table_extends (h : Passes t vs u) (ht : t.namespaces.path? Namespaces.root = some []) :
    t.Extends u ∧ ∀ v ∈ vs, v.before.namespaces.path? Namespaces.root = some [] ∧ v.after.Extends u := by
  induction h with
  | nil => exact ⟨.refl _, List.forall_mem_nil _⟩
  | cons v _ ih =>
    have he := Declaring.extends_of_steps (declareTree_steps v.number v.tree .source ht)
    obtain ⟨hu, hvs⟩ := ih (he.path?_root ht)
    exact ⟨he.trans hu, List.forall_mem_cons.2 ⟨⟨ht, hu⟩, hvs⟩⟩

/-- **What passes enter** is what each of them enters. -/
theorem takes {ess : List (List Entry)} (h : Passes t vs u)
    (hes : List.Forall₂ (fun v es => v.before.Takes es v.after) vs ess) : t.Takes ess.flatten u := by
  induction h generalizing ess with
  | nil =>
    cases hes
    exact .refl _
  | cons v _ ih =>
    cases hes with
    | cons hv hes => exact .trans hv (ih hes)

end Passes

/-- Two passes have entered the same, and found the same. -/
def Pass.Paired (v w : Pass) : Prop :=
  Declaring.Paired v.before w.before ⟨v.after, v.found⟩ ⟨w.after, w.found⟩

/-- Passes through the same sources in another order can be paired, if nothing is refused. -/
theorem Passes.exists_paired (h : Passes t vs u) (h' : Passes t' vs' u')
    (ht : t.namespaces.path? Namespaces.root = some [])
    (ht' : t'.namespaces.path? Namespaces.root = some [])
    (hperm : (vs.map Pass.tree).Perm (vs'.map Pass.tree))
    (hd : ∀ v ∈ vs, v.found.diagnostics = []) (hd' : ∀ v ∈ vs', v.found.diagnostics = []) :
    ∃ ws, ws.Perm vs' ∧ List.Forall₂ Pass.Paired vs ws := by
  have hself : List.Forall₂ (fun tree v => tree = Pass.tree v) (vs'.map Pass.tree) vs' :=
    List.forall₂_map_left_iff.2 (List.forall₂_same.2 fun _ _ => rfl)
  obtain ⟨ws, hws, hperm⟩ := List.perm_comp_forall₂ hperm hself
  refine ⟨ws, hperm, ?_⟩
  refine (forall₂_with_mem (List.forall₂_map_left_iff.1 hws)).imp ?_
  rintro ⟨tree, number, before⟩ ⟨_, number', before'⟩ ⟨hv, hw, rfl⟩
  have hw := hperm.subset hw
  exact declareTree_paired ((h.table_extends ht).2 _ hv).1 ((h'.table_extends ht').2 _ hw).1 (hd _ hv) (hd' _ hw)

/-- Paired passes enter the same. -/
theorem exists_entries (h : List.Forall₂ Pass.Paired vs ws) : ∃ ess : List (List Entry),
    List.Forall₂ (fun v es => v.before.Takes es v.after) vs ess ∧
      List.Forall₂ (fun w es => w.before.Takes es w.after) ws ess := by
  induction h with
  | nil => exact ⟨[], .nil, .nil⟩
  | cons hvw _ ih =>
    obtain ⟨ess, hv, hw⟩ := ih
    obtain ⟨es, hes, hes'⟩ := hvw.takes
    exact ⟨es :: ess, .cons hes hv, .cons hes' hw⟩

/-! ## Outcomes -/

/-- The tables have the same entries; the same lists of bases were put aside, and the same
    global using directives noted, in any order. -/
structure SameOutcome (t t' : SymbolTable) (found found' : List (Origin × TreeDeclarations)) :
    Prop where
  describes : ∃ es, Describes es t ∧ Describes es t'
  pending : ∃ ps, ps.Perm (found'.flatMap fun f => f.2.pending) ∧
    List.Forall₂ (PendingBases.Agrees t.namespaces t'.namespaces)
      (found.flatMap fun f => f.2.pending) ps
  usings : (effectiveUsings found').Perm (effectiveUsings found)

/-- **Sources in another order** have the same outcome, if nothing is refused. -/
theorem declareTrees_sameOutcome (number number' : Nat) (hperm : sources.Perm sources')
    (hd : ∀ f ∈ (declareTrees .empty number (sources.map (·, Origin.source))).2, f.2.diagnostics = [])
    (hd' : ∀ f ∈ (declareTrees .empty number' (sources'.map (·, Origin.source))).2,
      f.2.diagnostics = []) :
    SameOutcome (declareTrees .empty number (sources.map (·, Origin.source))).1
      (declareTrees .empty number' (sources'.map (·, Origin.source))).1
      (declareTrees .empty number (sources.map (·, Origin.source))).2
      (declareTrees .empty number' (sources'.map (·, Origin.source))).2 := by
  obtain ⟨vs, hvs, rfl, hfound⟩ := declareTrees_passes .empty number sources
  obtain ⟨vs', hvs', rfl, hfound'⟩ := declareTrees_passes .empty number' sources'
  rw [hfound] at hd ⊢
  rw [hfound'] at hd' ⊢
  generalize (declareTrees .empty number _).1 = u at hvs ⊢
  generalize (declareTrees .empty number' _).1 = u' at hvs' ⊢
  obtain ⟨ws, hws, hpaired⟩ := hvs.exists_paired hvs' rfl rfl hperm
    (fun v hv => hd _ (List.mem_map_of_mem hv)) fun v hv => hd' _ (List.mem_map_of_mem hv)
  have hext := (hvs.table_extends rfl).2
  have hext' := (hvs'.table_extends rfl).2
  refine ⟨?_, ⟨ws.flatMap fun v => v.found.pending, ?_, ?_⟩, ?_⟩
  · obtain ⟨ess, hes, hes'⟩ := exists_entries hpaired
    obtain ⟨ess', hess', hperm'⟩ := List.perm_comp_forall₂ hws.symm hes'
    refine ⟨ess.flatten, hvs.takes hes _ .empty, ?_⟩
    exact (hvs'.takes hess' _ .empty).congr fun e => hperm'.flatten.mem_iff.symm
  · rw [List.flatMap_map]
    exact hws.flatMap_right _
  · rw [List.flatMap_map]
    refine List.rel_flatMap (forall₂_with_mem hpaired) ?_
    rintro v w ⟨hv, hw, hvw⟩
    exact hvw.pending_mono (hext v hv).2 (hext' w (hws.subset hw)).2
  · have heq : List.Forall₂ (· = ·) (ws.flatMap fun v => v.found.globalUsings)
        (vs.flatMap fun v => v.found.globalUsings) := by
      refine List.rel_flatMap hpaired.flip ?_
      rintro w v hvw
      exact List.forall₂_eq_eq_eq ▸ hvw.globalUsings
    rw [List.forall₂_eq_eq_eq] at heq
    unfold effectiveUsings
    rw [List.flatMap_map, List.flatMap_map]
    exact heq ▸ (hws.symm.flatMap_right _)

namespace SameOutcome

/-- A tree of a reference keeps the outcome the same. -/
theorem declareTree (h : SameOutcome t t' found found')
    (ht : t.namespaces.path? Namespaces.root = some [])
    (ht' : t'.namespaces.path? Namespaces.root = some []) (tree : SyntaxTree) (number number' : Nat) :
    SameOutcome (declareTree t number tree .metadata).1 (declareTree t' number' tree .metadata).1
      (found ++ [(.metadata, (declareTree t number tree .metadata).2)])
      (found' ++ [(.metadata, (declareTree t' number' tree .metadata).2)]) := by
  obtain ⟨es, hes, hes'⟩ := h.describes
  obtain ⟨ps, hps, hpending⟩ := h.pending
  have hpaired := declareTree_paired_of_describes number number' tree hes hes' ht ht'
  have hext := (Declaring.extends_of_steps (declareTree_steps number tree .metadata ht)).namespace_
  have hext' := (Declaring.extends_of_steps (declareTree_steps number' tree .metadata ht')).namespace_
  obtain ⟨fs, hfs, hfs'⟩ := hpaired.takes
  refine ⟨⟨_, hfs _ hes, hfs' _ hes'⟩,
    ⟨ps ++ (CommandModules.declareTree t' number' tree .metadata).2.pending, ?_, ?_⟩, ?_⟩
  · rw [List.flatMap_append, List.flatMap_singleton]
    exact hps.append_right _
  · rw [List.flatMap_append, List.flatMap_singleton]
    exact List.rel_append (hpending.imp fun _ _ hp => hp.of_prefix hext hext') hpaired.pending
  · have hnone (found : List (Origin × TreeDeclarations)) (f : TreeDeclarations) :
        effectiveUsings (found ++ [(.metadata, f)]) = effectiveUsings found := by
      simp [effectiveUsings]
    rw [hnone, hnone]
    exact h.usings

/-- **The trees of references** keep the outcome the same. -/
theorem declareTrees (h : SameOutcome t t' found found')
    (ht : t.namespaces.path? Namespaces.root = some [])
    (ht' : t'.namespaces.path? Namespaces.root = some []) (number number' : Nat)
    (trees : List SyntaxTree) :
    let r := declareTrees t number (trees.map (·, Origin.metadata))
    let r' := declareTrees t' number' (trees.map (·, Origin.metadata))
    SameOutcome r.1 r'.1 (found ++ r.2) (found' ++ r'.2) := by
  induction trees generalizing t t' found found' number number' with
  | nil => simpa [CommandModules.declareTrees] using h
  | cons tree trees ih =>
    have hext := Declaring.extends_of_steps (declareTree_steps number tree .metadata ht)
    have hext' := Declaring.extends_of_steps (declareTree_steps number' tree .metadata ht')
    have hrest := ih (h.declareTree ht ht' tree number number') (hext.path?_root ht)
      (hext'.path?_root ht') (number + 1) (number' + 1)
    dsimp only at hrest
    rwa [List.append_assoc, List.append_assoc] at hrest

end SameOutcome

namespace Compilation

/-- What was wrong with the declarations. -/
def declarationDiagnostics (c : Compilation) : List Diagnostic :=
  c.declaring.2.flatMap fun f => f.2.diagnostics

/-- **Compilations of the same sources in another order** have the same outcome, if nothing is
    wrong with the declarations of either. -/
theorem sameOutcome {c c' : Compilation} (hsources : c.sources.Perm c'.sources)
    (hreferences : c'.references = c.references) (hd : c.declarationDiagnostics = [])
    (hd' : c'.declarationDiagnostics = []) :
    SameOutcome c.declaring.1 c'.declaring.1 c.declaring.2 c'.declaring.2 := by
  have hfound {c : Compilation} (hd : c.declarationDiagnostics = []) :
      ∀ f ∈ c.sourceFound, f.2.diagnostics = [] := by
    intro f hf
    refine List.flatMap_eq_nil_iff.1 hd f ?_
    rw [c.declaring_eq]
    exact List.mem_append_left _ hf
  have hout : SameOutcome c.sourceTable c'.sourceTable c.sourceFound c'.sourceFound :=
    declareTrees_sameOutcome 0 0 hsources (hfound hd) (hfound hd')
  rw [c.declaring_eq, c'.declaring_eq, hreferences]
  exact hout.declareTrees c.sourceTable_root c'.sourceTable_root _ _ _

end Compilation

end CommandModules

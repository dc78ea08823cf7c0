/-
  Command modules — how the table of a compilation comes about.

  * `SymbolTable.Step` are the steps that lead to the table of a compilation: a type of one
    of its trees is declared, a namespace of one is entered, a namespace is imported
    everywhere, the bases of a type are set;
  * `Compilation.table_steps`: the table comes about in such steps, so what each step keeps
    holds of it;
  * `declareTrees_append`: trees are declared one part of them after the other;
  * `declareTrees_found`: what each step on the way through a tree keeps holds of what was
    found in each tree.
-/
import CommandModules.Compilation.Basic
import CommandModules.Proofs.Compilation.Steps

namespace CommandModules

open Relation

/-- One step on the way to the table of a compilation with the trees `all`. -/
inductive SymbolTable.Step (all : List SyntaxTree) : SymbolTable → SymbolTable → Prop
  | declare {t t' : SymbolTable} {id : TypeId} {d : NewType} {tree : SyntaxTree} {n : FullName}
      (hd : t.declare d = .ok (id, t')) (htree : all[d.site.tree]? = some tree)
      (hkey : d.site.key.tree = tree.id) (hn : n ∈ tree.fullNames) (hname : d.IsNamed t n)
      (ho : ∀ outer, d.containing? = some outer → (t.get? outer).isSome) : Step all t t'
  | enterNamespace {t : SymbolTable} {n : Nat} {tree : SyntaxTree} {d : NamespaceDeclaration}
      (hn : n < t.namespaces.nodes.length) (htree : tree ∈ all)
      (hd : Node.namespace_ d ∈ tree.nodes) :
      Step all t { t with namespaces := (t.namespaces.createPath n d.name.path).1 }
  | addGlobalUsing (t : SymbolTable) (n : Nat) :
      Step all t { t with namespaces := t.namespaces.addGlobalUsing n }
  | contribute (t : SymbolTable) (b : BoundBases) : Step all t (t.contribute b)

section
variable {all : List SyntaxTree} {number : Nat} {tree : SyntaxTree} {origin : Origin}
  {s s' : Declaring} {t t' : SymbolTable} {trees more : List (SyntaxTree × Origin)}
  {w : Surroundings} {outer? : Option TypeId} {x : Declaration} {d : NewType}

/-- **No step takes anything away.** -/
theorem SymbolTable.Step.extends (h : Step all t t') : t.Extends t' := by
  cases h with
  | declare hd => exact .declare hd
  | enterNamespace => exact .namespaces (Namespaces.createPath_paths _ _ _)
  | addGlobalUsing => exact .namespaces (by simp only [Namespaces.paths_addGlobalUsing, List.prefix_refl])
  | contribute => exact .contribute _ _

theorem SymbolTable.extends_of_steps (h : ReflTransGen (Step all) t t') : t.Extends t' := by
  induction h with
  | refl => exact .refl t
  | tail _ h ih => exact ih.trans h.extends

/-- What holds of the empty table and is kept by each step holds of tables that steps lead
    to. -/
theorem SymbolTable.induction_of_steps {P : SymbolTable → Prop}
    (h : ReflTransGen (Step all) .empty t) (empty : P .empty)
    (step : ∀ t t', Step all t t' → P t → P t') : P t := by
  induction h with
  | refl => exact empty
  | tail _ h ih => exact step _ _ h ih

/-! ## Declaring trees -/

theorem Surroundings.introduces?_eq (h : w.introduces? outer? x = some d) :
    d.containing? = outer? ∧ d.origin = w.origin ∧
      d.site = ⟨w.number, w.tree.key x.span, x.span⟩ := by
  cases x <;> cases h <;> exact ⟨rfl, rfl, rfl⟩

/-- A step on the way through a tree changes the table in steps. -/
theorem Declaring.Step.table_steps (h : Declaring.Step number tree origin s s')
    (hn : all[number]? = some tree) : ReflTransGen (SymbolTable.Step all) s.table s'.table := by
  cases h with
  | @declare w path outer? x d n hw ho hx hd hmem hname =>
    obtain ⟨id, table, hok, heq⟩ | ⟨_, -, -, ht, -⟩ := Declaring.declare_cases s w d
    · rw [heq]
      obtain ⟨hout, -, hsite⟩ := Surroundings.introduces?_eq hd
      rw [hw.number, hw.tree] at hsite
      exact .single (.declare hok (by rw [hsite]; exact hn) (by rw [hsite]; rfl) hmem hname
        (by rw [hout]; exact ho))
    · rw [ht]
  | putAside => rw [Declaring.putAside_table]
  | noteUsings => exact .refl
  | enterNamespace hlt hd => exact .single (.enterNamespace hlt (List.mem_of_getElem? hn) hd)

theorem declareTree_table_steps (ht : t.namespaces.path? Namespaces.root = some [])
    (hn : all[number]? = some tree) :
    ReflTransGen (SymbolTable.Step all) t (declareTree t number tree origin).1 := by
  have hsteps := declareTree_steps number tree origin ht
  generalize hs : Declaring.mk (declareTree t number tree origin).1
    (declareTree t number tree origin).2 = s at hsteps
  have main : ReflTransGen (SymbolTable.Step all) t s.table := by
    clear hs
    induction hsteps with
    | refl => exact .refl
    | tail _ h ih => exact ih.trans (h.table_steps hn)
  rw [← hs] at main
  exact main

theorem SymbolTable.Extends.path?_root (h : t.Extends t')
    (ht : t.namespaces.path? Namespaces.root = some []) :
    t'.namespaces.path? Namespaces.root = some [] :=
  Namespaces.path?_of_prefix h.namespace_ ht

theorem declareTrees_steps (ht : t.namespaces.path? Namespaces.root = some [])
    (hn : ∀ i, i < trees.length → all[number + i]? = (trees[i]?).map Prod.fst) :
    ReflTransGen (SymbolTable.Step all) t (declareTrees t number trees).1 := by
  induction trees generalizing t number with
  | nil => exact .refl
  | cons e trees ih =>
    obtain ⟨tree, origin⟩ := e
    have h : ReflTransGen (SymbolTable.Step all) t (declareTree t number tree origin).1 :=
      declareTree_table_steps ht (hn 0 (Nat.succ_pos _))
    refine h.trans (ih ((SymbolTable.extends_of_steps h).path?_root ht) fun i hi => ?_)
    have := hn (i + 1) (Nat.succ_lt_succ hi)
    rwa [show number + (i + 1) = number + 1 + i by omega, List.getElem?_cons_succ] at this

/-- Trees are declared one part of them after the other. -/
theorem declareTrees_append (t : SymbolTable) (number : Nat) (trees more : List (SyntaxTree × Origin)) :
    declareTrees t number (trees ++ more) =
      let before := declareTrees t number trees
      let behind := declareTrees before.1 (number + trees.length) more
      (behind.1, before.2 ++ behind.2) := by
  induction trees generalizing t number with
  | nil => rfl
  | cons e trees ih =>
    have hlen : number + (e :: trees).length = number + 1 + trees.length := by
      simp only [List.length_cons]
      omega
    rw [hlen]
    simp only [List.cons_append, declareTrees, ih]

theorem declareTrees_extends (ht : t.namespaces.path? Namespaces.root = some []) :
    t.Extends (declareTrees t number trees).1 := by
  induction trees generalizing t number with
  | nil => exact .refl t
  | cons e trees ih =>
    have h := Declaring.extends_of_steps (declareTree_steps number e.1 e.2 ht)
    exact h.trans (ih (h.path?_root ht))

/-- What holds of nothing found, is kept by each step on the way through a tree, and by
    tables that take nothing away. -/
structure Declaring.IsKept (P : Nat → SyntaxTree → Declaring → Prop) : Prop where
  start : ∀ number tree t, P number tree ⟨t, .empty⟩
  step : ∀ {number tree origin s s'}, Declaring.Step number tree origin s s' → P number tree s →
    P number tree s'
  mono : ∀ {number tree t t' found}, P number tree ⟨t, found⟩ → t.Extends t' →
    P number tree ⟨t', found⟩

/-- **What is kept holds of what was found in each tree.** -/
theorem declareTrees_found {P : Nat → SyntaxTree → Declaring → Prop} (hP : Declaring.IsKept P)
    (ht : t.namespaces.path? Namespaces.root = some []) :
    ∀ f ∈ (declareTrees t number trees).2, ∃ i tree, trees[i]? = some (tree, f.1) ∧
      P (number + i) tree ⟨(declareTrees t number trees).1, f.2⟩ := by
  induction trees generalizing t number with
  | nil => simp [declareTrees]
  | cons e trees ih =>
    obtain ⟨tree, origin⟩ := e
    have hsteps := declareTree_steps number tree origin ht
    have ht' := (Declaring.extends_of_steps hsteps).path?_root ht
    have hfirst : P number tree ⟨(declareTree t number tree origin).1,
        (declareTree t number tree origin).2⟩ := by
      generalize Declaring.mk (declareTree t number tree origin).1
        (declareTree t number tree origin).2 = s at hsteps
      induction hsteps with
      | refl => exact hP.start number tree t
      | tail _ h ih => exact hP.step h ih
    refine List.forall_mem_cons.2 ⟨⟨0, tree, rfl, hP.mono hfirst (declareTrees_extends ht')⟩,
      fun f hf => ?_⟩
    obtain ⟨i, tree', hi, hp⟩ := ih ht' f hf
    refine ⟨i + 1, tree', by simpa using hi, ?_⟩
    rw [show number + (i + 1) = number + 1 + i by omega]
    exact hp

/-! ## Binding bases -/

theorem GlobalUsings.add_steps (g : GlobalUsings) (u : Using) :
    ReflTransGen (SymbolTable.Step all) g.table (g.add u).table := by
  unfold GlobalUsings.add
  split
  · exact .refl
  · split
    · exact .refl
    · split
      · exact .single (.addGlobalUsing _ _)
      · exact .refl

theorem GlobalUsings.of_steps (t : SymbolTable) (us : List Using) :
    ReflTransGen (SymbolTable.Step all) t (GlobalUsings.of t us).table := by
  have main (g : GlobalUsings) :
      ReflTransGen (SymbolTable.Step all) g.table (us.foldl GlobalUsings.add g).table := by
    induction us generalizing g with
    | nil => exact .refl
    | cons u us ih => exact (add_steps g u).trans (ih _)
  exact main ⟨t, []⟩

theorem bindBases_steps (t : SymbolTable) (us : List Using) (ps : List PendingBases) :
    ReflTransGen (SymbolTable.Step all) t (bindBases t us ps).table := by
  have main (bs : List BoundBases) (t : SymbolTable) :
      ReflTransGen (SymbolTable.Step all) t (bs.foldl SymbolTable.contribute t) := by
    induction bs generalizing t with
    | nil => exact .refl
    | cons b bs ih => exact .head (.contribute t b) (ih _)
  exact (GlobalUsings.of_steps t us).trans (main _ _)

end

/-! ## Compilations -/

namespace Compilation

variable (c : Compilation)

/-- The table behind the declarations of all trees, and what they hold. -/
def declaring : SymbolTable × List (Origin × TreeDeclarations) :=
  declareTrees .empty 0 (numberedTrees c.sources c.references)

theorem symbols_table_eq : c.table =
    (bindBases c.declaring.1 (effectiveUsings c.declaring.2)
      (c.declaring.2.flatMap fun f => f.2.pending)).table := by
  rw [table, c.symbols_eq]
  rfl

theorem trees_eq : c.trees = (numberedTrees c.sources c.references).map Prod.fst := by
  simp [trees, numberedTrees, Function.comp_def]

theorem declaring_steps : ReflTransGen (SymbolTable.Step c.trees) .empty c.declaring.1 := by
  refine declareTrees_steps rfl fun i _ => ?_
  rw [trees_eq, List.getElem?_map, Nat.zero_add]

theorem table_steps_of_declaring :
    ReflTransGen (SymbolTable.Step c.trees) c.declaring.1 c.table := by
  rw [symbols_table_eq]
  exact bindBases_steps _ _ _

/-- **The table of a compilation comes about in steps.** -/
theorem table_steps : ReflTransGen (SymbolTable.Step c.trees) .empty c.table :=
  c.declaring_steps.trans c.table_steps_of_declaring

/-- **What holds of the empty table and is kept by each step holds of the table.** -/
theorem table_induction {P : SymbolTable → Prop} (empty : P .empty)
    (step : ∀ t t', SymbolTable.Step c.trees t t' → P t → P t') : P c.table :=
  SymbolTable.induction_of_steps c.table_steps empty step

end Compilation

end CommandModules

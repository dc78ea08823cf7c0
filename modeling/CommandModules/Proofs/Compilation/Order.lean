/-
  Command modules — the order of the sources.

  * `contributions_perm`: bases of different types can be set in any order;
  * `SyntaxTree.HasGlobalAlias`: a global using directive of a text declares an alias;
  * `TypeSymbol.shape` is what is known of a type, save where it was declared;
  * `Compilation.table_of_perm`: the shapes of the types of a compilation do not depend on the
    order of its sources.
-/
import CommandModules.Proofs.Compilation.Agree
import CommandModules.Proofs.Compilation.Permuted

namespace CommandModules

open Namespaces SymbolTable

/-! ## Contributions -/

section
variable {t t' : SymbolTable} {b b' x y : BoundBases} {bs bs' : List BoundBases}

namespace SymbolTable.Agrees

theorem kind?_eq (h : t.Agrees t') (id : TypeId) : t'.kind? id = t.kind? id :=
  (rel_eq_iff.1 (rel_map (h.types id) fun _ _ hs => hs.kind.symm)).symm

/-- The same bases are set on both sides. -/
theorem contribute (h : t.Agrees t') (hb : b.Agrees b') : (t.contribute b).Agrees (t'.contribute b') where
  left := ⟨h.left.root, h.left.nodup, h.left.indexed.contribute b⟩
  right := ⟨h.right.root, h.right.nodup, h.right.indexed.contribute b'⟩
  paths := h.paths
  globalUsings := h.globalUsings
  types id := by
    unfold SymbolTable.contribute
    rw [get?_modify, get?_modify, hb.base?_eq h.kind?_eq, hb.interfaces_eq h.kind?_eq, hb.type]
    refine rel_map (h.types id) fun s s' hs => ?_
    split
    · exact ⟨hs.name, hs.arity, hs.kind, hs.modifiers, hs.namespace_, hs.containing,
        congrArg ((b.base? t).or ·) hs.base?, congrArg (appendMissing · _) hs.interfaces⟩
    · exact hs

theorem contributions (h : t.Agrees t') (hbs : List.Forall₂ BoundBases.Agrees bs bs') :
    (bs.foldl SymbolTable.contribute t).Agrees (bs'.foldl SymbolTable.contribute t') := by
  induction hbs generalizing t t' with
  | nil => exact h
  | cons hb _ ih => exact ih (h.contribute hb)

end SymbolTable.Agrees

/-- Changes of different types can change places. -/
theorem SymbolTable.modify_comm {i j : TypeId} (hij : i ≠ j) (f g : TypeSymbol → TypeSymbol) :
    (t.modify i f).modify j g = (t.modify j g).modify i f := by
  unfold SymbolTable.modify
  simp only [List.map_map, SymbolTable.mk.injEq, true_and, and_true]
  refine List.map_congr_left fun e _ => ?_
  by_cases hi : e.1 = i
  · simp [hi, hij]
  · by_cases hj : e.1 = j <;> simp [hi, hj, hij.symm]

theorem SymbolTable.contribute_comm (hxy : x.type ≠ y.type) :
    (t.contribute x).contribute y = (t.contribute y).contribute x := by
  have hkind (b : BoundBases) (id : TypeId) : (t.contribute b).kind? id = t.kind? id := by
    rw [kind?, kind?, SymbolTable.contribute, get?_modify, Option.map_map]
    refine congrArg (Option.map · _) (funext fun s => ?_)
    dsimp only [Function.comp]
    split <;> rfl
  have hbase (b b' : BoundBases) : b.base? (t.contribute b') = b.base? t :=
    b.base?_congr fun id _ => hkind b' id
  have hinterfaces (b b' : BoundBases) : b.interfaces (t.contribute b') = b.interfaces t := by
    unfold BoundBases.interfaces
    rw [hbase]
  have hset (b b' : BoundBases) : (t.contribute b').contribute b =
      (t.contribute b').modify b.type fun s => { s with
        base? := (b.base? t).or s.base?
        interfaces := appendMissing s.interfaces (b.interfaces t) } := by
    rw [SymbolTable.contribute, hbase, hinterfaces]
  rw [hset, hset]
  exact modify_comm hxy _ _

/-- **Bases of different types can be set in any order.** -/
theorem SymbolTable.contributions_perm (hperm : bs.Perm bs') (hnodup : (bs.map BoundBases.type).Nodup) :
    bs.foldl SymbolTable.contribute t = bs'.foldl SymbolTable.contribute t := by
  refine hperm.foldl_eq' (fun x hx y hy t => ?_) t
  by_cases hxy : x.type = y.type
  · rw [List.inj_on_of_nodup_map hnodup hx hy hxy]
  · exact contribute_comm hxy

end

/-! ## Compilations -/

/-- Is the node a global using directive that declares an alias? -/
def Node.isGlobalAlias : Node → Bool
  | using_ u => u.isGlobal && u.alias?.isSome
  | _ => false

/-- A global using directive of the tree declares an alias. -/
def SyntaxTree.HasGlobalAlias (tree : SyntaxTree) : Prop :=
  ∃ n ∈ tree.nodes, n.isGlobalAlias = true

/-- What is known of a type, save where it was declared. -/
structure TypeSymbol.Shape where
  name : String
  arity : Nat
  kind : TypeKind
  modifiers : Modifiers
  base? : Option TypeRef
  interfaces : List TypeRef
deriving DecidableEq, Repr

/-- The shape of a symbol. -/
def TypeSymbol.shape (s : TypeSymbol) : Shape :=
  ⟨s.name, s.arity, s.kind, s.modifiers, s.base?, s.interfaces⟩

theorem TypeSymbol.Agrees.shape_eq {ns ns' : Namespaces} {s s' : TypeSymbol} (h : s.Agrees ns ns' s') :
    s'.shape = s.shape := by
  unfold TypeSymbol.shape
  rw [h.name, h.arity, h.kind, h.modifiers, h.base?, h.interfaces]

/-- The using directives that stand together in the tree are nodes of it. -/
theorem SyntaxTree.HasUsings.mem_nodes {tree : SyntaxTree} {us : List Using} (h : tree.HasUsings us)
    {u : Using} (hu : u ∈ us) : Node.using_ u ∈ tree.nodes := by
  obtain rfl | ⟨d, hd, rfl⟩ := h
  · exact SyntaxTree.children_mem_nodes tree.root_mem_nodes
      (List.mem_append_left _ (List.mem_append_left _ (List.mem_map_of_mem hu)))
  · exact SyntaxTree.children_mem_nodes hd (List.mem_append_left _ (List.mem_map_of_mem hu))

/-- The global using directives that were noted are nodes of the tree. -/
theorem usings_isKept : Declaring.IsKept fun _ tree s =>
    ∀ u ∈ s.found.globalUsings, u.isGlobal = true ∧ Node.using_ u ∈ tree.nodes where
  start _ _ _ := List.forall_mem_nil _
  step {number tree origin s s'} h hs := by
    cases h with
    | declare =>
      rw [(Declaring.declare_found ..).2]
      exact hs
    | putAside =>
      unfold Declaring.putAside
      split <;> exact hs
    | noteUsings hus =>
      refine List.forall_mem_append.2 ⟨hs, fun u hu => ?_⟩
      obtain ⟨hu, hglobal⟩ := List.mem_filter.1 hu
      exact ⟨hglobal, hus.mem_nodes hu⟩
    | enterNamespace => exact hs
  mono h _ := h

namespace Compilation

variable {c c' : Compilation}

/-- Without global aliases in the sources no global using directive has an alias. -/
theorem alias?_eq_none (h : ∀ tree ∈ c.sources, ¬ tree.HasGlobalAlias) :
    ∀ u ∈ c.globalUsings, u.alias? = none := by
  intro u hu
  obtain ⟨f, hf, hu⟩ := List.mem_flatMap.1 hu
  obtain ⟨i, tree, hi, hkept⟩ := declareTrees_found usings_isKept (t := .empty) rfl f hf
  obtain ⟨origin, found⟩ := f
  cases origin with
  | metadata => cases hu
  | source =>
    obtain ⟨hglobal, hnode⟩ := hkept u hu
    have htree : tree ∈ c.sources := by
      simpa [numberedTrees] using List.mem_of_getElem? hi
    by_contra halias
    refine h tree htree ⟨_, hnode, ?_⟩
    rw [Node.isGlobalAlias, hglobal, Option.isSome_iff_ne_none.2 halias]
    rfl

theorem declaring_isOrderly (c : Compilation) : c.declaring.1.IsOrderly where
  root := (sound_of_steps c.declaring_steps sound_empty).root
  nodup := induction_of_steps c.declaring_steps (List.pairwise_singleton _ _)
    fun _ _ hs => hs.nodup_paths
  indexed := induction_of_steps c.declaring_steps .empty fun _ _ hs => hs.indexed

theorem declaring_isNamed (c : Compilation) : c.declaring.1.IsNamed c.trees :=
  induction_of_steps c.declaring_steps (fun _ _ h => by cases h) fun _ _ hs => hs.named

/-- Tables of the same outcome agree once the bases are bound, if each type has one list of
    bases at most. -/
theorem agrees_of_outcome
    (hout : SameOutcome c.declaring.1 c'.declaring.1 c.declaring.2 c'.declaring.2)
    (hagrees : c.declaring.1.Agrees c'.declaring.1) (halias : ∀ u ∈ c.globalUsings, u.alias? = none)
    (honce : (c.pending.map PendingBases.type).Nodup) : c.table.Agrees c'.table := by
  obtain ⟨hg, haliases, haliases'⟩ := GlobalUsings.of_agrees hagrees hout.usings halias
  obtain ⟨ps, hps, hpending⟩ := hout.pending
  -- the lists of the second compilation, in the order of the first one
  have hbases : List.Forall₂ BoundBases.Agrees
      (c.pending.map (PendingBases.bind · (.of c.declaring.1 c.globalUsings)))
      (ps.map (PendingBases.bind · (.of c'.declaring.1 c'.globalUsings))) := by
    refine List.rel_map ?_ hpending
    rintro p p' hp
    exact (hp.of_prefix (GlobalUsings.paths_of ..) (GlobalUsings.paths_of ..)).bind hg haliases
      haliases'
  have htypes : List.Forall₂ (· = ·) (c.pending.map PendingBases.type) (ps.map PendingBases.type) :=
    List.rel_map (fun _ _ hp => hp.type.symm) hpending
  rw [List.forall₂_eq_eq_eq] at htypes
  have hnodup : ((ps.map (PendingBases.bind · (.of c'.declaring.1 c'.globalUsings))).map
      BoundBases.type).Nodup := by
    rw [List.map_map]
    exact htypes ▸ honce
  have htable : c'.table = (ps.map (PendingBases.bind · (.of c'.declaring.1 c'.globalUsings))).foldl
      SymbolTable.contribute (GlobalUsings.of c'.declaring.1 c'.globalUsings).table := by
    rw [c'.table_eq]
    exact (contributions_perm (hps.map _) hnodup).symm
  rw [c.table_eq, htable]
  exact hg.contributions hbases

/-- **The types of a compilation do not depend on the order of its sources**, if nothing is
    wrong with the declarations in either order, no source has a global alias, each type has
    one list of bases at most, and different names have different identities. -/
theorem table_of_perm (hsources : c'.sources.Perm c.sources) (hreferences : c'.references = c.references)
    (hd : c.declarationDiagnostics = []) (hd' : c'.declarationDiagnostics = [])
    (halias : ∀ tree ∈ c.sources, ¬ tree.HasGlobalAlias)
    (honce : (c.pending.map PendingBases.type).Nodup) (hfree : c.IsCollisionFree) :
    ∀ id, (c'.table.get? id).map TypeSymbol.shape = (c.table.get? id).map TypeSymbol.shape := by
  have hout := sameOutcome hsources.symm hreferences hd hd'
  have htrees : c'.trees ⊆ c.trees := by
    intro tree htree
    rw [trees, hreferences] at htree
    exact List.mem_append.2 ((List.mem_append.1 htree).imp_left fun h => hsources.subset h)
  have hnamed : c'.declaring.1.IsNamed c.trees := fun id s hs => by
    obtain ⟨tree, htree, hname⟩ := c'.declaring_isNamed id s hs
    exact ⟨tree, htrees htree, hname⟩
  obtain ⟨es, hes, hes'⟩ := hout.describes
  have hagrees := agrees_of_outcome hout (Agrees.of_describes hes hes' c.declaring_isOrderly
    c'.declaring_isOrderly c.declaring_isNamed hnamed hfree) (alias?_eq_none halias) honce
  intro id
  exact (rel_eq_iff.1 (rel_map (hagrees.types id) fun _ _ hs => hs.shape_eq.symm)).symm

/-- A class whose base is in a namespace that another source declares. -/
def demoSources : List SyntaxTree :=
  [.parse 0 "Circle.cs" "global using Shapes; partial class Circle : Shape { }",
    .parse 1 "Shape.cs" "namespace Shapes { class Shape { } } public partial class Circle { }"]

theorem table_of_perm_demo :
    let c := Compilation.of demoSources [] .empty
    let c' := Compilation.of demoSources.reverse [] .empty
    (∀ id, (c'.table.get? id).map TypeSymbol.shape = (c.table.get? id).map TypeSymbol.shape) ∧
      ((c'.table.get? (.ofName "Circle")).bind TypeSymbol.base?) =
        some (.named (.ofName "Shapes.Shape")) := by
  intro c c'
  refine ⟨?_, by decide +kernel⟩
  refine table_of_perm (List.reverse_perm _) rfl (by decide +kernel) (by decide +kernel) ?_
    (by decide +kernel) ?_
  · unfold SyntaxTree.HasGlobalAlias
    decide +kernel
  · unfold IsCollisionFree
    decide +kernel

end Compilation

end CommandModules

/-
  Command modules — declarations that were accepted.

  * `Declaration.Introduces`: a declaration of a tree introduces a type under one of the
    names of the tree;
  * `DeclaredBy` is all that is known of a declaration that was accepted: what it
    introduces, and the symbol that has taken it up; `Compilation.declaredBy` says this of
    each entry of `declared`;
  * `Compilation.declared?_isSome`: a declaration that was accepted has a symbol and a
    tree, so nothing that was accepted is passed over.
-/
import CommandModules.Proofs.Compilation.Table
import CommandModules.Proofs.Symbol.BaseChain

namespace CommandModules

open Relation

/-- The declaration stands in the tree numbered `number` and introduces `d`, which is
    called `n`. -/
structure Declaration.Introduces (x : Declaration) (number : Nat) (tree : SyntaxTree)
    (t : SymbolTable) (d : NewType) (n : FullName) : Prop where
  node : Node.ofDeclaration x ∈ tree.nodes
  introduces : ∃ w outer?, Surroundings.introduces? w outer? x = some d
  site : d.site = ⟨number, tree.key x.span, x.span⟩
  name : n ∈ tree.fullNames
  isNamed : d.IsNamed t n

/-- The declaration known by `key` stands in the tree, and the symbol `id` has it. -/
def DeclaredBy (number : Nat) (tree : SyntaxTree) (t : SymbolTable) (key : NodeKey)
    (id : TypeId) : Prop :=
  ∃ x d n s, Declaration.Introduces x number tree t d n ∧ key = tree.key x.span ∧ id = n.id ∧
    t.get? id = some s ∧ s.Has d

section
variable {number : Nat} {tree : SyntaxTree} {origin : Origin} {s s' : Declaring}
  {t t' : SymbolTable} {key : NodeKey} {id : TypeId} {trees : List (SyntaxTree × Origin)}
  {x : Declaration} {d : NewType} {n : FullName}

theorem NewType.IsNamed.mono (h : d.IsNamed t n) (ht : t.Extends t') : d.IsNamed t' n :=
  ⟨h.part, Namespaces.path?_of_prefix ht.namespace_ h.path, h.outer⟩

theorem Declaration.Introduces.mono (h : x.Introduces number tree t d n) (ht : t.Extends t') :
    x.Introduces number tree t' d n :=
  ⟨h.node, h.introduces, h.site, h.name, h.isNamed.mono ht⟩

theorem DeclaredBy.mono (h : DeclaredBy number tree t key id) (ht : t.Extends t') :
    DeclaredBy number tree t' key id := by
  obtain ⟨x, d, n, s, hx, hk, hid, hget, hhas⟩ := h
  obtain ⟨s', hget', hb⟩ := ht.symbol id s hget
  exact ⟨x, d, n, s', hx.mono ht, hk, hid, hget', hhas.mono hb⟩

/-- Each step keeps it that what was accepted is declared. -/
theorem Declaring.Step.declaredBy (h : Declaring.Step number tree origin s s')
    (hs : ∀ e ∈ s.found.accepted, DeclaredBy number tree s.table e.1 e.2) :
    ∀ e ∈ s'.found.accepted, DeclaredBy number tree s'.table e.1 e.2 := by
  have he := h.extends
  cases h with
  | @declare w path outer? x d n hw ho hx hd hn hname =>
    obtain ⟨id, table, hok, heq⟩ | ⟨_, -, -, ht, ha⟩ := Declaring.declare_cases s w d
    · rw [heq] at he ⊢
      refine List.forall_mem_append.2 ⟨fun e hmem => (hs e hmem).mono he, ?_⟩
      obtain ⟨y, hget, hhas⟩ := SymbolTable.declare_has hok
      have hsite := (Surroundings.introduces?_eq hd).2.2
      rw [hw.number, hw.tree] at hsite
      have hid : id = n.id := (SymbolTable.declare_cases hok).1.trans (SymbolTable.idOf_eq hname)
      refine List.forall_mem_singleton.2 ⟨x, d, n, y, ⟨hx, ⟨w, outer?, hd⟩, hsite, hn, hname.mono he⟩,
        by rw [hsite], hid, hget, hhas⟩
    · rw [ht, ha]
      exact hs
  | putAside =>
    rw [Declaring.putAside_table]
    unfold Declaring.putAside
    split <;> exact hs
  | noteUsings => exact hs
  | enterNamespace => exact fun e hmem => (hs e hmem).mono he

theorem declaredBy_isKept : Declaring.IsKept fun number tree s =>
    ∀ e ∈ s.found.accepted, DeclaredBy number tree s.table e.1 e.2 where
  start _ _ _ := List.forall_mem_nil _
  step h hs := h.declaredBy hs
  mono hs ht e he := (hs e he).mono ht

end

/-! ## Declarations and their trees -/

section
variable {all : List SyntaxTree} {t t' : SymbolTable} {id : TypeId}

/-- Every declaration of a symbol stands in the tree of its number. -/
def SymbolTable.SitesIn (all : List SyntaxTree) (t : SymbolTable) : Prop :=
  ∀ e ∈ t.types, ∀ site ∈ e.2.declarations, ∃ tree, all[site.tree]? = some tree ∧
    site.key.tree = tree.id

theorem SymbolTable.SitesIn.modify {f : TypeSymbol → TypeSymbol} (h : t.SitesIn all)
    (hf : ∀ e ∈ t.types, ∀ site ∈ (f e.2).declarations, site ∈ e.2.declarations ∨
      ∃ tree, all[site.tree]? = some tree ∧ site.key.tree = tree.id) :
    (t.modify id f).SitesIn all := by
  intro e' he' site hsite
  obtain ⟨e, he, rfl⟩ := List.mem_map.1 he'
  split at hsite
  · exact (hf e he site hsite).elim (h e he site) fun h => h
  · exact h e he site hsite

theorem SymbolTable.SitesIn.enterName (h : t.SitesIn all) (d : NewType) :
    (t.enterName d).SitesIn all := by
  unfold SymbolTable.enterName
  dsimp only
  split
  · exact h.modify fun s _ site hsite => .inl hsite
  · exact h

/-- Each step keeps the declarations of symbols in their trees. -/
theorem SymbolTable.Step.sitesIn (h : Step all t t') (ht : t.SitesIn all) : t'.SitesIn all := by
  cases h with
  | @declare _ _ d tree _ hd htree hkey =>
    obtain ⟨-, ⟨_, -, -, rfl⟩ | ⟨-, rfl⟩⟩ := SymbolTable.declare_cases hd
    · refine ht.modify fun y _ site hsite => ?_
      rcases List.mem_append.1 hsite with h | h
      · exact .inl h
      · exact .inr (List.mem_singleton.1 h ▸ ⟨tree, htree, hkey⟩)
    · refine List.forall_mem_append.2 ⟨ht.enterName d, List.forall_mem_singleton.2 ?_⟩
      exact List.forall_mem_singleton.2 ⟨tree, htree, hkey⟩
  | enterNamespace => exact ht
  | addGlobalUsing => exact ht
  | contribute => exact ht.modify fun _ _ _ hsite => .inl hsite

end

namespace Compilation

variable {c : Compilation} {key : NodeKey} {id : TypeId}

theorem mem_declared_iff : (key, id) ∈ c.symbols.declared ↔
    ∃ f ∈ c.declaring.2, (key, id) ∈ f.2.accepted := by
  rw [c.symbols_eq]
  exact List.mem_flatMap

/-- **What is in the list of declared types is declared.** -/
theorem declaredBy (h : (key, id) ∈ c.symbols.declared) :
    ∃ n tree, c.tree? n = some tree ∧ DeclaredBy n tree c.table key id := by
  obtain ⟨f, hf, he⟩ := mem_declared_iff.1 h
  obtain ⟨i, tree, hi, hd⟩ := declareTrees_found declaredBy_isKept (t := .empty) rfl f hf
  refine ⟨i, tree, ?_, ?_⟩
  · rw [tree?, trees_eq, List.getElem?_map, hi]
    rfl
  · have hd := hd _ he
    rw [Nat.zero_add] at hd
    exact hd.mono (SymbolTable.extends_of_steps c.table_steps_of_declaring)

theorem sitesIn (c : Compilation) : c.table.SitesIn c.trees :=
  c.table_induction (List.forall_mem_nil _) fun _ _ h ht => h.sitesIn ht

/-- **A declaration that was accepted has a symbol and a tree.** -/
theorem declared?_isSome (h : c.symbols.declared.lookup key = some id) :
    ∃ s tree, c.symbolOf? key = some s ∧ c.treeOf? key = some tree ∧ tree.id = key.tree := by
  have hmem : (key, id) ∈ c.symbols.declared := by
    obtain ⟨as, bs, heq, -⟩ := List.lookup_eq_some_iff.1 h
    simp [heq]
  obtain ⟨n, tree, -, x, d, name, s, hx, hk, -, hget, hhas⟩ := declaredBy hmem
  have hs : c.symbolOf? key = some s := by
    rw [symbolOf?, h]
    exact hget
  obtain ⟨site, hsite⟩ : ∃ site, s.declarations.find? (fun d => d.key == key) = some site := by
    refine Option.isSome_iff_exists.1 (List.find?_isSome.2 ⟨d.site, hhas.site, ?_⟩)
    simp [hx.site, hk]
  obtain ⟨tree, htree, hid⟩ :=
    c.sitesIn _ (SymbolTable.mem_of_get? hget) site (List.mem_of_find?_eq_some hsite)
  refine ⟨s, tree, hs, ?_, ?_⟩
  · rw [treeOf?, hs]
    simp only [Option.bind_eq_bind, Option.bind_some, hsite]
    exact htree
  · have hkey : site.key = key := by simpa using List.find?_some hsite
    rw [← hid, hkey]

end Compilation

end CommandModules

/-
  Command modules — the names of the types of a compilation.

  * `SymbolTable.Step.indexed`: each step on the way to the table keeps it indexed;
  * `Compilation.indexed`: so identities, order and names lead to the same types;
  * `SymbolTable.Step.isNew`: a step adds a symbol only for a declaration of a tree, and the
    symbol has its name;
  * `Compilation.named`: so each type is called by one of the full names of the trees;
  * `Compilation.IsCollisionFree`: different names have different identities;
  * `Compilation.name_isWord`: the names of types are words.
-/
import CommandModules.Proofs.Compilation.Path
import CommandModules.Proofs.Symbol.Indexed

namespace CommandModules

variable {all : List SyntaxTree} {t t' : SymbolTable} {id : TypeId} {s s' : TypeSymbol}
  {n : FullName} {c : Compilation}

/-! ## Indexes -/

namespace SymbolTable

/-- A declaration of this name stands in a container that is there. -/
theorem holds_of_isNamed {d : NewType} (hname : d.IsNamed t n)
    (ho : ∀ outer, d.containing? = some outer → (t.get? outer).isSome) : t.Holds d.place := by
  unfold NewType.place
  cases hc : d.containing? with
  | none => exact Namespaces.lt_length_iff.2 ⟨_, hname.path⟩
  | some outer => exact ho outer hc

/-- Each step keeps the indexes. -/
theorem Step.indexed (h : Step all t t') (ht : t.Indexed) : t'.Indexed := by
  cases h with
  | declare hd _ _ _ hname ho => exact ht.declare (holds_of_isNamed hname ho) hd
  | enterNamespace => exact ht.createPath _ _
  | addGlobalUsing => exact ht.addGlobalUsing _
  | contribute => exact ht.contribute _

end SymbolTable

/-- **The table of a compilation is indexed.** -/
theorem Compilation.indexed (c : Compilation) : c.table.Indexed :=
  c.table_induction .empty fun _ _ h ht => h.indexed ht

/-! ## Names -/

theorem TypeSymbol.IsNamed.mono (h : s.IsNamed t n) (hs : s.Becomes s') (ht : t.Extends t') :
    s'.IsNamed t' n where
  id := hs.id.trans h.id
  part := by rw [hs.name, hs.arity, h.part]
  path := by
    rw [hs.namespace_]
    exact Namespaces.path?_of_prefix ht.namespace_ h.path
  outer := hs.containing.trans h.outer

namespace SymbolTable

/-- The symbol of a declaration has its name. -/
theorem symbolOf_isNamed {d : NewType} (h : d.IsNamed t n) : (t.symbolOf d).IsNamed t n :=
  ⟨idOf_eq h, h.part, h.path, h.outer⟩

/-- **A symbol that a step adds** has one of the names of the trees. -/
theorem Step.isNew (h : Step all t t') (hn : t.get? id = none) (hs : t'.get? id = some s) :
    ∃ tree ∈ all, ∃ n ∈ tree.fullNames, s.IsNamed t' n := by
  have he := h.extends
  cases h with
  | @declare _ _ d tree n hd htree _ hmem hname =>
    refine ⟨tree, List.mem_of_getElem? htree, n, hmem, ?_⟩
    obtain ⟨rfl, ⟨x, hx, -, rfl⟩ | ⟨hnone, rfl⟩⟩ := declare_cases hd
    · rw [get?_modify, hn] at hs
      cases hs
    · by_cases hid : id = t.idOf d
      · subst hid
        rw [get?_enter hnone] at hs
        obtain rfl := Option.some_inj.1 hs
        exact (symbolOf_isNamed hname).mono (.refl _) he
      · rw [get?_enter_of_ne hid, hn] at hs
        cases hs
  | enterNamespace => cases hn.symm.trans hs
  | addGlobalUsing => cases hn.symm.trans hs
  | contribute b =>
    rw [SymbolTable.contribute, get?_modify, hn] at hs
    cases hs

/-- All types are called by one of the full names of the trees. -/
def IsNamed (t : SymbolTable) (all : List SyntaxTree) : Prop :=
  ∀ id s, t.get? id = some s → ∃ tree ∈ all, ∃ n ∈ tree.fullNames, s.IsNamed t n

theorem Step.named (h : Step all t t') (ht : t.IsNamed all) : t'.IsNamed all := by
  intro id s' hs'
  cases hs : t.get? id with
  | none => exact h.isNew hs hs'
  | some s =>
    obtain ⟨tree, htree, n, hn, hname⟩ := ht id s hs
    obtain ⟨s'', hs'', hb⟩ := h.extends.symbol id s hs
    obtain rfl := Option.some_inj.1 (hs'.symm.trans hs'')
    exact ⟨tree, htree, n, hn, hname.mono hb h.extends⟩

end SymbolTable

/-- **Every type is called by one of the full names of the trees.** -/
theorem Compilation.named (c : Compilation) : c.table.IsNamed c.trees :=
  c.table_induction (fun _ _ h => by cases h) fun _ _ h ht => h.named ht

/-- Different names of types in the trees have different identities. -/
def Compilation.IsCollisionFree (c : Compilation) : Prop :=
  ∀ t ∈ c.trees, ∀ n ∈ t.fullNames, ∀ t' ∈ c.trees, ∀ m ∈ t'.fullNames, n.id = m.id → n = m

/-- **The names of types are words.** -/
theorem Compilation.name_isWord (h : ∀ tree ∈ c.trees, tree.IsParsed)
    (hs : c.table.get? id = some s) : IsWord s.name (wordKind s.name) := by
  obtain ⟨tree, htree, n, hn, hname⟩ := c.named id s hs
  have hpart := (h tree htree).fullNames_worded n hn
  rwa [← hname.part] at hpart

end CommandModules

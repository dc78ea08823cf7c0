/-
  Command modules — classes of the sources and their symbols.

  * `SymbolTable.IsSettled`: the types of a table are as accessible as their modifiers say;
  * `Compilation.Takes`: what is known of a class that was accepted, in the table behind the
    sources;
  * `Compilation.taken_of_lookup`: a class of a source that was accepted was accepted as
    itself, since its key is that of no other declaration.
-/
import CommandModules.Proofs.Compilation.Extended

namespace CommandModules

open Relation

/-! ## Accessibility -/

namespace SymbolTable

variable {all : List SyntaxTree} {t t' : SymbolTable} {d : NewType}

/-- The types are as accessible as their modifiers say. -/
def IsSettled (t : SymbolTable) : Prop :=
  ∀ id s, t.get? id = some s → s.IsSettled

theorem symbolOf_isSettled (t : SymbolTable) (d : NewType) : (t.symbolOf d).IsSettled := by
  unfold TypeSymbol.IsSettled symbolOf
  dsimp only
  cases d.modifiers.accessibility? <;> rfl

theorem IsSettled.of_becomes (ht : t.IsSettled) (h : ∀ id s', t'.get? id = some s' →
    s'.IsSettled ∨ ∃ s, t.get? id = some s ∧ s.Becomes s') : t'.IsSettled := by
  intro id s' hs'
  obtain hset | ⟨s, hs, hb⟩ := h id s' hs'
  · exact hset
  · exact hb.isSettled (ht id s hs)

theorem IsSettled.modify {id : TypeId} {f : TypeSymbol → TypeSymbol} (ht : t.IsSettled)
    (hf : ∀ s, t.get? id = some s → s.Becomes (f s)) : (t.modify id f).IsSettled := by
  refine ht.of_becomes fun j s' hs' => .inr ?_
  rw [get?_modify] at hs'
  obtain ⟨s, hs, rfl⟩ := Option.map_eq_some_iff.1 hs'
  refine ⟨s, hs, ?_⟩
  by_cases hj : j = id
  · rw [if_pos hj]
    exact hf s (hj ▸ hs)
  · rw [if_neg hj]
    exact .refl s

/-- Each step keeps the types as accessible as their modifiers say. -/
theorem Step.isSettled (h : Step all t t') (ht : t.IsSettled) : t'.IsSettled := by
  cases h with
  | @declare _ _ d _ _ hd =>
    obtain ⟨rfl, ⟨s, hs, hr, rfl⟩ | ⟨hn, rfl⟩⟩ := declare_cases hd
    · refine ht.modify fun s' hs' => ?_
      obtain rfl := Option.some_inj.1 (hs.symm.trans hs')
      exact .merge hr
    · refine ht.of_becomes fun j s' hs' => ?_
      by_cases hj : j = t.idOf d
      · subst hj
        rw [get?_enter hn] at hs'
        obtain rfl := Option.some_inj.1 hs'
        exact .inl (symbolOf_isSettled t d)
      · obtain ⟨s, hs, -⟩ := Option.map_eq_some_iff.1 ((get?_enter_of_ne hj).symm.trans hs')
        obtain ⟨s'', hs'', hb⟩ := (Extends.enter t d).symbol j s hs
        obtain rfl := Option.some_inj.1 (hs'.symm.trans hs'')
        exact .inr ⟨s, hs, hb⟩
  | enterNamespace => exact ht
  | addGlobalUsing => exact ht
  | contribute b => exact ht.modify fun s _ => .bases s _ _

end SymbolTable

namespace Compilation

variable {c : Compilation} {k : Candidate} {id : TypeId} {n : FullName} {s : TypeSymbol}

theorem sourceTable_isSettled (c : Compilation) : c.sourceTable.IsSettled :=
  SymbolTable.induction_of_steps c.sourceTable_steps (fun _ _ h => by cases h)
    fun _ _ hs => hs.isSettled

theorem sourceTable_extends (c : Compilation) : c.sourceTable.Extends c.table := by
  refine .trans ?_ (SymbolTable.extends_of_steps c.table_steps_of_declaring)
  rw [declaring_eq]
  exact declareTrees_extends c.sourceTable_root

/-! ## Classes -/

/-- The class was accepted under the name `n`, and `s` is its symbol behind the sources. -/
structure Takes (c : Compilation) (k : Candidate) (n : FullName) (s : TypeSymbol) : Prop where
  symbol : c.sourceTable.get? n.id = some s
  name : ∃ tree ∈ c.sources, n ∈ tree.fullNames
  part : n.part = k.declaration.namePart
  space : n.path ∈ c.sourceTable.namespaces.paths
  kind : s.kind = k.declaration.kind
  modifiers : k.declaration.modifiers.flags.Accords s.modifiers

/-- Declarations of a text are the same if their offsets are. -/
theorem declaration_eq {tree : SyntaxTree} (h : tree.IsRead) {x y : Declaration}
    (hx : x ∈ tree.root.declared) (hy : y ∈ tree.root.declared) (hoffset : x.offset = y.offset) :
    x = y := by
  have hnodup : (tree.root.declared.map Declaration.offset).Nodup :=
    h.declared_ordered.imp fun hlt => Nat.ne_of_lt hlt
  exact List.inj_on_of_nodup_map hnodup hx hy hoffset

/-- What a declaration of a tree introduces is declared in the tree. -/
theorem mem_declared_of_introduces {tree : SyntaxTree} {x : Declaration} {d : NewType}
    {w : Surroundings} {outer? : Option TypeId} (hx : Node.ofDeclaration x ∈ tree.nodes)
    (hd : w.introduces? outer? x = some d) : x ∈ tree.root.declared := by
  rw [← tree.nodes_declared]
  refine List.mem_filterMap.2 ⟨_, hx, ?_⟩
  cases x with
  | type => rfl
  | delegate => rfl
  | namespace_ => cases hd

/-- What was found in the references has keys of their trees. -/
theorem key_of_reference {f : Origin × TreeDeclarations} {key : NodeKey}
    (hf : f ∈ (declareTrees c.sourceTable c.sources.length
      ((c.references.flatMap Reference.trees).map (·, Origin.metadata))).2)
    (ha : (key, id) ∈ f.2.accepted) : ∃ tree ∈ c.references.flatMap Reference.trees,
      key.tree = tree.id := by
  obtain ⟨i, tree, hi, hd⟩ := declareTrees_found declaredBy_isKept c.sourceTable_root f hf
  obtain ⟨x, -, -, -, -, hkey, -⟩ := hd _ ha
  obtain ⟨tree', ht, he⟩ := List.mem_map.1 (List.mem_of_getElem? hi)
  obtain ⟨rfl, -⟩ := Prod.mk.inj he
  exact ⟨tree', ht, congrArg NodeKey.tree hkey⟩

/-- **A class of a source that was accepted** was accepted as itself. -/
theorem taken_of_lookup (hread : ∀ t ∈ c.sources, t.IsRead)
    (hids : (c.trees.map SyntaxTree.id).Nodup) (hk : k ∈ c.classParts)
    (hl : c.symbols.declared.lookup k.key = some id) : ∃ n s, c.Takes k n s ∧ n.id = id := by
  obtain ⟨tree, ht, hd, -, hkey⟩ := mem_classParts hk
  have hmem : (k.key, id) ∈ c.symbols.declared := by
    obtain ⟨as, bs, heq, -⟩ := List.lookup_eq_some_iff.1 hl
    simp [heq]
  obtain ⟨f, hf, ha⟩ := mem_declared_iff.1 hmem
  rw [trees, List.map_append] at hids
  obtain ⟨hsources, -, hdisjoint⟩ := List.nodup_append.1 hids
  rw [declaring_eq] at hf
  rcases List.mem_append.1 hf with hf | hf
  · obtain ⟨i, tree', hi, hdecl⟩ := declareTrees_found declaredBy_isKept rfl f hf
    obtain ⟨x, d, n, s, hx, hkey', hid, hget, hhas⟩ := hdecl _ ha
    obtain ⟨_, ht', he⟩ := List.mem_map.1 (List.mem_of_getElem? hi)
    obtain ⟨rfl, -⟩ := Prod.mk.inj he
    rw [hkey] at hkey'
    obtain rfl := List.inj_on_of_nodup_map hsources ht ht' (congrArg NodeKey.tree hkey')
    obtain ⟨w, outer?, hw⟩ := hx.introduces
    obtain rfl : .type k.declaration = x := by
      refine declaration_eq (hread tree ht) ?_ (mem_declared_of_introduces hx.node hw) ?_
      · obtain ⟨y, hy, hye⟩ := List.mem_filterMap.1 hd
        cases y <;> cases hye
        exact hy
      · have := congrArg NodeKey.offset hkey'
        cases x with
        | namespace_ => cases hw
        | _ => exact this
    obtain rfl := Option.some_inj.1 hw
    exact ⟨n, s, ⟨hid ▸ hget, ⟨tree, ht, hx.name⟩, hx.isNamed.part.symm,
      Namespaces.mem_paths_of_path? hx.isNamed.path, hhas.kind, hhas.modifiers⟩, hid.symm⟩
  · obtain ⟨tree', ht', he⟩ := key_of_reference hf ha
    rw [hkey] at he
    exact absurd he (hdisjoint _ (List.mem_map_of_mem ht) _ (List.mem_map_of_mem ht'))

/-- The symbol of a class covers its declaration. -/
theorem Takes.covers (h : c.Takes k n s) : s.Covers k.declaration :=
  ⟨h.modifiers.subset, c.sourceTable_isSettled _ _ h.symbol⟩

/-- A partial class whose type is public admits one more part like it. -/
theorem Takes.admits (h : c.Takes k n s) {u : TypeSymbol} (hu : c.table.get? n.id = some u)
    (hpublic : u.accessibility = .public_)
    (hpartial : k.declaration.modifiers.flags.contains .partial_ = true) :
    s.Admits k.declaration := by
  obtain ⟨u', hu', hb⟩ := c.sourceTable_extends.symbol _ s h.symbol
  obtain rfl := Option.some_inj.1 (hu.symm.trans hu')
  have hsettled := c.sourceTable_isSettled _ _ h.symbol
  have hspells : s.modifiers.accessibility? = some .public_ ∨ s.modifiers.accessibility? = none := by
    rcases hb.isPublic hsettled hpublic with hp | hn
    · cases ha : s.modifiers.accessibility? with
      | none => exact .inr rfl
      | some a =>
        rw [TypeSymbol.IsSettled, ha, hp] at hsettled
        exact .inl (congrArg some hsettled)
    · exact .inr hn.accessibility?_eq
  exact ⟨h.modifiers.subset _ hpartial, hpartial, h.kind, h.modifiers.conflict_eq hspells⟩

end Compilation

end CommandModules

/-
  Command modules — sources in the namespaces of their classes.

  * `Compilation.Merges`: the source of the class can be read as one more part of it;
  * `IsFaultless.merges`: then its type admits the part;
  * `wrapped_sources_merge`: so the compilation with the sources of a run has the same types,
    with one more declaration for each class that has a source, and nothing is wrong with it.
-/
import CommandModules.Proofs.Compilation.Named
import CommandModules.Proofs.Registration.Added

namespace CommandModules

/-- The standard options, but for sources that are put into the namespaces of their
    classes. -/
def Options.wrapped : Options :=
  { Options.standard with wrapInNamespace := true }

namespace Compilation

variable {c : Compilation} {o : Options} {k k' : Candidate} {s s₀ : TypeSymbol} {n : FullName}

/-- The type of a class has the name of the class. -/
theorem Takes.isNamed (ht : c.Takes k n s₀) (hfree : c.IsCollisionFree)
    (hs : c.table.get? n.id = some s) : s.IsNamed c.table n := by
  obtain ⟨tree, htree, hn⟩ := ht.name
  obtain ⟨tree', htree', m, hm, hname⟩ := c.named _ s hs
  have hid : m.id = n.id := hname.id.symm.trans (c.indexed.id _ s hs)
  obtain rfl := hfree tree' htree' m hm tree (List.mem_append_left _ htree) n hn hid
  exact hname

/-- The source of a class that is not nested is put into its namespace, where it has the
    identity of the class. -/
theorem Takes.wrappingPath_eq (ht : c.Takes k n s₀) (hname : s.IsNamed c.table n)
    (ho : o.wrapInNamespace = true) (htop : s.containing? = none) :
    o.wrappingPath c s = n.path ∧ k.declaration.idIn n.path = n.id := by
  refine ⟨?_, ?_⟩
  · rw [Options.wrappingPath, if_pos ho, Namespaces.path_eq hname.path]
  · have houter := hname.outer
    rw [htop] at houter
    cases n with
    | top path part =>
      rw [TypeDeclaration.idIn, ← ht.part]
      rfl
    | nested => cases houter

/-- Two classes of the same name have sources of the same name. -/
theorem Takes.hintName_eq {s₀' : TypeSymbol} (ht : c.Takes k n s₀) (ht' : c.Takes k' n s₀') :
    (o.registration c k).hintName = (o.registration c k').hintName := by
  have hpart : k.declaration.namePart = k'.declaration.namePart := ht.part.symm.trans ht'.part
  have hname : k.declaration.name.value = k'.declaration.name.value :=
    congrArg NamePart.name hpart
  rw [Options.registration, Options.registration, hname]

/-- The path of the namespace that the source of a class is put into. -/
def spaceOf (c : Compilation) (o : Options) (k : Candidate) : List String :=
  (c.symbolOf? k.key).elim [] (o.wrappingPath c)

/-- The class is not nested, it is partial, and its source can be read. -/
structure Merges (c : Compilation) (o : Options) (k : Candidate) (s : TypeSymbol) : Prop where
  top : s.containing? = none
  partial_ : k.declaration.modifiers.flags.contains .partial_ = true
  readable : k.IsReadable o c s

/-- **The source of such a class is one more part of it**, which its type admits. -/
theorem IsFaultless.merges (h : c.IsFaultless) (hfree : c.IsCollisionFree) (ho : o.FitsHost)
    (hwrap : o.wrapInNamespace = true) (hk : k ∈ c.registered o)
    (hm : ∀ s, c.IsModule o k s → c.Merges o k s) : ∃ n s₀, c.Takes k n s₀ ∧
      c.symbols.declared.lookup k.key = some n.id ∧ k.declaration.idIn (c.spaceOf o k) = n.id ∧
      s₀.Admits k.declaration ∧
      ∀ i file, let tree := SyntaxTree.parse i file (o.registration c k).text
        tree.errors = [] ∧
          tree.Supplements (fun _ => False) c.sourceTable (c.spaceOf o k) k.declaration := by
  obtain ⟨s, n, s₀, hs, ht, hid⟩ := h.taken hk
  obtain ⟨htop, hpartial, hreadable⟩ := hm s hs
  have hget : c.table.get? n.id = some s := by
    rw [hid]
    exact hs.symbol
  obtain ⟨hpath, hidIn⟩ := ht.wrappingPath_eq (ht.isNamed hfree hget) hwrap htop
  have hspace : c.spaceOf o k = o.wrappingPath c s := by
    rw [spaceOf, hs.symbolOf?]
    rfl
  rw [hspace]
  refine ⟨n, s₀, ht, by rw [hid]; exact hs.accepted, by rw [hpath]; exact hidIn,
    ht.admits hget hs.isPublic hpartial, fun i file => ?_⟩
  exact h.supplements ho hk hs ht hreadable (by rw [hpath]; exact ht.space)
    (.inr (by rw [hpath]; exact hidIn)) i file

/-- Different registered classes are different types. -/
theorem IsFaultless.nodup_registered (h : c.IsFaultless) (hfree : c.IsCollisionFree) :
    (c.registered o).Pairwise fun k k' =>
      c.symbols.declared.lookup k.key ≠ c.symbols.declared.lookup k'.key := by
  refine (c.registered_names o).imp_of_mem fun hk hk' hnames heq => ?_
  obtain ⟨s, n, s₀, hs, ht, hid⟩ := h.taken hk
  obtain ⟨s', n', s₀', hs', ht', hid'⟩ := h.taken hk'
  rw [hs.accepted, hs'.accepted, ← hid, ← hid'] at heq
  obtain ⟨tree, htree, hn⟩ := ht.name
  obtain ⟨tree', htree', hn'⟩ := ht'.name
  obtain rfl := hfree tree (List.mem_append_left _ htree) n hn tree' (List.mem_append_left _ htree')
    n' hn' (Option.some_inj.1 heq)
  rw [ht.hintName_eq ht', Text.eqCaseless_refl] at hnames
  cases hnames

end Compilation

theorem SymbolTable.Grows.length_keysOf (as : List (NodeKey × TypeId)) (id : TypeId) :
    (keysOf as id).length = (as.map Prod.snd).count id := by
  rw [keysOf, List.length_map, List.count_eq_countP, List.countP_map, List.countP_eq_length_filter]
  rfl

/-- The type is that of a class whose source was added. -/
def Compilation.HasSource (c : Compilation) (o : Options) (id : TypeId) : Prop :=
  ∃ k ∈ c.registered o, c.symbols.declared.lookup k.key = some id

/-- **Sources that are put into the namespaces of their classes merge with them.**  Nothing is
    wrong with the compilation then; it has the same types, and they are as they were, but
    that each class with a source has one more declaration. -/
theorem wrapped_sources_merge (c : Compilation) (h : c.IsFaultless)
    (hset : Options.wrapped.override c.settings = .wrapped) (hfree : c.IsCollisionFree)
    (hclasses : ∀ k ∈ c.registered .wrapped, ∀ s, c.IsModule .wrapped k s → c.Merges .wrapped k s) :
    let updated := c.withResults (runGenerators [moduleGenerator .wrapped] c)
    updated.diagnostics = [] ∧
      (∀ id, updated.table.get? id = none ↔ c.table.get? id = none) ∧
      ∀ id s, c.table.get? id = some s → ∃ s', updated.table.get? id = some s' ∧ s.Twin s' ∧
        (c.HasSource .wrapped id → ∃ key, s'.keys.Perm (s.keys ++ [key])) ∧
        (¬ c.HasSource .wrapped id → s'.keys.Perm s.keys) := by
  intro updated
  let gs := generatedTrees (runGenerators [moduleGenerator .wrapped] c)
  let idOf (k : Candidate) : TypeId := k.declaration.idIn (c.spaceOf .wrapped k)
  have hmerges : ∀ k ∈ c.registered .wrapped, _ := fun k hk =>
    h.merges hfree (o := .wrapped) ⟨rfl, rfl, rfl, rfl⟩ rfl hk (hclasses k hk)
  have htrees := generated_registered c .wrapped rfl hset
  have hparts : List.Forall₂ (fun g (e : List String × TypeDeclaration) =>
      g.Supplements (fun _ => False) c.sourceTable e.1 e.2 ∧ ¬ False ∧
        ∃ s, c.sourceTable.get? (e.2.idIn e.1) = some s ∧ s.Admits e.2) gs
      ((c.registered .wrapped).map fun k => (c.spaceOf .wrapped k, k.declaration)) := by
    rw [List.forall₂_map_right_iff]
    refine (((List.forall₂_and_left _ _).2 ⟨fun k hk => hk, htrees⟩).flip).imp ?_
    rintro g k ⟨hk, i, rfl⟩
    obtain ⟨n, s₀, ht, -, hid, hadmits, htree⟩ := hmerges k hk
    exact ⟨(htree i _).2, not_false, s₀, by rw [hid]; exact ht.symbol, hadmits⟩
  have herrors : ∀ g ∈ gs, g.errors = [] := by
    refine forall_of_forall₂ htrees fun k hk g hkg => ?_
    obtain ⟨i, rfl⟩ := hkg
    obtain ⟨n, s₀, -, -, -, -, htree⟩ := hmerges k hk
    exact (htree i _).1
  have hgs : ∀ g ∈ gs, ∃ path k, g.Supplements (fun _ => False) c.sourceTable path k :=
    forall_of_forall₂ hparts.flip fun e _ g hg => ⟨e.1, e.2, hg.1⟩
  obtain ⟨hgrows, hdiags⟩ := Compilation.withSources_grows h.isParsed h.symbols hgs
    (fun _ _ _ _ _ _ => not_false) (c.avoids_of_none fun _ => not_false)
  have hsources : ∀ t ∈ c.sources, t.IsParsed := fun t ht => (h.isRead t ht).1
  obtain ⟨haccepted, hnone⟩ := (SymbolTable.Grows.refl (fun _ => False) c.sourceTable).declareTrees_accepted
    c.sourceTable_root c.sourceTable_isClosed (c.sourceTable_hasWords hsources) hparts c.sources.length
  rw [List.map_map] at haccepted
  have hsource (id : TypeId) : c.HasSource .wrapped id ↔ id ∈ (c.registered .wrapped).map idOf := by
    rw [List.mem_map]
    refine exists_congr fun k => and_congr_right fun hk => ?_
    obtain ⟨n, s₀, -, hl, hid, -, -⟩ := hmerges k hk
    rw [hl, show idOf k = n.id from hid, Option.some_inj]
  have hnodup : ((c.registered .wrapped).map idOf).Nodup := by
    refine List.pairwise_map.2 ((h.nodup_registered hfree).imp_of_mem fun hk hk' hne heq => hne ?_)
    obtain ⟨n, s₀, -, hl, hid, -, -⟩ := hmerges _ hk
    obtain ⟨n', s₀', -, hl', hid', -, -⟩ := hmerges _ hk'
    rw [hl, hl', ← hid, ← hid']
    exact congrArg some heq
  have hcount (id : TypeId) : (SymbolTable.Grows.keysOf _ id).length = _ :=
    (SymbolTable.Grows.length_keysOf _ id).trans (congrArg (List.count id) haccepted)
  refine ⟨?_, fun id => ⟨fun hn => ?_, fun hn => ?_⟩, fun id s hs => ?_⟩
  · show (c.sources ++ gs).flatMap SyntaxTree.diagnostics ++ (c.withSources gs).symbols.diagnostics = []
    rw [hdiags, hnone, List.append_nil, List.flatMap_append, List.append_eq_nil_iff]
    refine ⟨(List.append_eq_nil_iff.1 h.diagnostics).1, List.flatMap_eq_nil_iff.2 fun g hg => ?_⟩
    exact List.map_eq_nil_iff.2 (herrors g hg)
  · by_contra hs
    obtain ⟨s, hs⟩ := Option.ne_none_iff_exists'.1 hs
    obtain ⟨s', hs', -⟩ := hgrows.old id s hs
    cases hn.symm.trans hs'
  · exact ((hgrows.new id hn).resolve_right not_false).1
  · obtain ⟨s', hs', hm⟩ := hgrows.old id s hs
    refine ⟨s', hs', hm.twin not_false, fun hid => ?_, fun hid => ?_⟩
    · have hone := (hcount id).trans (List.count_eq_one_of_mem hnodup ((hsource id).1 hid))
      obtain ⟨key, hkey⟩ := List.length_eq_one_iff.1 hone
      exact ⟨key, hkey ▸ hm.keys⟩
    · have hzero := (hcount id).trans (List.count_eq_zero_of_not_mem (mt (hsource id).2 hid))
      have hkeys := hm.keys
      rwa [List.length_eq_zero_iff.1 hzero, List.append_nil] at hkeys

theorem wrapped_sources_merge_demo :
    let updated := demoModule.withResults (runGenerators [moduleGenerator .wrapped] demoModule)
    updated.diagnostics = [] ∧ ∃ s s' key, demoModule.table.get? (.ofName "Demo.Foo") = some s ∧
      updated.table.get? (.ofName "Demo.Foo") = some s' ∧ s'.keys.Perm (s.keys ++ [key]) := by
  intro updated
  have hfree : demoModule.IsCollisionFree := by
    unfold Compilation.IsCollisionFree
    decide +kernel
  have hclass : ∀ k ∈ demoModule.classParts, ∀ s ∈ demoModule.symbolOf? k.key,
      s.containing? = none ∧ k.declaration.modifiers.flags.contains .partial_ = true ∧
        ∀ q ∈ Options.wrapped.wrappingPath demoModule s, wordKind q = .identifier := by
    decide +kernel
  have hmem {k : Candidate} (hk : k ∈ demoModule.registered .wrapped) : k ∈ demoModule.classParts :=
    (demoModule.registered_sublist _).subset hk
  obtain ⟨hd, -, hsymbols⟩ := wrapped_sources_merge demoModule demoModule_isFaultless rfl hfree
    fun k hk s hs =>
      have ⟨htop, hpartial, hpath⟩ := hclass k (hmem hk) s hs.symbolOf?
      ⟨htop, hpartial, hpath, fun m hm _ => demoModule_nested k (hmem hk) m hm⟩
  have hsource : ∃ k ∈ demoModule.registered .wrapped,
      demoModule.symbols.declared.lookup k.key = some (.ofName "Demo.Foo") := by
    decide +kernel
  obtain ⟨s, hs⟩ : ∃ s, demoModule.table.get? (.ofName "Demo.Foo") = some s :=
    Option.isSome_iff_exists.1 (by decide +kernel)
  obtain ⟨s', hs', -, hone, -⟩ := hsymbols _ s hs
  obtain ⟨key, hkey⟩ := hone hsource
  exact ⟨hd, s, s', key, hs, hs', hkey⟩

end CommandModules

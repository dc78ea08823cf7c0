/-
  Command modules — what is generated does not depend on blanks and comments.

  Two compilations are compared whose sources are equivalent tree by tree.

  * `Options.IgnoresTrivia`: the marker is one word, the base of modules is not called by a
    text that a list of bases may write in several ways, and what options put into fragments
    leaves the other lines alone;
  * `Compilation.Equivalent.candidates`: the candidates stand at the same places;
  * `Candidate.Respells.registers_iff`: they register alike, and
    `Candidate.Respells.registration` says that their fragments have equivalent trees;
  * `generation_ignores_trivia`: so a run adds sources of the same names, and their trees are
    equivalent.
-/
import CommandModules.Proofs.Compilation.Equivalent
import CommandModules.Proofs.Registration.Policy
import CommandModules.Proofs.Registration.Respelled

namespace CommandModules

/-- Nothing in the options is compared with verbatim texts that may be written in several
    ways, and what is put into fragments is closed. -/
structure Options.IgnoresTrivia (o : Options) : Prop where
  marker : IsWord o.marker .identifier
  /-- simple names of bases that were not found are verbatim texts, if they are no names -/
  baseType : o.baseMatch = .simple → ¬ EndInMark (tokensOf o.baseType)
  lines : o.LeavesLines

/-! ## Bases -/

section
variable {o : Options} {t u : SymbolTable}

/-- **Bases that are written with the same tokens** are compared alike. -/
theorem Options.matchesBase_respells (ho : o.IgnoresTrivia) (h : t.bare = u.bare) {r r' : TypeRef}
    (hr : r.Respells r') : o.matchesBase t r = o.matchesBase u r' := by
  rw [matchesBase, matchesBase]
  cases hr with
  | named id =>
    rw [← t.simpleName_bare, h, u.simpleName_bare, TypeRef.id?, Option.any_some, Option.any_some,
      ← t.qualifiedName_bare, h, u.qualifiedName_bare]
  | @unresolved x y hxy =>
    cases hmatch : o.baseMatch with
    | qualified => rfl
    | simple =>
      have hmark := ho.baseType hmatch
      show (x.name == o.baseType) = (y.name == o.baseType)
      obtain hname | ⟨hx, hy⟩ := hxy
      · rw [hname]
      · have hne {name : String} (hname : EndInMark (tokensOf name)) : (name == o.baseType) = false :=
          beq_eq_false_iff_ne.2 fun heq => hmark (heq ▸ hname)
        rw [hne hx, hne hy]

theorem SymbolTable.Respells.derives (ho : o.IgnoresTrivia) (h : t.Respells u) (id : TypeId) :
    (t.baseChain id).any (o.matchesBase t) = (u.baseChain id).any (o.matchesBase u) := by
  have hchain := h.baseChain id
  generalize t.baseChain id = rs, u.baseChain id = rs' at hchain
  induction hchain with
  | nil => rfl
  | cons hr _ ih => rw [List.any_cons, List.any_cons, ih, o.matchesBase_respells ho h.bare_eq hr]

end

/-- The sources have the same name, and wherever they stand, their trees are equivalent. -/
structure GeneratedSource.Alike (s s' : GeneratedSource) : Prop where
  hintName : s.hintName = s'.hintName
  tree : ∀ id id' path path',
    (SyntaxTree.parse id path s.text).isEquivalent (.parse id' path' s'.text) = true

/-! ## Candidates -/

/-- The candidates are declared at the same place in both compilations, with the same
    tokens. -/
structure Candidate.Respells (c c' : Compilation) (k k' : Candidate) : Prop where
  left : k ∈ c.classParts
  right : k' ∈ c'.classParts
  keys : c.SameKeys c' k.key k'.key
  declaration : k.declaration.Respells k'.declaration

namespace Compilation.Equivalent

variable {c c' : Compilation} (h : c.Equivalent c')
include h

/-- The classes of the sources stand at the same places. -/
theorem classParts : List.Forall₂ (Candidate.Respells c c') c.classParts c'.classParts := by
  have hmain : List.Forall₂ (fun k k' => c.SameKeys c' k.key k'.key ∧
      k.declaration.Respells k'.declaration) c.classParts c'.classParts := by
    have hsources : List.Forall₂ (fun t u => (t, u) ∈ c.sources.zip c'.sources) c.sources c'.sources :=
      List.forall₂_iff_zip.2 ⟨h.sources.length_eq, id⟩
    refine List.rel_flatMap hsources fun t u htu => ?_
    have hdeclared := (h.respells htu).2.declared
    have htypes : List.Forall₂ (fun d e => d.Respells e ∧
        (Declaration.type d, Declaration.type e) ∈ t.root.declared.zip u.root.declared)
        t.root.types u.root.types := by
      have hzip : List.Forall₂ (fun x y => x.Respells y ∧ (x, y) ∈ t.root.declared.zip u.root.declared)
          t.root.declared u.root.declared :=
        List.forall₂_iff_zip.2 ⟨hdeclared.length_eq, fun hp => ⟨List.forall₂_zip hdeclared hp, hp⟩⟩
      refine List.rel_filterMap (fun x y hxy => ?_) hzip
      obtain ⟨hr, hmem⟩ := hxy
      cases hr with
      | type hr => exact .some ⟨hr, hmem⟩
      | namespace_ => exact .none
      | delegate => exact .none
    rw [List.forall₂_map_left_iff, List.forall₂_map_right_iff]
    refine (List.rel_filter (fun d e hde => ?_) htypes).imp fun d e hde =>
      ⟨⟨_, htu, _, hde.2, rfl, rfl⟩, hde.1⟩
    simp [hde.1.kind_eq]
  rw [List.forall₂_iff_zip] at hmain ⊢
  refine ⟨hmain.1, fun hp => ?_⟩
  obtain ⟨hk, hd⟩ := hmain.2 hp
  exact ⟨(List.of_mem_zip hp).1, (List.of_mem_zip hp).2, hk, hd⟩

/-- The candidates stand at the same places, by whatever policies they are chosen. -/
theorem candidates (collected selected : CandidatePolicy) :
    List.Forall₂ (Candidate.Respells c c') (c.candidates collected selected)
      (c'.candidates collected selected) := by
  have hlast {as bs : List Candidate} (h : List.Forall₂ (Candidate.Respells c c') as bs) :
      List.Forall₂ (Candidate.Respells c c') as.getLast?.toList bs.getLast?.toList := by
    rw [← List.head?_reverse, ← List.head?_reverse]
    have h := List.forall₂_reverse_iff.2 h
    generalize as.reverse = as, bs.reverse = bs at h
    cases h with
    | nil => exact .nil
    | cons hk _ => exact .cons hk .nil
  have hcollected : List.Forall₂ (Candidate.Respells c c') (Candidate.ofVisits collected c.visits)
      (Candidate.ofVisits collected c'.visits) := by
    cases collected with
    | all =>
      rw [Candidate.ofVisits_eq, Candidate.ofVisits_eq, classes_eq h.isRead h.sources_nodup,
        classes_eq h.symm.isRead h.symm.sources_nodup]
      exact h.classParts
    | lastSeen =>
      have hkeyed {c : Compilation} (hread : ∀ t ∈ c.sources, t.IsRead)
          (hids : (c.sources.map SyntaxTree.id).Nodup) :
          Candidate.ofVisits .lastSeen c.visits = c.classParts.getLast?.toList := by
        rw [← Candidate.filterMap_visits]
        refine Candidate.ofVisits_lastSeen ?_
        rw [Candidate.filterMap_visits]
        exact isKeyed_of_isRead hread fun _ ht _ ht' => List.inj_on_of_nodup_map hids ht ht'
      rw [hkeyed h.isRead h.sources_nodup, hkeyed h.symm.isRead h.symm.sources_nodup]
      exact hlast h.classParts
  cases selected with
  | all => exact hcollected
  | lastSeen => exact hlast hcollected

end Compilation.Equivalent

theorem Compilation.exists_isModule_iff {c : Compilation} {o : Options} {k : Candidate} :
    (∃ s, c.IsModule o k s) ↔ ∃ s, c.symbolOf? k.key = some s ∧ s.isAbstract = false ∧
      s.accessibility = .public_ ∧ (c.table.baseChain s.id).any (o.matchesBase c.table) = true := by
  constructor
  · rintro ⟨s, hs⟩
    exact ⟨s, hs.symbolOf?, hs.concrete, hs.isPublic, Options.baseChain_any_iff.2 hs.derives⟩
  · rintro ⟨s, hs, hc, hp, hb⟩
    obtain ⟨hid, hget⟩ := symbolOf?_eq_some.1 hs
    exact ⟨s, hid, hget, hc, hp, Options.baseChain_any_iff.1 hb⟩

namespace Candidate.Respells

variable {c c' : Compilation} {k k' : Candidate} {o : Options} (h : c.Equivalent c')
  (hk : Respells c c' k k')
include h hk

/-- Their types are the same but for places and bases. -/
theorem symbol : (c.symbolOf? k.key).map TypeSymbol.bare = (c'.symbolOf? k'.key).map TypeSymbol.bare := by
  rw [Compilation.symbolOf?, Compilation.symbolOf?, h.lookup hk.keys]
  cases c'.symbols.declared.lookup k'.key with
  | none => rfl
  | some id =>
    show (c.table.get? id).map _ = (c'.table.get? id).map _
    rw [← SymbolTable.get?_bare, h.table.bare_eq, SymbolTable.get?_bare]

/-- **The candidates register alike.** -/
theorem registers_iff (ho : o.IgnoresTrivia) : c.Registers o k ↔ c'.Registers o k' := by
  have hderives := h.table.derives ho
  have main {c c' : Compilation} {k k' : Candidate}
      (hsymbol : (c.symbolOf? k.key).map TypeSymbol.bare = (c'.symbolOf? k'.key).map TypeSymbol.bare)
      (hderives : ∀ id, (c.table.baseChain id).any (o.matchesBase c.table) =
        (c'.table.baseChain id).any (o.matchesBase c'.table)) :
      (∃ s, c.IsModule o k s) → ∃ s, c'.IsModule o k' s := by
    rw [Compilation.exists_isModule_iff, Compilation.exists_isModule_iff]
    rintro ⟨s, hs, hc, hp, hb⟩
    rw [hs, Option.map_some, eq_comm, Option.map_eq_some_iff] at hsymbol
    obtain ⟨s', hs', hbare⟩ := hsymbol
    refine ⟨s', hs', ?_, ?_, ?_⟩
    · rw [← hc]
      exact (congrArg TypeSymbol.isAbstract hbare :)
    · rw [← hp]
      exact (congrArg TypeSymbol.accessibility hbare :)
    · rw [show s'.id = s.id from (congrArg TypeSymbol.id hbare :), ← hderives, hb]
  have hmarked {t : TypeDeclaration} :
      (∃ m ∈ t.methods, m.IsMarked o.marker) ↔ t.marked o.marker ≠ [] := by
    simp [TypeDeclaration.marked]
  have hmethods := (hk.declaration.marked ho.marker).length_eq
  rw [Compilation.Registers, Compilation.Registers, hmarked, hmarked, ← List.length_pos_iff,
    ← List.length_pos_iff, hmethods]
  exact and_congr_left fun _ =>
    ⟨main (hk.symbol h) hderives, main (hk.symbol h).symm fun id => (hderives id).symm⟩

/-- They are put into the same namespace. -/
theorem around_eq : o.namespaceAround? c k = o.namespaceAround? c' k' := by
  have hsymbol := hk.symbol h
  have hspaces := SymbolTable.namespaces_eq_of_bare h.table.bare_eq
  rw [Options.namespaceAround?, Options.namespaceAround?, hspaces]
  generalize c.symbolOf? k.key = s?, c'.symbolOf? k'.key = s?' at hsymbol
  cases s? <;> cases s?' <;> simp only [Option.map_none, Option.map_some, reduceCtorEq,
    Option.some.injEq] at hsymbol
  · rfl
  · rename_i s s'
    have hspace : s.namespace_ = s'.namespace_ := (congrArg TypeSymbol.namespace_ hsymbol :)
    simp only [Option.bind_eq_bind, Option.bind_some, hspace]

/-- **Their sources** have the same name and equivalent trees. -/
theorem registration (ho : o.IgnoresTrivia) (hw : c.table.HasWords) (hr : c.Registers o k) :
    (o.registration c k).Alike (o.registration c' k') := by
  obtain ⟨t, ht, hd, hclass, -⟩ := Compilation.mem_classParts hk.left
  obtain ⟨hwritten, hmethods⟩ := (h.isRead t ht).isWritten hd
  have hcommands : ∀ x ∈ k.declaration.marked o.marker, x.IsWritten := by
    intro x hx
    obtain ⟨m, hm, rfl⟩ := List.mem_map.1 hx
    exact (hmethods m (List.mem_of_mem_filter hm)).command o.marker
  obtain ⟨s, hs⟩ := hr.1
  have haround : ∀ name, o.namespaceAround? c k = some name →
      ∃ ts, Spells s!"namespace {name}".toList ts := by
    intro name hname
    have hpath := @wrappingPath_words c o s hw
    rw [namespaceAround?_eq hs hw] at hname
    cases hp : o.wrappingPath c s with
    | nil => simp [hp] at hname
    | cons p path =>
      rw [hp] at hname hpath
      exact ⟨_, spells_namespace (Option.some_inj.1 hname).symm hpath⟩
  refine ⟨?_, fun id id' path path' => ?_⟩
  · show k.declaration.name.value ++ _ ++ _ = k'.declaration.name.value ++ _ ++ _
    rw [value_eq_of_erase (TypeDeclaration.head_of_erase hk.declaration.erase_eq).2.2.1]
  · rw [registration_text, registration_text, ← hk.around_eq h]
    exact hk.declaration.fragment_isEquivalent ho.lines hclass hwritten
      (hk.declaration.marked ho.marker) hcommands haround id id' path path'

end Candidate.Respells

/-! ## Runs -/

namespace GeneratedSource.Alike

/-- Sources that are offered in turn to sets of sources that are alike. -/
theorem foldl_offer {gs gs' : List GeneratedSource} (h : List.Forall₂ Alike gs gs')
    {s s' : SourceSet} (hs : List.Forall₂ Alike s.sources s'.sources) :
    List.Forall₂ Alike (gs.foldl SourceSet.offer s).sources (gs'.foldl SourceSet.offer s').sources := by
  induction h generalizing s s' with
  | nil => exact hs
  | @cons g g' gs gs' hg _ ih =>
    refine ih ?_
    have hnames : s.hintNames = s'.hintNames := by
      rw [SourceSet.hintNames, SourceSet.hintNames, ← List.forall₂_eq_eq_eq,
        List.forall₂_map_left_iff, List.forall₂_map_right_iff]
      exact hs.imp fun _ _ hg => hg.hintName
    rw [SourceSet.offer, SourceSet.offer, SourceSet.holds, SourceSet.holds, hnames, hg.hintName]
    split
    · exact List.rel_append hs (.cons hg .nil)
    · exact hs

/-- Their trees are equivalent, whatever ids they are given. -/
theorem readSources {gs gs' : List GeneratedSource} (h : List.Forall₂ Alike gs gs') (name : String)
    (id id' : Nat) : List.Forall₂ (fun g g' => g.source.hintName = g'.source.hintName ∧
      g.tree.isEquivalent g'.tree = true) (readSources name id gs) (readSources name id' gs') := by
  induction h generalizing id id' with
  | nil => exact .nil
  | cons hg _ ih => exact .cons ⟨hg.hintName, hg.tree _ _ _ _⟩ (ih (id + 1) (id' + 1))

end GeneratedSource.Alike

/-- The sources of a run are those that are offered for its candidates. -/
theorem moduleGenerator_sources_eq (c : Compilation) (o : Options) :
    ((moduleGenerator o).run c).sources =
      (((c.candidates o.candidates (o.override c.settings).candidates).filter
        fun k => c.Registers (o.override c.settings) k).map
          ((o.override c.settings).registration c)).foldl SourceSet.offer .empty :=
  (Options.foldl_process c (o.override c.settings) _ (.start Setup.start)).1

/-- **What is generated does not depend on blanks and comments**: if the sources are free of
    errors and equivalent tree by tree, the references and settings are the same, and so are
    the options, in which nothing is compared with a text that may be written in several ways
    and nothing reaches into other lines, then the sources that a run adds have the same names,
    in the same order, and equivalent trees. -/
theorem generation_ignores_trivia (c c' : Compilation) (o : Options) (h : c.Equivalent c')
    (ho : (o.override c.settings).IgnoresTrivia)
    (hparsed : ∀ r ∈ c.references, ∀ t ∈ r.trees, t.IsParsed) :
    let added (c : Compilation) := (runGenerators [moduleGenerator o] c).flatMap GeneratorResult.sources
    (added c).map (fun g => g.source.hintName) = (added c').map (fun g => g.source.hintName) ∧
      List.Forall₂ (fun g g' => g.tree.isEquivalent g'.tree = true) (added c) (added c') := by
  intro added
  have htrees : ∀ t ∈ c.trees, t.IsParsed := List.forall_mem_append.2
    ⟨fun t ht => (h.isRead t ht).1, fun t ht => by
      obtain ⟨r, hr, ht⟩ := List.mem_flatMap.1 ht
      exact hparsed r hr t ht⟩
  have hsources : List.Forall₂ GeneratedSource.Alike ((moduleGenerator o).run c).sources.sources
      ((moduleGenerator o).run c').sources.sources := by
    rw [moduleGenerator_sources_eq, moduleGenerator_sources_eq, ← h.settings]
    refine GeneratedSource.Alike.foldl_offer ?_ .nil
    have hregister := List.rel_filter (p := fun k => decide (c.Registers (o.override c.settings) k))
      (q := fun k => decide (c'.Registers (o.override c.settings) k))
      (fun k k' hk => by simpa using hk.registers_iff h ho)
      (h.candidates o.candidates (o.override c.settings).candidates)
    rw [List.forall₂_map_left_iff, List.forall₂_map_right_iff]
    rw [List.forall₂_iff_zip] at hregister ⊢
    refine ⟨hregister.1, fun hp => (hregister.2 hp).registration h ho (c.hasWords htrees) ?_⟩
    simpa using (List.mem_filter.1 (List.of_mem_zip hp).1).2
  have hadded : List.Forall₂ (fun g g' => g.source.hintName = g'.source.hintName ∧
      g.tree.isEquivalent g'.tree = true) (added c) (added c') := by
    simp only [added]
    rw [runGenerators_one _ _ rfl, runGenerators_one _ _ rfl, List.flatMap_singleton,
      List.flatMap_singleton]
    exact GeneratedSource.Alike.readSources hsources _ _ _
  refine ⟨?_, hadded.imp fun _ _ hg => hg.2⟩
  rw [← List.forall₂_eq_eq_eq, List.forall₂_map_left_iff, List.forall₂_map_right_iff]
  exact hadded.imp fun _ _ hg => hg.1

/-- Comments, line breaks and a line about nullable references change nothing but the text
    that is taken over. -/
theorem generation_ignores_trivia_echo :
    let c := Compilation.of [.parse 0 "Echo.cs"
      "public class Echo : ModuleBase \x7b [Command(\"e\" + N)] void Run(List<int> ns); \x7d"] [] .empty
    let c' := Compilation.of [.parse 5 "Echo.cs" <| "#nullable enable\npublic class/**/Echo:ModuleBase " ++
      "\x7b [Command (\"e\" // name\n + N)] void Run(List < int\n> ns); \x7d"] [] .empty
    let added (c : Compilation) :=
      (runGenerators [moduleGenerator .standard] c).flatMap GeneratorResult.sources
    (added c).map (fun g => g.source.hintName) = ["Echo.Generated.cs"] ∧
      (added c).map (fun g => g.source.hintName) = (added c').map (fun g => g.source.hintName) ∧
      List.Forall₂ (fun g g' => g.tree.isEquivalent g'.tree = true) (added c) (added c') := by
  intro c c' added
  have hequivalent : c.Equivalent c' := .one ⟨⟨_, _, _, rfl⟩, by decide +kernel⟩
    ⟨⟨_, _, _, rfl⟩, by decide +kernel⟩ (by decide +kernel) .empty
  have ho : Options.standard.IgnoresTrivia := {
    marker := .of_isName (by decide +kernel)
    baseType := fun _ => by decide +kernel
    lines := Options.FitsHost.leavesLines ⟨rfl, rfl, rfl, rfl⟩ }
  exact ⟨by decide +kernel, generation_ignores_trivia c c' .standard hequivalent ho nofun⟩

/-- An array that is called the base of modules is written in several ways; and a signature
    may open a comment, which ends in a comment that is taken over. -/
theorem generation_shows_trivia :
    let compile (text : String) := Compilation.of [.parse 0 "A.cs" text] [] .empty
    let added (o : Options) (c : Compilation) :=
      (runGenerators [moduleGenerator o] c).flatMap GeneratorResult.sources
    let array := compile "public class A : M[] \x7b [C] void R(); \x7d"
    let array' := compile "public class A : M [] \x7b [C] void R(); \x7d"
    let sum := compile "public class A : M \x7b [C(1 + 2)] void R(); \x7d"
    let sum' := compile "public class A : M \x7b [C(1 + /**/ 2)] void R(); \x7d"
    let o := { Options.standard with baseType := "M", marker := "C", indent := "" }
    let hasArray := { o with baseType := "M[]" }
    let opensComment := { o with hookSignature := "/*", collectionType := "I", builderType := "B" }
    IsWord o.marker .identifier ∧ array.Equivalent array' ∧ sum.Equivalent sum' ∧
      (added hasArray array).map (fun g => g.source.hintName) ≠
        (added hasArray array').map (fun g => g.source.hintName) ∧
      ∃ p ∈ (added opensComment sum).zip (added opensComment sum'),
        p.1.tree.isEquivalent p.2.tree = false := by
  intro compile added array array' sum sum' o hasArray opensComment
  have hequivalent {text text' : String} (h : (SyntaxTree.parse 0 "A.cs" text).errors = [])
      (h' : (SyntaxTree.parse 0 "A.cs" text').errors = [])
      (heq : (SyntaxTree.parse 0 "A.cs" text).isEquivalent (.parse 0 "A.cs" text') = true) :
      (compile text).Equivalent (compile text') :=
    .one ⟨⟨_, _, _, rfl⟩, h⟩ ⟨⟨_, _, _, rfl⟩, h'⟩ heq .empty
  refine ⟨.of_isName (by decide +kernel), ?_, ?_, ?_, ?_⟩
  · exact hequivalent (by decide +kernel) (by decide +kernel) (by decide +kernel)
  · exact hequivalent (by decide +kernel) (by decide +kernel) (by decide +kernel)
  · decide +kernel
  · decide +kernel

end CommandModules

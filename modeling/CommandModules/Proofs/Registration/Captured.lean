/-
  Command modules — bases and the sources of a run.

  Sources that are not put into the namespaces of their classes declare types in the global
  namespace.

  * `Compilation.IsStray`: the run brings this type into the global namespace;
  * `bases_kept`: the bases of all types stay as they are, if no name that is looked up for
    them is that of a stray; `base_captured`: else they may not.
-/
import CommandModules.Proofs.Compilation.Restated
import CommandModules.Proofs.Registration.Added

namespace CommandModules

/-! ## Sources in the global namespace -/

/-- The source of a class declares this type in the global namespace, and it is not that of
    the class. -/
def Compilation.IsStray (c : Compilation) (o : Options) (id : TypeId) : Prop :=
  ∃ k ∈ c.registered o, id = k.declaration.idIn [] ∧ c.symbols.declared.lookup k.key ≠ some id

/-- **A run leaves the bases of all types as they are**, if the names of commands are nested
    and no name that is looked up for a list of bases is that of a type which the run brings
    into the global namespace. -/
theorem bases_kept (c : Compilation) (h : c.IsFaultless)
    (hset : Options.standard.override c.settings = .standard)
    (hnested : ∀ k ∈ c.registered .standard, ∀ m ∈ k.declaration.methods, m.IsMarked "Command" →
      (m.command "Command").IsNested)
    (havoid : c.Avoids (c.IsStray .standard))
    (hrefs : ∀ r ∈ c.references, ∀ t ∈ r.trees, ∀ n ∈ t.fullNames, ¬ c.IsStray .standard n.id) :
    let updated := c.withResults (runGenerators [moduleGenerator .standard] c)
    ∀ id s, c.table.get? id = some s → ∃ s', updated.table.get? id = some s' ∧
      s'.base? = s.base? ∧ s'.interfaces = s.interfaces := by
  intro updated id s hs
  have htrees := generated_registered c .standard rfl hset
  have hgs : ∀ g ∈ generatedTrees (runGenerators [moduleGenerator .standard] c),
      ∃ path k, g.Supplements (c.IsStray .standard) c.sourceTable path k := by
    refine forall_of_forall₂ htrees fun k hk g hkg => ?_
    obtain ⟨i, rfl⟩ := hkg
    obtain ⟨s, n, s₀, hs, ht, hid⟩ := h.taken hk
    refine ⟨_, _, (h.supplements ⟨rfl, rfl, rfl, rfl⟩ hk hs ht ⟨nofun, hnested k hk⟩ ?_ ?_ i _).2⟩
    · exact Namespaces.mem_paths_of_path? c.sourceTable_root
    · by_cases hown : k.declaration.idIn [] = n.id
      · exact .inr hown
      · refine .inl ⟨⟨k, hk, rfl, fun hl => hown ?_⟩, rfl⟩
        rw [hid]
        exact (Option.some_inj.1 (hs.accepted.symm.trans hl)).symm
  obtain ⟨hgrows, -⟩ := Compilation.withSources_grows h.isParsed h.symbols hgs hrefs havoid
  obtain ⟨s', hs', hm⟩ := hgrows.old id s hs
  refine ⟨s', hs', ?_, ?_⟩ <;> rw [hm.alike]

theorem bases_kept_demo :
    (demoModule.withResults (runGenerators [moduleGenerator .standard] demoModule)).table.base?
      (.ofName "Demo.Foo") = some (.unresolved ⟨"ModuleBase", "ModuleBase", 0⟩) := by
  have hstray : ∀ id, demoModule.IsStray .standard id → id = .ofName "Foo" := by
    rintro id ⟨k, hk, rfl, -⟩
    have hall : ∀ k ∈ demoModule.classParts, k.declaration.idIn [] = .ofName "Foo" := by
      decide +kernel
    exact hall k ((demoModule.registered_sublist _).subset hk)
  have hbases : ∀ p ∈ demoModule.pending, p.usings.isEmpty = true ∧ ∀ type ∈ p.declaration.bases,
      ∀ name ∈ type.name?, ∀ part ∈ name.parts.head?, part.metadataName = "ModuleBase" := by
    decide +kernel
  have hglobal : demoModule.globalUsings.isEmpty = true := by decide +kernel
  have hne : TypeId.ofName "ModuleBase" ≠ .ofName "Foo" := by decide +kernel
  have havoid : demoModule.Avoids (demoModule.IsStray .standard) := by
    refine ⟨?_, fun p hp b hb => ?_, fun p hp type ht name hname => .of_head fun part hpart hs => ?_⟩
    · rw [List.isEmpty_iff.1 hglobal]
      exact List.forall_mem_nil _
    · rw [List.isEmpty_iff.1 (hbases p hp).1] at hb
      cases hb
    · rw [(hbases p hp).2 type ht name hname part hpart] at hs
      exact hne (hstray _ hs)
  obtain ⟨s, hs, hbase⟩ : ∃ s, demoModule.table.get? (.ofName "Demo.Foo") = some s ∧
      s.base? = some (.unresolved ⟨"ModuleBase", "ModuleBase", 0⟩) :=
    Option.bind_eq_some_iff.1 (by decide +kernel)
  obtain ⟨s', hs', hb, -⟩ := bases_kept demoModule demoModule_isFaultless rfl
    (fun k hk m hm _ => demoModule_nested k ((demoModule.registered_sublist _).subset hk) m hm)
    havoid nofun _ s hs
  rw [SymbolTable.base?, hs']
  exact hb.trans hbase

/-- A module in a namespace, and a class that derives from it. -/
def derivedModule : Compilation :=
  .of
    [.parse 0 "Foo.cs" <| "namespace Demo \x7b public partial class Foo : ModuleBase " ++
        "\x7b [Command] public void Run() \x7b \x7d \x7d \x7d",
      .parse 1 "Bar.cs" "using Demo; public partial class Bar : Foo \x7b \x7d"]
    [] .empty

/-- Sources with one part of the same class in the global namespace are declared alike. -/
theorem SourceUnit.HoldsPart.restates {t u : SyntaxTree} {k : TypeDeclaration}
    (hpath : t.path = u.path) (ht : t.root.HoldsPart [] k) (hu : u.root.HoldsPart [] k) :
    t.Restates u := by
  intro table table' n n' origin h
  have htus := ht.usings
  have huus := hu.usings
  obtain ⟨-, _, htm, p, rfl, hp⟩ := ht
  obtain ⟨-, _, hum, q, rfl, hq⟩ := hu
  have hs : Declaring.Restates ⟨table, .empty⟩ ⟨table', .empty⟩ := ⟨h, .refl _⟩
  have hw : Surroundings.Restates ⟨n, t, origin, Namespaces.root, []⟩
      ⟨n', u, origin, Namespaces.root, []⟩ := ⟨⟨rfl, rfl, .nil⟩, hpath⟩
  have hnames : p.name.value = q.name.value ∧ p.arity = q.arity :=
    NamePart.mk.inj (hp.namePart_eq.trans hq.namePart_eq.symm)
  have hbare : (Surroundings.ofType ⟨n, t, origin, Namespaces.root, []⟩ none p).bare =
      (Surroundings.ofType ⟨n', u, origin, Namespaces.root, []⟩ none q).bare := by
    simp only [Surroundings.ofType, Surroundings.newType, NewType.bare, hnames.1, hnames.2,
      hp.kind.trans hq.kind.symm, hp.flags.trans hq.flags.symm]
  obtain ⟨-, hdeclare⟩ := hs.declare hw hbare
  rw [← hp.declareType_eq, ← hq.declareType_eq] at hdeclare
  unfold declareTree
  rw [htus, huus, htm, hum]
  exact ⟨hdeclare.table, hdeclare.found⟩

/-- **The source of the only registered class** is declared like any other with a part of this
    class in the global namespace. -/
theorem Compilation.IsFaultless.restates_stray {c : Compilation} (h : c.IsFaultless)
    (hset : Options.standard.override c.settings = .standard) {k : Candidate}
    (hk : c.registered .standard = [k])
    (hnested : ∀ m ∈ k.declaration.methods, m.IsMarked "Command" → (m.command "Command").IsNested)
    {p : TypeDeclaration} (hp : p.IsPartOf k.declaration) :
    (c.withResults (runGenerators [moduleGenerator .standard] c)).Restates (c.withSources
      [⟨0, generatedPath "ModuleGenerator" (Options.standard.registration c k).hintName, "",
        ⟨[], [], [.type p], default⟩, [], []⟩]) := by
  have hgenerated := generated_registered c .standard rfl hset
  rw [hk] at hgenerated
  obtain ⟨g, rest, ⟨i, rfl⟩, hrest, hgs⟩ := List.forall₂_cons_left_iff.1 hgenerated
  obtain rfl := List.forall₂_nil_left_iff.1 hrest
  have hmem : k ∈ c.registered .standard := hk ▸ List.mem_singleton_self k
  obtain ⟨s, n, s₀, hs, -, -⟩ := h.taken hmem
  obtain ⟨hiff, hholds⟩ := registration_reads ⟨rfl, rfl, rfl, rfl⟩ h.isRead (c.hasWords h.isParsed)
    ((c.registered_sublist _).subset hmem) hs i _
  rw [Compilation.withResults, hgs]
  refine ⟨List.rel_append (List.forall₂_same.2 fun t _ => .refl t) (.cons ?_ .nil), rfl⟩
  exact (hholds (hiff.2 ⟨nofun, hnested⟩)).restates rfl ⟨rfl, _, rfl, _, rfl, hp⟩

/-- A part of a class `Foo`, without bases. -/
def strayFoo : TypeDeclaration where
  attributes := []
  modifiers := ⟨.ofList [.public_, .partial_], [⟨"public", default⟩, ⟨"partial", default⟩]⟩
  kind := .class_
  name := ⟨"Foo", default⟩
  typeParameters := []
  parameters? := none
  bases := []
  constraints := []
  members := [.method ⟨[], default, ⟨.predefined "void", "void", default⟩, none, ⟨"Run", default⟩,
    [], [], [], .none, default⟩]
  span := default

/-- A class may come to derive from the type that the run brings into the global
    namespace. -/
theorem base_captured :
    derivedModule.IsFaultless ∧
      (∀ k ∈ derivedModule.classParts, k.declaration.modifiers.flags.contains .partial_ = true) ∧
      derivedModule.table.base? (.ofName "Bar") = some (.named (.ofName "Demo.Foo")) ∧
      let updated := derivedModule.withResults
        (runGenerators [moduleGenerator .standard] derivedModule)
      updated.table.base? (.ofName "Bar") = some (.named (.ofName "Foo")) := by
  have hparsed : ∀ t ∈ derivedModule.trees, t.IsParsed :=
    List.forall_mem_cons.2 ⟨⟨_, _, _, rfl⟩, List.forall_mem_singleton.2 ⟨_, _, _, rfl⟩⟩
  -- all that is read off the sample, at once
  obtain ⟨hdiagnostics, hpartial, hbar, hone, hregistered⟩ : derivedModule.diagnostics = [] ∧
      (∀ k ∈ derivedModule.classParts, k.declaration.modifiers.flags.contains .partial_ = true) ∧
      derivedModule.table.base? (.ofName "Bar") = some (.named (.ofName "Demo.Foo")) ∧
      (derivedModule.registered .standard).length = 1 ∧
      ∀ k ∈ derivedModule.registered .standard,
        (k.declaration.modifiers.words.map Ident.name = ["public", "partial"] ∧
          k.declaration.modifiers.flags = .ofList [.public_, .partial_] ∧
          k.declaration.kind = .class_ ∧ k.declaration.name.name = "Foo" ∧
          k.declaration.parameterNames = []) ∧
        (Options.standard.registration derivedModule k).hintName = "Foo.Generated.cs" ∧
        ∀ m ∈ k.declaration.methods, m.IsMarked "Command" → (m.command "Command").IsNested := by
    decide +kernel
  have hfaultless : derivedModule.IsFaultless := ⟨hparsed, by decide +kernel, hdiagnostics⟩
  refine ⟨hfaultless, hpartial, hbar, ?_⟩
  obtain ⟨k, hk⟩ := List.length_eq_one_iff.1 hone
  obtain ⟨⟨hwords, hflags, hkind, hname, hparameters⟩, hhint, hnested⟩ :=
    hregistered k (hk ▸ List.mem_singleton_self k)
  have hpart : strayFoo.IsPartOf k.declaration :=
    ⟨hwords.symm, hflags.symm, hkind.symm, hname.symm, hparameters.symm, rfl, _, rfl⟩
  have hrestates := hfaultless.restates_stray rfl hk hnested hpart
  have hbase := congrArg (Option.bind · TypeSymbol.base?) (hrestates.table.symbol (.ofName "Bar"))
  rw [Option.bind_map, Option.bind_map, hhint] at hbase
  exact hbase.trans (by decide +kernel)

end CommandModules

/-
  Command modules — which generated sources can be read.

  A source takes over fragments of a text: modifiers, names, types, and the expressions
  that name commands.  All but these expressions are nested wherever they stand; and the
  name of a namespace is taken over without the `@` of its pieces.

  * `Method.isWritten_command`: what is taken over from a method spells tokens;
  * `run_sources`: each source of a run is that of one class;
  * `Candidate.IsReadable`: nothing stands in the way of reading the source of a class;
  * `registration_reads`: it is read just if this is so, and then it holds one more part
    of the class; `generated_source_parses` says this of all sources of a run.
-/
import CommandModules.Proofs.Compilation.Path
import CommandModules.Proofs.Registration.Complete
import CommandModules.Proofs.Registration.Fragment

namespace CommandModules

/-! ## Commands -/

theorem TypeSyntax.Written.spells {t : TypeSyntax} {ts : List Token} (h : t.Written ts) :
    Nested (tokensOf t.text) ∧ Spells t.text.toList (tokensOf t.text) := by
  obtain ⟨hn, -, hs⟩ := h
  rw [hs.tokensOf_eq]
  exact ⟨nested_erase.2 hn.nested, hs⟩

theorem ExprSyntax.Written.spells {e : ExprSyntax} {ts : List Token} (h : e.Written ts) :
    Keeps (tokensOf e.text) ∧ Spells e.text.toList (tokensOf e.text) := by
  obtain ⟨hk, hs⟩ := h
  rw [hs.tokensOf_eq]
  exact ⟨hk.erase, hs⟩

/-- **What is taken over from a method spells tokens.** -/
theorem Method.IsWritten.command {m : Method} (h : m.IsWritten) (marker : String) :
    (m.command marker).IsWritten where
  name n hn := by
    obtain ⟨e, he, rfl⟩ := Option.map_eq_some_iff.1 hn
    obtain ⟨x, hx, he⟩ := Option.bind_eq_some_iff.1 he
    obtain ⟨a, ha, hx⟩ := Option.bind_eq_some_iff.1 hx
    obtain ⟨s, hs, ha⟩ := List.mem_flatMap.1 (List.mem_of_find?_eq_some ha)
    obtain ⟨ts, hts⟩ := h.attributes s hs a ha x (List.mem_of_head? hx) e he
    exact hts.spells
  types type ht := by
    obtain ⟨p, hp, rfl⟩ := List.mem_map.1 ht
    obtain ⟨ts, hts⟩ := h.parameters p hp
    exact hts.spells

/-- What is registered for the methods of a declaration that carry the marker. -/
def TypeDeclaration.marked (t : TypeDeclaration) (marker : String) : List Command :=
  (t.methods.filter fun m => m.IsMarked marker).map (Method.command marker)

/-! ## Runs -/

theorem Compilation.of_eq (c : Compilation) : .of c.sources c.references c.settings = c := by
  obtain ⟨_, _, _, _, rfl⟩ := c
  rfl

theorem Compilation.withSources_nil (c : Compilation) : c.withSources [] = c := by
  rw [withSources, List.append_nil, of_eq]

/-- A generator that adds nothing in its setup sees the compilation as it is. -/
theorem runGenerators_one (g : Generator) (c : Compilation) (h : g.setup.sources.sources = []) :
    runGenerators [g] c =
      [g.result (g.run c) (readSources g.name c.freshId (g.run c).sources.sources)] := by
  have hc : c.withSetups [g] = c := by
    simp [Compilation.withSetups, readAll, readSources, h, Compilation.withSources_nil]
  simp [runGenerators, hc, readAll]

theorem mem_readSources {name : String} {id : Nat} {sources : List GeneratedSource}
    {g : GeneratedTree} (h : g ∈ readSources name id sources) : g.source ∈ sources ∧
      ∃ id, g.tree = .parse id (generatedPath name g.source.hintName) g.source.text := by
  induction sources generalizing id with
  | nil => cases h
  | cons s sources ih =>
    rcases List.mem_cons.1 h with rfl | h
    · exact ⟨List.mem_cons_self, id, rfl⟩
    · obtain ⟨hm, hp⟩ := ih h
      exact ⟨List.mem_cons_of_mem _ hm, hp⟩

namespace Candidate

/-- Only classes that were shown are candidates. -/
theorem mem_ofVisits {policy : CandidatePolicy} {vs : List Visit} {k : Candidate}
    (h : k ∈ ofVisits policy vs) : k ∈ vs.filterMap ofVisit? := by
  have main (seen : List Candidate) : k ∈ vs.foldl (collect policy) seen →
      k ∈ seen ∨ k ∈ vs.filterMap ofVisit? := by
    clear h
    induction vs generalizing seen with
    | nil => exact .inl
    | cons v vs ih =>
      intro h
      rw [List.filterMap_cons]
      rcases ih _ h with h | h
      · unfold collect at h
        cases hv : ofVisit? v with
        | none => exact .inl (by simpa [hv] using h)
        | some k' =>
          rw [hv] at h
          unfold add at h
          dsimp only at h
          split at h
          · exact .inl h
          · cases policy with
            | all =>
              rcases List.mem_append.1 h with h | h
              · exact .inl h
              · exact .inr (List.mem_cons.2 (.inl (List.mem_singleton.1 h)))
            | lastSeen => exact .inr (List.mem_cons.2 (.inl (List.mem_singleton.1 h)))
      · right
        cases ofVisit? v with
        | none => exact h
        | some k' => exact List.mem_cons_of_mem _ h
  exact (main [] h).resolve_left List.not_mem_nil

theorem filterMap_visits (c : Compilation) : c.visits.filterMap ofVisit? = c.classParts := by
  rw [Compilation.visits, List.filterMap_flatMap, Compilation.classParts]
  congr 1
  exact funext visits_filterMap

end Candidate

theorem CandidatePolicy.mem_select {policy : CandidatePolicy} {ks : List Candidate} {k : Candidate}
    (h : k ∈ policy.select ks) : k ∈ ks := by
  cases policy with
  | all => exact h
  | lastSeen => exact List.mem_of_getLast? (Option.mem_toList.1 h)

theorem SourceSet.kept_subset {ss : List GeneratedSource} {s : GeneratedSource} (h : s ∈ kept ss) :
    s ∈ ss :=
  List.mem_of_mem_filter ((eraseDupsBy_sublist _ _).subset h)

/-- **Each source of a run is that of one class**, whatever candidates are asked for. -/
theorem run_sources (c : Compilation) (o : Options) {s : GeneratedSource}
    (h : s ∈ ((moduleGenerator o).run c).sources.sources) :
    ∃ k ∈ c.classParts, c.Registers (o.override c.settings) k ∧
      s = (o.override c.settings).registration c k := by
  have hrun : ((moduleGenerator o).run c).sources.sources = SourceSet.kept _ :=
    (congrArg SourceSet.sources (Options.foldl_process c (o.override c.settings) _
      (.start Setup.start)).1).trans (SourceSet.foldl_offer _)
  rw [hrun] at h
  obtain ⟨k, hk, rfl⟩ := List.mem_map.1 (SourceSet.kept_subset h)
  obtain ⟨hk, hr⟩ := List.mem_filter.1 hk
  refine ⟨k, ?_, by simpa using hr, rfl⟩
  rw [← Candidate.filterMap_visits]
  exact Candidate.mem_ofVisits (CandidatePolicy.mem_select hk)

/-! ## Sources -/

theorem Options.FitsHost.override {o : Options} (h : o.FitsHost) (s : Settings) :
    (o.override s).FitsHost :=
  ⟨h.hookSignature, h.collectionType, h.builderType, h.indent⟩

/-- The paths of the namespace that a class is put into: none, if its source is not put into
    a namespace. -/
def Options.wrappingPath (o : Options) (c : Compilation) (s : TypeSymbol) : List String :=
  if o.wrapInNamespace then c.table.namespaces.path s.namespace_ else []

/-- No piece of the namespace is a reserved word, and the expressions that name commands are
    nested. -/
structure Candidate.IsReadable (k : Candidate) (o : Options) (c : Compilation) (s : TypeSymbol) :
    Prop where
  path : ∀ q ∈ o.wrappingPath c s, wordKind q = .identifier
  commands : ∀ m ∈ k.declaration.methods, m.IsMarked o.marker → (m.command o.marker).IsNested

theorem isEmpty_intercalate {p : String} {path : List String} (h : p ≠ "") :
    (".".intercalate (p :: path)).isEmpty = false := by
  rw [← Bool.not_eq_true, String.isEmpty_iff]
  cases path with
  | nil => simpa using h
  | cons q path =>
    rw [String.intercalate_cons_cons]
    simp [String.append_eq_empty_iff, h]

section
variable {c : Compilation} {o : Options} {k : Candidate} {s : TypeSymbol}

theorem wrappingPath_words (hw : c.table.HasWords) :
    ∀ q ∈ o.wrappingPath c s, IsWord q (wordKind q) := by
  unfold Options.wrappingPath Namespaces.path
  split
  · cases hp : c.table.namespaces.path? s.namespace_ with
    | none => nofun
    | some path => exact fun q hq => .of_hasWordChars (hw path (Namespaces.mem_paths_of_path? hp) q hq)
  · nofun

/-- The namespace that the source of a module is put into. -/
theorem namespaceAround?_eq (h : c.IsModule o k s) (hw : c.table.HasWords) :
    o.namespaceAround? c k = match o.wrappingPath c s with
      | [] => none
      | p :: path => some (".".intercalate (p :: path)) := by
  have hpath := @wrappingPath_words c o s hw
  unfold Options.namespaceAround? Namespaces.dotted
  unfold Options.wrappingPath at hpath ⊢
  rw [h.symbolOf?, Option.bind_eq_bind, Option.bind_some]
  cases ho : o.wrapInNamespace with
  | false => rfl
  | true =>
    rw [ho] at hpath
    cases hp : c.table.namespaces.path s.namespace_ with
    | nil => rfl
    | cons p path =>
      have hne : p ≠ "" := by
        rintro rfl
        exact (hpath "" (by simp [hp])).ne_nil rfl
      simp [isEmpty_intercalate hne]

end

/-- The text holds one more part of the class, in the namespace with this path, and nothing
    else. -/
def SourceUnit.HoldsPart (u : SourceUnit) (path : List String) (t : TypeDeclaration) : Prop :=
  match path with
  | [] => u.Holds fun d => ∃ p, d = .type p ∧ p.IsPartOf t
  | _ :: _ => u.Holds fun d => ∃ n, d = .namespace_ n ∧ n.Holds path fun p => p.IsPartOf t

theorem TypeDeclaration.IsPartOf.declared {p t : TypeDeclaration} (h : p.IsPartOf t) :
    p.declared = [.type p] := by
  obtain ⟨m, hm⟩ := h.members
  rw [declared_eq, hm]
  rfl

theorem SourceUnit.HoldsPart.declared {u : SourceUnit} {path : List String} {t : TypeDeclaration}
    (h : u.HoldsPart path t) : ∃ p, u.declared = [.type p] ∧ p.IsPartOf t := by
  cases path with
  | nil =>
    obtain ⟨-, _, hm, p, rfl, hp⟩ := h
    refine ⟨p, ?_, hp⟩
    rw [SourceUnit.declared, hm]
    exact congrArg (· ++ []) hp.declared
  | cons q path =>
    obtain ⟨-, _, hm, n, rfl, -, -, p, hn, hp⟩ := h
    refine ⟨p, ?_, hp⟩
    have hdeclared : n.declared = [.type p] := by
      rw [NamespaceDeclaration.declared_eq, hn]
      exact congrArg (· ++ []) hp.declared
    rw [SourceUnit.declared, hm]
    exact congrArg (· ++ []) hdeclared

theorem registration_text (o : Options) (c : Compilation) (k : Candidate) :
    (o.registration c k).text = k.declaration.fragment (k.declaration.marked o.marker) o
      (o.namespaceAround? c k) :=
  rfl

section
variable {c : Compilation} {o : Options} {k : Candidate} {s : TypeSymbol}
  (ho : o.FitsHost) (hread : ∀ t ∈ c.sources, t.IsRead) (hw : c.table.HasWords)
  (hk : k ∈ c.classParts) (hs : c.IsModule o k s)
include ho hread hw hk hs

/-- **The source of a class is read just if it is readable**, and then it holds one more
    part of the class. -/
theorem registration_reads (id : Nat) (file : String) :
    let tree := SyntaxTree.parse id file (o.registration c k).text
    (tree.errors = [] ↔ k.IsReadable o c s) ∧
      (tree.errors = [] → tree.root.HoldsPart (o.wrappingPath c s) k.declaration) := by
  obtain ⟨t, ht, hd, hclass, -⟩ := Compilation.mem_classParts hk
  obtain ⟨hwritten, hmethods⟩ := (hread t ht).isWritten hd
  have hcs : ∀ x ∈ k.declaration.marked o.marker, x.IsWritten := by
    intro x hx
    obtain ⟨m, hm, rfl⟩ := List.mem_map.1 hx
    exact (hmethods m (List.mem_of_mem_filter hm)).command o.marker
  have hnested : (∀ x ∈ k.declaration.marked o.marker, x.IsNested) ↔
      ∀ m ∈ k.declaration.methods, m.IsMarked o.marker → (m.command o.marker).IsNested := by
    simp only [TypeDeclaration.marked, List.forall_mem_map, List.mem_filter, decide_eq_true_eq, and_imp]
  have haround := namespaceAround?_eq hs hw
  have hpath : ∀ q ∈ o.wrappingPath c s, IsWord q (wordKind q) := wrappingPath_words hw
  rw [registration_text, haround]
  cases hp : o.wrappingPath c s with
  | nil =>
    obtain ⟨hiff, hholds⟩ := TypeDeclaration.fragment_parses ho hclass hwritten hcs id file
    refine ⟨hiff.trans (hnested.trans ⟨fun h => ⟨by simp [hp], h⟩, fun h => h.commands⟩), hholds⟩
  | cons p path =>
    obtain ⟨hiff, hholds⟩ :=
      TypeDeclaration.fragment_parses_in ho hclass hwritten hcs id file (hp ▸ hpath)
    refine ⟨hiff.trans ((and_congr_right fun _ => hnested).trans ?_), hholds⟩
    rw [← hp]
    exact ⟨fun h => ⟨h.1, h.2⟩, fun h => ⟨h.path, h.commands⟩⟩

end

/-- **What can be read of the sources of a run**: the source of a class is read just if its
    name puts no reserved word into the name of a namespace and the expressions that name
    its commands are nested; else the source is reported.  What is read declares one type,
    which is one more part of the class, with one method. -/
theorem generated_source_parses (c : Compilation) (o : Options) (ho : o.FitsHost)
    (hread : ∀ t ∈ c.sources, t.IsRead)
    (hparsed : ∀ r ∈ c.references, ∀ t ∈ r.trees, t.IsParsed) :
    ∀ r ∈ runGenerators [moduleGenerator o] c, ∀ g ∈ r.sources,
      ∃ k ∈ c.classParts, ∃ s, c.IsModule (o.override c.settings) k s ∧
        (g.tree.errors = [] ↔ k.IsReadable (o.override c.settings) c s) ∧
        (g.diagnostic? r.generator = none ↔ k.IsReadable (o.override c.settings) c s) ∧
        (k.IsReadable (o.override c.settings) c s →
          ∃ p, g.tree.root.declared = [.type p] ∧ p.IsPartOf k.declaration) := by
  have htrees : ∀ t ∈ c.trees, t.IsParsed := List.forall_mem_append.2
    ⟨fun t ht => (hread t ht).1, fun t ht => by
      obtain ⟨r, hr, ht⟩ := List.mem_flatMap.1 ht
      exact hparsed r hr t ht⟩
  rw [runGenerators_one _ _ rfl]
  rintro _ hr g hg
  obtain rfl := List.mem_singleton.1 hr
  obtain ⟨hsource, id, htree⟩ := mem_readSources hg
  obtain ⟨k, hk, ⟨⟨s, hs⟩, -⟩, hreg⟩ := run_sources c o hsource
  obtain ⟨hiff, hholds⟩ := registration_reads (ho.override c.settings) hread (c.hasWords htrees) hk hs
    id (generatedPath (moduleGenerator o).name g.source.hintName)
  rw [← hreg, ← htree] at hiff hholds
  have hdiag : ∀ name, g.diagnostic? name = none ↔ g.tree.errors = [] := by
    simp [GeneratedTree.diagnostic?]
  exact ⟨k, hk, s, hs, hiff, (hdiag _).trans hiff, fun h => (hholds (hiff.2 h)).declared⟩

theorem generated_source_parses_echo :
    let c := Compilation.of
      [.parse 0 "Echo.cs" <| "public partial class Echo : ModuleBase \x7b " ++
        "[Command(\"echo\")] public void Run(string text) \x7b \x7d \x7d"] [] .empty
    ∀ r ∈ runGenerators [moduleGenerator .standard] c, ∀ g ∈ r.sources, g.tree.errors = [] := by
  intro c r hr g hg
  have hread : ∀ t ∈ c.sources, t.IsRead :=
    List.forall_mem_singleton.2 ⟨⟨_, _, _, rfl⟩, by decide +kernel⟩
  have hnested : ∀ k ∈ c.classParts, ∀ m ∈ k.declaration.methods,
      (m.command Options.standard.marker).IsNested := by decide +kernel
  obtain ⟨k, hk, s, -, hiff, -⟩ := generated_source_parses c .standard ⟨rfl, rfl, rfl, rfl⟩ hread
    nofun r hr g hg
  exact hiff.2 ⟨nofun, fun m hm _ => hnested k hk m hm⟩

end CommandModules

/-
  Command modules — sources that hold one more part of a type.

  * `declareTree_part`: going through a source that holds one part of a type is declaring it;
  * `SyntaxTree.Supplements`: the source holds one more part of a type of a table, or a type
    that is a stray;
  * `Grows.declareTrees`: declaring such sources adds the keys of those that are accepted;
    `Grows.declareTrees_accepted`: all are, if the types admit them.
-/
import CommandModules.Proofs.Compilation.Table
import CommandModules.Proofs.Registration.Readable
import CommandModules.Proofs.Symbol.Grows

namespace CommandModules

/-! ## One part -/

section
variable {p k : TypeDeclaration} {tree : SyntaxTree} {path : List String} {u : SymbolTable}

theorem TypeDeclaration.IsPartOf.namePart_eq (h : p.IsPartOf k) : p.namePart = k.namePart := by
  have hname : p.name.value = k.name.value := by
    unfold Ident.value
    rw [h.name]
  have harity : p.arity = k.arity := by
    have := congrArg List.length h.parameterNames
    simpa [TypeDeclaration.parameterNames, arity] using this
  rw [namePart, namePart, hname, harity]

/-- A type with a method and without bases is declared in one step. -/
theorem TypeDeclaration.IsPartOf.declareType_eq (h : p.IsPartOf k) (w : Surroundings)
    (s : Declaring) : declareType w none s p = (s.declare w (w.ofType none p)).2 := by
  obtain ⟨m, hm⟩ := h.members
  rw [CommandModules.declareType_eq, hm]
  cases hd : s.declare w (w.ofType none p) with
  | mk id? s' =>
    cases id? with
    | none => rfl
    | some id =>
      simp only [Declaring.putAside, h.bases, List.isEmpty_nil, if_pos]
      rfl

theorem SourceUnit.HoldsPart.usings {r : SourceUnit} (h : r.HoldsPart path k) : r.usings = [] := by
  cases path <;> exact h.usings

/-- **Going through a source that holds one part** is declaring it in its namespace, if that
    is there. -/
theorem declareTree_part (h : tree.root.HoldsPart path k) (m : Nat)
    (hroot : u.namespaces.path? Namespaces.root = some []) (hclosed : u.namespaces.IsClosed)
    (hpath : path ∈ u.namespaces.paths) (hwords : ∀ q ∈ path, hasWordChars q = true) :
    ∃ p n, p.IsPartOf k ∧ u.namespaces.path? n = some path ∧ (path = [] → n = Namespaces.root) ∧
      let w : Surroundings := ⟨m, tree, .source, n, []⟩
      let s := ((Declaring.mk u .empty).declare w (w.ofType none p)).2
      declareTree u m tree .source = (s.table, s.found) := by
  have hus := h.usings
  cases path with
  | nil =>
    obtain ⟨-, _, hm, p, rfl, hp⟩ := h
    refine ⟨p, Namespaces.root, hp, hroot, fun _ => rfl, ?_⟩
    unfold declareTree
    rw [hus, hm]
    have := hp.declareType_eq ⟨m, tree, .source, Namespaces.root, []⟩ ⟨u, .empty⟩
    exact congrArg (fun s : Declaring => (s.table, s.found)) this
  | cons q names =>
    obtain ⟨-, _, hm, d, rfl, hname, hdus, p, hdm, hp⟩ := h
    -- the pieces of the name are written as they are meant
    have hpathname : d.name.path = q :: names := by
      rw [← hname] at hwords ⊢
      refine List.map_congr_left fun i hi => Ident.value_of_hasWordChars (hwords _ ?_)
      exact List.mem_map_of_mem hi
    have hself := Namespaces.createPath_self hclosed hroot (by simpa using hpath)
    have hinner : (u.namespaces.createPath Namespaces.root (q :: names)).1.path? _ =
        some ([] ++ q :: names) := Namespaces.createPath_path? hroot
    generalize hn : (u.namespaces.createPath Namespaces.root (q :: names)).2 = n at hinner
    rw [hself] at hinner
    refine ⟨p, n, hp, hinner, nofun, ?_⟩
    have henter : (Declaring.mk u .empty).enterNamespace Namespaces.root d.name.path =
        (⟨u, .empty⟩, n) := by
      have hcreate : u.namespaces.createPath Namespaces.root (q :: names) = (u.namespaces, n) :=
        Prod.ext hself hn
      simp only [Declaring.enterNamespace, hpathname, hcreate]
    unfold declareTree
    rw [hus, hm]
    have hdeclare : declareNamespace ⟨m, tree, .source, Namespaces.root, []⟩ ⟨u, .empty⟩ d =
        ((Declaring.mk u .empty).declare ⟨m, tree, .source, n, []⟩
          (Surroundings.ofType ⟨m, tree, .source, n, []⟩ none p)).2 := by
      rw [declareNamespace_eq, henter, hdus, hdm]
      exact hp.declareType_eq ⟨m, tree, .source, n, []⟩ ⟨u, .empty⟩
    exact congrArg (fun s : Declaring => (s.table, s.found)) hdeclare

end

/-! ## Parts of types -/

/-- The symbol has the modifiers of the part, and the accessibility that its modifiers
    spell. -/
structure TypeSymbol.Covers (s : TypeSymbol) (k : TypeDeclaration) : Prop where
  modifiers : ∀ x, k.modifiers.flags.contains x = true → s.modifiers.contains x = true
  access : s.modifiers.accessibility?.getD s.accessibility = s.accessibility

/-- The type may have the part too. -/
structure TypeSymbol.Admits (s : TypeSymbol) (k : TypeDeclaration) : Prop where
  isPartial : s.isPartial = true
  partial_ : k.modifiers.flags.contains .partial_ = true
  kind : s.kind = k.kind
  access : SymbolTable.conflict s.modifiers k.modifiers.flags = false

/-- The identity of a type with the name of `k` in the namespace with this path. -/
def TypeDeclaration.idIn (k : TypeDeclaration) (path : List String) : TypeId :=
  (FullName.top path k.namePart).id

/-- The source holds one part, named like `k`: of a type of the table, or of a stray in the
    global namespace. -/
structure SyntaxTree.Supplements (g : SyntaxTree) (strays : TypeId → Prop) (t : SymbolTable)
    (path : List String) (k : TypeDeclaration) : Prop where
  holds : g.root.HoldsPart path k
  space : path ∈ t.namespaces.paths
  part : (strays (k.idIn path) ∧ path = []) ∨ ∃ s, t.get? (k.idIn path) = some s ∧ s.Covers k

/-- A symbol that covers the modifiers of a part stays as it is, but for the declaration. -/
theorem TypeSymbol.Covers.merge_eq {s : TypeSymbol} {k : TypeDeclaration} {d : NewType}
    (h : s.Covers k) (hd : d.modifiers = k.modifiers.flags) :
    SymbolTable.merge s d = { s with declarations := s.declarations ++ [d.site] } := by
  have hunion : s.modifiers.union d.modifiers = s.modifiers :=
    Modifiers.union_eq fun x hx => h.modifiers x (hd ▸ hx)
  unfold SymbolTable.merge
  rw [hunion]
  dsimp only
  rw [h.access]

namespace SymbolTable.Grows

variable {strays : TypeId → Prop} {more : TypeId → List NodeKey} {t t' : SymbolTable}
  {g : SyntaxTree} {gs : List SyntaxTree} {path : List String} {k : TypeDeclaration} {s : TypeSymbol}

/-- The keys that were accepted for a type. -/
def keysOf (accepted : List (NodeKey × TypeId)) (id : TypeId) : List NodeKey :=
  (accepted.filter (·.2 = id)).map Prod.fst

theorem keysOf_append (as bs : List (NodeKey × TypeId)) (id : TypeId) :
    keysOf (as ++ bs) id = keysOf as id ++ keysOf bs id := by
  rw [keysOf, List.filter_append, List.map_append]
  rfl

theorem congr {more' : TypeId → List NodeKey} (h : Grows strays more t t')
    (hmore : ∀ id, more id = more' id) : Grows strays more' t t' := by
  obtain rfl : more = more' := funext hmore
  exact h

section
variable (hroot : t.namespaces.path? Namespaces.root = some []) (hclosed : t.namespaces.IsClosed)
  (hwords : t.HasWords)
include hroot hclosed hwords

/-- What a source with one part declares. -/
theorem declareTree_part (h : Grows strays more t t') (hg : g.root.HoldsPart path k)
    (hpath : path ∈ t.namespaces.paths) (m : Nat) :
    ∃ w d, d.modifiers = k.modifiers.flags ∧ d.kind = k.kind ∧ d.containing? = none ∧
      (path = [] → d.namespace_ = Namespaces.root) ∧ t'.idOf d = k.idIn path ∧ w.origin = .source ∧
      let s := ((Declaring.mk t' .empty).declare w d).2
      CommandModules.declareTree t' m g .source = (s.table, s.found) := by
  have hpaths : t'.namespaces.paths = t.namespaces.paths := h.paths
  obtain ⟨p, n, hp, hn, hnil, heq⟩ := CommandModules.declareTree_part hg m (u := t')
    (by rw [Namespaces.path?_congr hpaths, hroot]) (hclosed.of_paths hpaths) (hpaths ▸ hpath)
    (hwords _ hpath)
  have hname : ((⟨m, g, .source, n, []⟩ : Surroundings).ofType none p).IsNamed t'
    (.top path k.namePart) := ⟨hp.namePart_eq, hn, rfl⟩
  exact ⟨_, _, hp.flags, hp.kind, rfl, hnil, idOf_eq hname, rfl, heq⟩

/-- **A source with one part** adds its key, if it is accepted. -/
theorem declareTree (h : Grows strays more t t') (hg : g.Supplements strays t path k) (m : Nat) :
    let r := CommandModules.declareTree t' m g .source
    Grows strays (fun id => more id ++ keysOf r.2.accepted id) t r.1 ∧ r.2.pending = [] ∧
      r.2.globalUsings = [] := by
  intro r
  obtain ⟨w, d, hflags, hkind, hout, hnil, hid, hw, heq⟩ :=
    h.declareTree_part hroot hclosed hwords hg.holds hg.space m
  cases hd : t'.declare d with
  | error e =>
    have hr : r = (t', { TreeDeclarations.empty with diagnostics := [e.diagnostic w.tree.path] }) := by
      simp only [r, heq, Declaring.declare, hd, hw]
      rfl
    rw [hr]
    exact ⟨h.congr fun id => (List.append_nil _).symm, rfl, rfl⟩
  | ok res =>
    obtain ⟨id, u⟩ := res
    obtain rfl : id = k.idIn path := (declare_cases hd).1.trans hid
    have hr : r = (u, { TreeDeclarations.empty with accepted := [(d.site.key, k.idIn path)] }) := by
      simp only [r, heq, Declaring.declare, hd]
      rfl
    rw [hr]
    refine ⟨?_, rfl, rfl⟩
    refine (h.declare_right hroot hd hout (fun hnone => ?_) fun s' hs' hstray => ?_).congr fun j => ?_
    · obtain ⟨hstray, hp⟩ | ⟨s, hs, -⟩ := hg.part
      · exact ⟨hstray, hnil hp⟩
      · obtain ⟨s', hs', -⟩ := h.old _ s hs
        cases hnone.symm.trans hs'
    · obtain ⟨hs, -⟩ | ⟨s, hs, hcovers⟩ := hg.part
      · exact absurd hs hstray
      · obtain ⟨s'', hs'', hm⟩ := h.old _ s hs
        obtain rfl := Option.some_inj.1 (hs'.symm.trans hs'')
        have htwin := hm.twin hstray
        unfold TypeSymbol.Twin at htwin
        have hcovers' : s'.Covers k := by
          rw [htwin]
          exact ⟨hcovers.modifiers, hcovers.access⟩
        exact hcovers'.merge_eq hflags
    · by_cases hj : j = k.idIn path
      · simp [keysOf, hj]
      · simp [keysOf, hj, Ne.symm hj]

/-- A part that its type admits is accepted. -/
theorem declareTree_accepted (h : Grows strays more t t') (hg : g.Supplements strays t path k)
    (m : Nat) (hstray : ¬ strays (k.idIn path)) (hs : t.get? (k.idIn path) = some s)
    (hadm : s.Admits k) :
    let r := CommandModules.declareTree t' m g .source
    r.2.accepted.map Prod.snd = [k.idIn path] ∧ r.2.diagnostics = [] := by
  intro r
  obtain ⟨w, d, hflags, hkind, hout, hnil, hid, hw, heq⟩ :=
    h.declareTree_part hroot hclosed hwords hg.holds hg.space m
  obtain ⟨s', hs', hm⟩ := h.old _ s hs
  have hrefusal : refusal? s' d = none := by
    have htwin := hm.twin hstray
    unfold TypeSymbol.Twin at htwin
    rw [htwin, refusal?_eq_none, hflags, hkind]
    exact ⟨hadm.isPartial, hadm.partial_, hadm.kind, hadm.access⟩
  have hok := declare_eq_of_some (d := d) (hid ▸ hs')
  rw [hrefusal] at hok
  have hr : r.2 = { TreeDeclarations.empty with accepted := [(d.site.key, t'.idOf d)] } := by
    simp only [r, heq, Declaring.declare, hok]
    rfl
  rw [hr, hid]
  exact ⟨rfl, rfl⟩

/-- **Sources with one part each** add the keys of those that are accepted. -/
theorem declareTrees (h : Grows strays more t t')
    (hgs : ∀ g ∈ gs, ∃ path k, g.Supplements strays t path k) (m : Nat) :
    let r := CommandModules.declareTrees t' m (gs.map (·, Origin.source))
    Grows strays (fun id => more id ++ keysOf (r.2.flatMap fun f => f.2.accepted) id) t r.1 ∧
      (r.2.flatMap fun f => f.2.pending) = [] ∧ effectiveUsings r.2 = [] := by
  induction gs generalizing t' more m with
  | nil => exact ⟨h.congr fun id => (List.append_nil _).symm, rfl, rfl⟩
  | cons g gs ih =>
    obtain ⟨⟨path, k, hg⟩, hgs⟩ := List.forall_mem_cons.1 hgs
    obtain ⟨hgrows, hpending, husings⟩ := h.declareTree hroot hclosed hwords hg m
    obtain ⟨hrest, hpendings, hall⟩ := ih hgrows hgs (m + 1)
    refine ⟨hrest.congr fun id => ?_, congrArg₂ (· ++ ·) hpending hpendings,
      congrArg₂ (· ++ ·) husings hall⟩
    rw [List.append_assoc, ← keysOf_append]
    rfl

/-- **Parts that their types admit** are all accepted. -/
theorem declareTrees_accepted (h : Grows strays more t t')
    {parts : List (List String × TypeDeclaration)}
    (hgs : List.Forall₂ (fun g e => g.Supplements strays t e.1 e.2 ∧ ¬ strays (e.2.idIn e.1) ∧
      ∃ s, t.get? (e.2.idIn e.1) = some s ∧ s.Admits e.2) gs parts) (m : Nat) :
    let r := CommandModules.declareTrees t' m (gs.map (·, Origin.source))
    (r.2.flatMap fun f => f.2.accepted).map Prod.snd = parts.map (fun e => e.2.idIn e.1) ∧
      (r.2.flatMap fun f => f.2.diagnostics) = [] := by
  induction hgs generalizing t' more m with
  | nil => exact ⟨rfl, rfl⟩
  | cons hg _ ih =>
    obtain ⟨hg, hstray, s, hs, hadm⟩ := hg
    have hgrows := (h.declareTree hroot hclosed hwords hg m).1
    obtain ⟨hid, hd⟩ := h.declareTree_accepted hroot hclosed hwords hg m hstray hs hadm
    obtain ⟨hids, hds⟩ := ih hgrows (m + 1)
    exact ⟨List.map_append.trans (congrArg₂ (· ++ ·) hid hids), congrArg₂ (· ++ ·) hd hds⟩

end

end SymbolTable.Grows

end CommandModules

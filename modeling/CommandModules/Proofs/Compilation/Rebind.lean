/-
  Command modules — bases in a table with further declarations.

  Lists of bases are bound once in a table and once in the table with further declarations.

  * `SymbolTable.BindingAvoids`: no name that is looked up on the way is looked up in the
    global namespace under the name of a stray;
  * `GlobalUsings.of_grows`: the global using directives have the same effect then;
  * `PendingBases.bind_grows`: a list that is not ambiguous is bound to the same types;
  * `bindBases_grows`: so binding leaves the two tables as they are related.
-/
import CommandModules.Proofs.Compilation.Reference
import CommandModules.Proofs.Symbol.Imports
import CommandModules.Proofs.Symbol.Resolve

namespace CommandModules

variable {strays : TypeId → Prop} {more : TypeId → List NodeKey} {t t' : SymbolTable}
  {us : List Using} {name : Name} {n : Nat} {p p' : PendingBases} {ps ps' : List PendingBases}

/-- The scope of a namespace has nothing in it. -/
theorem Scope.IsProper.ofNamespace (n : Nat) (t : SymbolTable) : (Scope.ofNamespace n).IsProper t where
  containing _ h := by cases h
  aliases := List.forall_mem_nil _

/-! ## What is avoided -/

namespace SymbolTable

/-- The table with these namespaces imported everywhere. -/
def withGlobals (t : SymbolTable) (ns : List Nat) : SymbolTable :=
  { t with namespaces := { t.namespaces with globalUsings := ns } }

/-- Looked up in the scope, the name avoids strays. -/
def NameAvoids (strays : TypeId → Prop) (t : SymbolTable) (name : Name) (scope : Scope) : Prop :=
  Avoids strays t name.parts name.isGlobal scope

/-- A name avoids strays whose names it does not begin with. -/
theorem NameAvoids.of_head {scope : Scope}
    (h : ∀ part ∈ name.parts.head?, ¬ strays (.ofName part.metadataName)) :
    NameAvoids strays t name scope := by
  unfold NameAvoids Avoids
  split
  · trivial
  · rename_i first rest hparts
    exact .inl fun hc => h first (by rw [hparts]; rfl) hc.1

/-- The names that aliases stand for avoid strays, looked up in the namespace numbered `n`. -/
def AliasesAvoid (strays : TypeId → Prop) (t : SymbolTable) (n : Nat) (us : List Using) : Prop :=
  ∀ u ∈ us, u.alias?.isSome → NameAvoids strays t u.name (.ofNamespace n)

/-- The names that are looked up while bases are bound avoid strays. -/
structure BindingAvoids (strays : TypeId → Prop) (t : SymbolTable) (us : List Using)
    (ps : List PendingBases) : Prop where
  global : AliasesAvoid strays t Namespaces.root us
  aliases : ∀ p ∈ ps, ∀ b ∈ p.usings,
    AliasesAvoid strays t b.namespace_ (b.usings.filter Using.isLocal)
  bases : ∀ p ∈ ps, ∀ type ∈ p.declaration.bases, ∀ name, type.name? = some name →
    NameAvoids strays t name (p.scope (.of t us))

/-- Imports do not come before the global namespace. -/
theorem nameAvoids_withGlobals (ns : List Nat) {scope : Scope} :
    NameAvoids strays (t.withGlobals ns) name scope ↔ NameAvoids strays t name scope := by
  have hsame : t.SameTypes (t.withGlobals ns) := ⟨rfl, rfl, rfl⟩
  have henclosing := Namespaces.enclosing_congr hsame.paths scope.namespace_
  unfold NameAvoids Avoids FindsNearer Captures
  simp only [hsame.nestedAround?_eq, hsame.types, hsame.typeIn?_eq, henclosing]

theorem Sound.withGlobals (h : t.Sound) (ns : List Nat) : (t.withGlobals ns).Sound :=
  h.namespaces List.prefix_rfl fun _ _ => rfl

/-! ## Using directives -/

theorem Sound.usingNamespace?_ne_root (hs : t.Sound) (hne : name.segments ≠ []) {m : Nat}
    (h : t.usingNamespace? name n = some m) : m ≠ Namespaces.root := by
  have hpath : name.path ≠ [] := by
    rw [Name.path, ne_eq, List.map_eq_nil_iff]
    exact hne
  unfold usingNamespace? at h
  split at h
  · exact Namespaces.ne_root hs.root (Namespaces.find?_path? h) hpath
  · obtain ⟨k, -, hk⟩ := List.exists_of_findSome?_eq_some h
    exact Namespaces.descend?_ne_root hs.root hpath hk

/-- What aliases stand for is in the table. -/
theorem Sound.aliases_proper (hs : t.Sound) (hne : ∀ u ∈ us, u.name.segments ≠ []) :
    ∀ a ∈ t.aliases n us, a.2.IsProper t := by
  intro a ha
  obtain ⟨u, hu, ha⟩ := List.mem_filterMap.1 ha
  obtain ⟨i, -, ha⟩ := Option.bind_eq_some_iff.1 ha
  obtain ⟨place, hp, ha⟩ := Option.bind_eq_some_iff.1 ha
  obtain rfl := Option.some_inj.1 ha
  unfold aliasTarget? at hp
  split at hp
  · rename_i m hm
    obtain rfl := Option.some_inj.1 hp
    exact hs.usingNamespace?_ne_root (hne u hu) hm
  · obtain ⟨id, hid, rfl⟩ := Option.map_eq_some_iff.1 hp
    cases hr : t.resolveName u.name.parts u.name.isGlobal (.ofNamespace n) with
    | found id' =>
      rw [hr] at hid
      obtain rfl := Option.some_inj.1 hid
      exact hs.resolveName_knows (.ofNamespace n t) hr
    | ambiguous ms =>
      rw [hr] at hid
      cases hid
    | notFound =>
      rw [hr] at hid
      cases hid

/-- The namespace that a using directive names depends on the paths alone. -/
theorem usingNamespace?_congr (h : t'.namespaces.paths = t.namespaces.paths) :
    t'.usingNamespace? name n = t.usingNamespace? name n := by
  unfold usingNamespace?
  rw [Namespaces.find?_congr h, Namespaces.enclosing_congr h]
  simp only [Namespaces.descend?_congr h]

namespace Grows

variable (h : Grows strays more t t')
include h

theorem imports_eq : t'.imports n us = t.imports n us := by
  unfold imports
  simp only [usingNamespace?_congr h.paths]

theorem aliasTarget?_eq (hs : t.Sound) (hn : NameAvoids strays t name (.ofNamespace n)) :
    t'.aliasTarget? name n = t.aliasTarget? name n := by
  unfold aliasTarget?
  rw [usingNamespace?_congr h.paths, h.resolveName_eq hs (.ofNamespace n t) hn]

theorem aliases_eq (hs : t.Sound) (hn : AliasesAvoid strays t n us) :
    t'.aliases n us = t.aliases n us := by
  refine List.filterMap_congr fun u hu => ?_
  cases ha : u.alias? with
  | none => rfl
  | some i => simp only [h.aliasTarget?_eq hs (hn u hu (by rw [ha]; rfl))]

end Grows

end SymbolTable

namespace GlobalUsings

variable {g g' : GlobalUsings}

/-- Two tables in which the same is visible everywhere, one of them with more
    declarations. -/
structure Grows (strays : TypeId → Prop) (more : TypeId → List NodeKey) (g g' : GlobalUsings) :
    Prop where
  table : g.table.Grows strays more g'.table
  aliases : g'.aliases = g.aliases

/-- The table of `t` with some imports, and aliases of what is in it. -/
structure IsOver (g : GlobalUsings) (t : SymbolTable) : Prop where
  table : ∃ ns, g.table = t.withGlobals ns
  aliases : ∀ a ∈ g.aliases, a.2.IsProper g.table

theorem IsOver.add {u : Using} (h : g.IsOver t) (hs : t.Sound) (hne : u.name.segments ≠ []) :
    (g.add u).IsOver t := by
  obtain ⟨ns, hg⟩ := h.table
  unfold GlobalUsings.add
  split
  · exact h
  split
  · refine ⟨h.table, List.forall_mem_append.2 ⟨h.aliases, ?_⟩⟩
    rw [hg]
    exact (hs.withGlobals ns).aliases_proper (List.forall_mem_singleton.2 hne)
  · split
    · rename_i n _
      have hadd : ∃ ns, { g.table with namespaces := g.table.namespaces.addGlobalUsing n } =
          t.withGlobals ns := by
        rw [hg]
        unfold Namespaces.addGlobalUsing
        split <;> exact ⟨_, rfl⟩
      exact ⟨hadd, fun a ha => h.aliases a ha⟩
    · exact h

theorem isOver_of (hs : t.Sound) (hne : ∀ u ∈ us, u.name.segments ≠ []) : (of t us).IsOver t := by
  have main (g : GlobalUsings) (hg : g.IsOver t) : (us.foldl add g).IsOver t := by
    induction us generalizing g with
    | nil => exact hg
    | cons u us ih =>
      obtain ⟨hu, hus⟩ := List.forall_mem_cons.1 hne
      exact ih hus _ (hg.add hs hu)
  exact main _ ⟨⟨_, rfl⟩, nofun⟩

theorem Grows.add {u : Using} (h : g.Grows strays more g') (hg : g.IsOver t) (hs : t.Sound)
    (hn : u.alias?.isSome → t.NameAvoids strays u.name (.ofNamespace Namespaces.root)) :
    (g.add u).Grows strays more (g'.add u) := by
  obtain ⟨ns, hns⟩ := hg.table
  unfold GlobalUsings.add
  split
  · exact h
  cases ha : u.alias? with
  | some i =>
    refine ⟨h.table, congrArg₂ (· ++ ·) h.aliases (h.table.aliases_eq ?_ ?_)⟩
    · rw [hns]
      exact hs.withGlobals ns
    · rw [hns]
      refine List.forall_mem_singleton.2 fun _ => ?_
      exact (SymbolTable.nameAvoids_withGlobals ns).2 (hn (by rw [ha]; rfl))
  | none =>
    dsimp only
    rw [SymbolTable.usingNamespace?_congr h.table.paths]
    cases g.table.usingNamespace? u.name Namespaces.root with
    | none => exact h
    | some n => exact ⟨h.table.addGlobalUsing n, h.aliases⟩

/-- **Global using directives have the same effect** on a table with further
    declarations. -/
theorem of_grows (h : t.Grows strays more t') (hs : t.Sound) (hne : ∀ u ∈ us, u.name.segments ≠ [])
    (hn : t.AliasesAvoid strays Namespaces.root us) : (of t us).Grows strays more (of t' us) := by
  have main (g g' : GlobalUsings) (h : g.Grows strays more g') (hg : g.IsOver t) :
      (us.foldl add g).Grows strays more (us.foldl add g') := by
    induction us generalizing g g' with
    | nil => exact h
    | cons u us ih =>
      obtain ⟨hu, hus⟩ := List.forall_mem_cons.1 hne
      obtain ⟨hnu, hnus⟩ := List.forall_mem_cons.1 hn
      exact ih hus hnus _ _ (h.add hg hs hnu) (hg.add hs hu)
  exact main _ _ ⟨h, rfl⟩ ⟨⟨_, rfl⟩, nofun⟩

end GlobalUsings

/-! ## Lists of bases -/

/-- The types around a list of bases are in the table, and the using directives around it
    have names. -/
structure PendingBases.IsIn (p : PendingBases) (t : SymbolTable) : Prop where
  containing : ∀ outer, p.containing? = some outer → t.Knows outer
  usings : ∀ b ∈ p.usings, ∀ u ∈ b.usings, u.name.segments ≠ []

namespace PendingBases

variable {g g' : GlobalUsings}

/-- The scope of a list of bases is in the table. -/
theorem IsIn.scope_proper (hp : p.IsIn t) (hs : t.Sound) (hg : g.IsOver t) :
    (p.scope g).IsProper g.table := by
  obtain ⟨ns, hns⟩ := hg.table
  refine ⟨fun id hid => ?_, List.forall_mem_append.2 ⟨fun a ha => ?_, hg.aliases⟩⟩
  · rw [hns]
    exact hp.containing id hid
  · obtain ⟨b, hb, ha⟩ := List.mem_flatMap.1 ha
    rw [hns] at ha ⊢
    exact (hs.withGlobals ns).aliases_proper
      (fun u hu => hp.usings b hb u (List.mem_of_mem_filter hu)) a ha

theorem scope_eq (h : g.Grows strays more g') (hg : g.IsOver t) (hs : t.Sound)
    (hn : ∀ b ∈ p.usings, t.AliasesAvoid strays b.namespace_ (b.usings.filter Using.isLocal)) :
    p.scope g' = p.scope g := by
  obtain ⟨ns, hns⟩ := hg.table
  have haliases : p.usings.flatMap (fun b => g'.table.aliases b.namespace_ (b.usings.filter Using.isLocal)) =
      p.usings.flatMap fun b => g.table.aliases b.namespace_ (b.usings.filter Using.isLocal) := by
    refine List.flatMap_congr fun b hb => h.table.aliases_eq ?_ fun u hu ha => ?_
    · rw [hns]
      exact hs.withGlobals ns
    · rw [hns]
      exact (SymbolTable.nameAvoids_withGlobals ns).2 (hn b hb u hu ha)
  unfold PendingBases.scope
  rw [haliases, h.aliases]
  simp only [h.table.imports_eq]

/-- **A list of bases that is not ambiguous** is bound to the same types. -/
theorem bind_grows (h : g.Grows strays more g') (hg : g.IsOver t) (hs : t.Sound) (hp : p.IsIn t)
    (ha : p.Alike p')
    (haliases : ∀ b ∈ p.usings,
      t.AliasesAvoid strays b.namespace_ (b.usings.filter Using.isLocal))
    (hbases : ∀ type ∈ p.declaration.bases, ∀ name, type.name? = some name →
      t.NameAvoids strays name (p.scope g))
    (hd : (p.bind g).diagnostics = []) : p'.bind g' = p.bind g := by
  obtain ⟨ns, hns⟩ := hg.table
  have hbind : ∀ type ∈ p.declaration.bases, g'.table.bindBase (p.scope g) p.path type =
      g.table.bindBase (p.scope g) p.path type := by
    intro type htype
    have hempty : (g.table.bindBase (p.scope g) p.path type).2 = [] :=
      List.flatMap_eq_nil_iff.1 hd _ (List.mem_map_of_mem htype)
    unfold SymbolTable.bindBase at hempty ⊢
    cases hname : type.name? with
    | none => rfl
    | some name =>
      rw [hname] at hempty
      have hsound : g.table.Sound := by
        rw [hns]
        exact hs.withGlobals ns
      have havoid : g.table.NameAvoids strays name (p.scope g) := by
        rw [hns]
        exact (SymbolTable.nameAvoids_withGlobals ns).2 (hbases type htype name hname)
      dsimp only at hempty ⊢
      rw [h.table.resolveName_eq hsound (hp.scope_proper hs hg) havoid]
      cases hr : g.table.resolveName name.parts name.isGlobal (p.scope g) with
      | found id => rfl
      | notFound => rfl
      | ambiguous ms =>
        rw [hr] at hempty
        cases hempty
  unfold PendingBases.Alike at ha
  rw [ha]
  show BoundBases.mk p.type p.declaration.kind _ _ = BoundBases.mk p.type p.declaration.kind _ _
  rw [show PendingBases.scope { p with tree := p'.tree } g' = p.scope g from
    scope_eq h hg hs haliases]
  dsimp only
  rw [List.map_congr_left hbind]

/-- What is found for a list of bases is in the table. -/
theorem IsIn.bind_knows (hp : p.IsIn t) (hs : t.Sound) (hg : g.IsOver t) {id : TypeId}
    (hid : .named id ∈ (p.bind g).refs) : t.Knows id := by
  obtain ⟨ns, hns⟩ := hg.table
  obtain ⟨r, hr, hid⟩ := List.mem_map.1 hid
  obtain ⟨type, -, rfl⟩ := List.mem_map.1 hr
  unfold SymbolTable.bindBase at hid
  split at hid
  · cases hid
  · dsimp only at hid
    split at hid
    · rename_i id' hfound
      obtain rfl := TypeRef.named.inj hid
      have hsc := hp.scope_proper hs hg
      rw [hns] at hsc hfound
      exact (hs.withGlobals ns).resolveName_knows hsc hfound
    · cases hid
    · cases hid

end PendingBases

/-! ## Contributions -/

/-- The base class in a list depends on the kinds of its entries. -/
theorem BoundBases.base?_congr (b : BoundBases)
    (h : ∀ id, .named id ∈ b.refs → t'.kind? id = t.kind? id) : b.base? t' = b.base? t := by
  unfold BoundBases.base?
  split
  · cases hr : b.refs.head? with
    | none => rfl
    | some r =>
      have hclass : t'.isBaseClass r = t.isBaseClass r := by
        cases r with
        | unresolved => rfl
        | named id =>
          rw [SymbolTable.isBaseClass, SymbolTable.isBaseClass, h id (List.mem_of_head? hr)]
      rw [Option.filter_some, Option.filter_some, hclass]
  · rfl

namespace SymbolTable.Grows

variable {b : BoundBases}

theorem kind?_eq (h : Grows strays more t t') {id : TypeId} (hk : t.Knows id) :
    t'.kind? id = t.kind? id := by
  obtain ⟨s, hs⟩ := Option.isSome_iff_exists.1 hk
  obtain ⟨s', hs', hm⟩ := h.old id s hs
  rw [kind?, kind?, hs, hs', hm.alike]
  rfl

theorem base?_eq (h : Grows strays more t t') (hb : ∀ id, .named id ∈ b.refs → t.Knows id) :
    b.base? t' = b.base? t :=
  b.base?_congr fun id hid => h.kind?_eq (hb id hid)

theorem contribute (h : Grows strays more t t') (hb : ∀ id, .named id ∈ b.refs → t.Knows id) :
    Grows strays more (t.contribute b) (t'.contribute b) := by
  have hbase := h.base?_eq hb
  have hinterfaces : b.interfaces t' = b.interfaces t := by
    unfold BoundBases.interfaces
    rw [hbase]
  unfold SymbolTable.contribute
  rw [hbase, hinterfaces]
  refine h.modify fun s s' _ hm => ⟨?_, fun hstray => ?_, hm.keys⟩
  · have := hm.alike
    unfold TypeSymbol.Alike at this ⊢
    rw [this]
  · have := hm.twin hstray
    unfold TypeSymbol.Twin at this ⊢
    rw [this]

theorem contributions {bs : List BoundBases} (h : Grows strays more t t')
    (hb : ∀ b ∈ bs, ∀ id, .named id ∈ b.refs → t.Knows id) :
    Grows strays more (bs.foldl SymbolTable.contribute t) (bs.foldl SymbolTable.contribute t') := by
  induction bs generalizing t t' with
  | nil => exact h
  | cons b bs ih =>
    obtain ⟨hb, hbs⟩ := List.forall_mem_cons.1 hb
    exact ih (h.contribute hb) fun b hmem id hid => (hbs b hmem id hid).mono (.contribute t _)

end SymbolTable.Grows

/-! ## All lists of bases -/

theorem bindBases_bases (t : SymbolTable) (us : List Using) (ps : List PendingBases) :
    (bindBases t us ps).bases = ps.map (PendingBases.bind · (.of t us)) := rfl

theorem bindBases_table (t : SymbolTable) (us : List Using) (ps : List PendingBases) :
    (bindBases t us ps).table =
      (bindBases t us ps).bases.foldl SymbolTable.contribute (GlobalUsings.of t us).table := rfl

/-- **Binding the bases** in a table with further declarations leaves the tables as they are
    related, if nothing is ambiguous and no name is that of a stray. -/
theorem bindBases_grows (h : t.Grows strays more t') (hs : t.Sound)
    (hne : ∀ u ∈ us, u.name.segments ≠ []) (hps : ∀ p ∈ ps, p.IsIn t)
    (ha : List.Forall₂ PendingBases.Alike ps ps') (hn : t.BindingAvoids strays us ps)
    (hd : (bindBases t us ps).diagnostics = []) :
    (bindBases t us ps).table.Grows strays more (bindBases t' us ps').table ∧
      (bindBases t' us ps').diagnostics = [] := by
  have hg := GlobalUsings.of_grows h hs hne hn.global
  have hover := GlobalUsings.isOver_of hs hne
  have hbases : ps'.map (PendingBases.bind · (.of t' us)) =
      ps.map (PendingBases.bind · (.of t us)) := by
    have hall : ∀ p ∈ ps, ∀ p', p.Alike p' → p'.bind (.of t' us) = p.bind (.of t us) :=
      fun p hp p' ha => PendingBases.bind_grows hg hover hs (hps p hp) ha (hn.aliases p hp)
        (hn.bases p hp) (List.flatMap_eq_nil_iff.1 hd _ (List.mem_map_of_mem hp))
    clear hd hn hps
    induction ha with
    | nil => rw [List.map_nil, List.map_nil]
    | cons hpp _ ih =>
      obtain ⟨hp, hps⟩ := List.forall_mem_cons.1 hall
      rw [List.map_cons, List.map_cons, hp _ hpp, ih hps]
  have heq : (bindBases t' us ps').bases = (bindBases t us ps).bases := by
    rw [bindBases_bases, bindBases_bases, hbases]
  refine ⟨?_, by rw [Binding.diagnostics, heq]; exact hd⟩
  rw [bindBases_table, bindBases_table]
  rw [heq]
  refine hg.table.contributions fun b hb id hid => ?_
  obtain ⟨p, hp, rfl⟩ := List.mem_map.1 hb
  obtain ⟨ns, hns⟩ := hover.table
  rw [hns]
  exact (hps p hp).bind_knows hs hover hid

end CommandModules

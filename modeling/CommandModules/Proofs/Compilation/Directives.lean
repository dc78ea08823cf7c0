/-
  Command modules — the order of global using directives.

  * `lookup_aliases_of_perm`: if no alias is declared twice, the order of the directives does not
    matter to what is found under a name;
  * `GlobalUsings.Alike`: the same is visible everywhere;
  * `bindBases_of_perm`: bases are bound to the same types in all orders of the directives in
    which none comes after an alias that it feeds.
-/
import CommandModules.Proofs.Compilation.Agree
import CommandModules.Proofs.Compilation.Extended

namespace CommandModules

open Namespaces SymbolTable

variable {t t' : SymbolTable} {us us' : List Using} {n : Nat} {name : String}

/-! ## Aliases -/

/-- The name of the alias that a directive declares. -/
def Using.aliasName? (u : Using) : Option String :=
  u.alias?.map Ident.value

/-- The names of the aliases that directives declare. -/
def GlobalUsings.aliasNames (us : List Using) : List String :=
  us.filterMap Using.aliasName?

namespace SymbolTable

theorem lookup_aliases_singleton (t : SymbolTable) (n : Nat) (u : Using) (name : String) :
    (t.aliases n [u]).lookup name =
      if u.aliasName? = some name then t.aliasTarget? u.name n else none := by
  rw [aliases, List.filterMap_cons, List.filterMap_nil, Using.aliasName?]
  cases u.alias? with
  | none => rfl
  | some i =>
    cases t.aliasTarget? u.name n with
    | none => simp
    | some place =>
      by_cases h : name = i.value
      · simp [h]
      · simp [List.lookup_cons, beq_false_of_ne h, Ne.symm h]

/-- Without two aliases of the same name, each one is found. -/
theorem lookup_aliases_eq_some_iff (hnames : (GlobalUsings.aliasNames us).Nodup) {place : Place} :
    (t.aliases n us).lookup name = some place ↔
      ∃ u ∈ us, u.aliasName? = some name ∧ t.aliasTarget? u.name n = some place := by
  induction us with
  | nil => simp [aliases]
  | cons u us ih =>
    rw [aliases_cons, List.lookup_append, lookup_aliases_singleton, Option.or_eq_some_iff,
      List.exists_mem_cons_iff]
    by_cases hu : u.aliasName? = some name
    · rw [GlobalUsings.aliasNames, List.filterMap_cons_some hu, List.nodup_cons] at hnames
      have hnone : ¬ ∃ v ∈ us, v.aliasName? = some name ∧ t.aliasTarget? v.name n = some place :=
        fun ⟨v, hv, hname, _⟩ => hnames.1 (List.mem_filterMap.2 ⟨v, hv, hname⟩)
      rw [ih hnames.2, if_pos hu]
      simp only [hu, hnone, true_and, and_false, or_false]
    · have hsub : (GlobalUsings.aliasNames us).Sublist (GlobalUsings.aliasNames (u :: us)) :=
        (List.sublist_cons_self u us).filterMap _
      rw [ih (hnames.sublist hsub), if_neg hu]
      simp only [hu, reduceCtorEq, false_and, true_and, false_or]

/-- The order of directives does not matter to what is found. -/
theorem lookup_aliases_of_perm (hperm : us'.Perm us) (hnames : (GlobalUsings.aliasNames us).Nodup) :
    (t.aliases n us').lookup name = (t.aliases n us).lookup name := by
  refine Option.ext fun place => ?_
  rw [lookup_aliases_eq_some_iff hnames,
    lookup_aliases_eq_some_iff ((hperm.symm.filterMap _).nodup hnames)]
  exact exists_congr fun u => and_congr_left' hperm.mem_iff

end SymbolTable

namespace GlobalUsings

/-- The same is visible everywhere. -/
structure Alike (g g' : GlobalUsings) : Prop where
  table : g.table.SameImports g'.table
  aliases : ∀ name, g'.aliases.lookup name = g.aliases.lookup name

/-- **Directives can be applied in any order** in which none comes after an alias that it feeds,
    if no alias is declared twice. -/
theorem alike_of_perm (hperm : us'.Perm us) (hnames : (aliasNames us).Nodup)
    (horder : us.Pairwise fun a u => ¬ t.Feeds u a)
    (horder' : us'.Pairwise fun a u => ¬ t.Feeds u a) : (of t us).Alike (of t us') := by
  have htable : (of t us).table.SameImports (of t us').table := by
    refine ⟨(sameTypes_of t us).symm.trans (sameTypes_of t us'), fun n => ?_⟩
    rw [mem_globalUsings_of, mem_globalUsings_of]
    exact or_congr_right (exists_congr fun u => and_congr_left' hperm.mem_iff)
  refine ⟨htable, fun name => ?_⟩
  rw [aliases_of horder, aliases_of horder', htable.aliases_eq]
  exact lookup_aliases_of_perm (hperm.filter _) (hnames.sublist (List.filter_sublist.filterMap _))

end GlobalUsings

/-! ## Lists of bases -/

section
variable {g g' : GlobalUsings} {b b' : BoundBases} {bs bs' : List BoundBases}

theorem GlobalUsings.Alike.scope (h : g.Alike g') (p : PendingBases) :
    (p.scope g).SameNames (p.scope g') where
  namespace_ := rfl
  containing := rfl
  imports := by simp only [PendingBases.scope, h.table.imports_eq]
  aliases name := by
    simp only [PendingBases.scope, h.table.aliases_eq, List.lookup_append, h.aliases]

theorem GlobalUsings.Alike.bind (h : g.Alike g') (p : PendingBases) :
    (p.bind g).Agrees (p.bind g') where
  type := rfl
  kind := rfl
  refs := by
    unfold PendingBases.bind
    dsimp only
    rw [List.map_map, List.map_map]
    exact List.map_congr_left fun type _ => bindBase_eq fun name _ =>
      h.table.resolveName (h.scope p) name.parts name.isGlobal

theorem SymbolTable.SameTypes.kind?_eq (h : t.SameTypes t') (id : TypeId) :
    t'.kind? id = t.kind? id :=
  congrArg (Option.map TypeSymbol.kind) (h.get?_eq id)

/-- The same bases are set on both sides. -/
theorem SymbolTable.SameTypes.contribute (h : t.SameTypes t') (hb : b.Agrees b') :
    (t.contribute b).SameTypes (t'.contribute b') where
  nodes := h.nodes
  order := h.order
  types := by
    simp only [SymbolTable.contribute, SymbolTable.modify, h.types, hb.type, hb.base?_eq h.kind?_eq,
      hb.interfaces_eq h.kind?_eq]

theorem SymbolTable.SameTypes.contributions (h : t.SameTypes t')
    (hbs : List.Forall₂ BoundBases.Agrees bs bs') :
    (bs.foldl SymbolTable.contribute t).SameTypes (bs'.foldl SymbolTable.contribute t') := by
  induction hbs generalizing t t' with
  | nil => exact h
  | cons hb _ ih => exact ih (h.contribute hb)

end

/-- **The order of global using directives does not matter** to the bases of types, if no alias is
    declared twice and, in both orders, no directive comes after an alias that it feeds. -/
theorem bindBases_of_perm (hperm : us'.Perm us) (hnames : (GlobalUsings.aliasNames us).Nodup)
    (horder : us.Pairwise fun a u => ¬ t.Feeds u a)
    (horder' : us'.Pairwise fun a u => ¬ t.Feeds u a) (pending : List PendingBases) :
    (∀ id, (bindBases t us' pending).table.get? id = (bindBases t us pending).table.get? id) ∧
      (bindBases t us' pending).bases.map BoundBases.refs =
        (bindBases t us pending).bases.map BoundBases.refs := by
  have hg : (GlobalUsings.of t us).Alike (.of t us') :=
    GlobalUsings.alike_of_perm hperm hnames horder horder'
  have hbases : List.Forall₂ BoundBases.Agrees (bindBases t us pending).bases
      (bindBases t us' pending).bases := by
    rw [bindBases_bases, bindBases_bases, List.forall₂_map_left_iff, List.forall₂_map_right_iff]
    exact List.forall₂_same.2 fun p _ => hg.bind p
  refine ⟨(hg.table.toSameTypes.contributions hbases).get?_eq, ?_⟩
  have hrefs : List.Forall₂ (fun r r' => r' = r)
      ((bindBases t us pending).bases.map BoundBases.refs)
      ((bindBases t us' pending).bases.map BoundBases.refs) :=
    List.rel_map (fun _ _ hb => hb.refs) hbases
  exact List.forall₂_eq_eq_eq ▸ hrefs.flip

/-- Two imports change places before an alias of a type that one of them brings in. -/
theorem bindBases_of_perm_demo :
    let c := Compilation.of
      [.parse 0 "A.cs" ("global using N; global using M; global using A = Base; " ++
        "namespace N { public class Base { } } namespace M { } class X : A { }")] [] .empty
    let us := (c.globalUsings.take 2).reverse ++ c.globalUsings.drop 2
    let t := c.declaring.1
    (∀ id, (bindBases t us c.pending).table.get? id =
        (bindBases t c.globalUsings c.pending).table.get? id) ∧
      ((bindBases t us c.pending).table.get? (.ofName "X")).bind TypeSymbol.base? =
        some (.named (.ofName "N.Base")) := by
  intro c us t
  have hperm : us.Perm c.globalUsings :=
    ((List.reverse_perm _).append_right _).trans (.of_eq (List.take_append_drop 2 _))
  obtain ⟨hnames, horder, horder', hbase⟩ : (GlobalUsings.aliasNames c.globalUsings).Nodup ∧
      (c.globalUsings.Pairwise fun a u => ¬ t.Feeds u a) ∧ (us.Pairwise fun a u => ¬ t.Feeds u a) ∧
        ((bindBases t us c.pending).table.get? (.ofName "X")).bind TypeSymbol.base? =
          some (.named (.ofName "N.Base")) := by
    decide +kernel
  exact ⟨(bindBases_of_perm hperm hnames horder horder' c.pending).1, hbase⟩

/-- An alias does not see what is imported after it. -/
example :
    let c := Compilation.of
      [.parse 0 "A.cs" ("global using A = Base; global using N; " ++
        "namespace N { public class Base { } } class X : A { }")] [] .empty
    (c.globalUsings.map fun a => c.globalUsings.map fun u => decide (c.declaring.1.Feeds u a)) =
        [[false, true], [false, false]] ∧
      ((c.table.get? (.ofName "X")).bind TypeSymbol.base?).any TypeRef.isUnresolved := by
  decide +kernel

end CommandModules

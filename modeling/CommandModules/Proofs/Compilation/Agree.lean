/-
  Command modules — bases in tables that agree.

  * `Agrees.of_describes`: tables with the same entries agree, if different names have different
    identities;
  * `GlobalUsings.of_agrees`: global using directives without aliases may stand in any order;
  * `PendingBases.Agrees.bind`: a list of bases is bound to the same types in tables that agree.
-/
import CommandModules.Proofs.Compilation.Globals
import CommandModules.Proofs.Compilation.Named
import CommandModules.Proofs.Compilation.Paired

namespace CommandModules

open Namespaces SymbolTable

/-! ## Tables with the same entries -/

section
variable {t t' : SymbolTable} {all : List SyntaxTree} {es : List Entry} {ns ns' : List Nat}

/-- **Tables with the same entries agree**, if different names have different identities. -/
theorem SymbolTable.Agrees.of_describes (hes : Describes es t) (hes' : Describes es t')
    (ht : t.IsOrderly) (ht' : t'.IsOrderly) (hn : t.IsNamed all) (hn' : t'.IsNamed all)
    (hfree : ∀ tree ∈ all, ∀ n ∈ tree.fullNames, ∀ tree' ∈ all, ∀ m ∈ tree'.fullNames,
      n.id = m.id → n = m) : t.Agrees t' where
  left := ht
  right := ht'
  paths p := by rw [hes.spaces, hes'.spaces]
  globalUsings := by
    rw [hes.globalUsings, hes'.globalUsings]
    exact ⟨nofun, nofun⟩
  types id := by
    cases hs : t.get? id with
    | none =>
      rw [hes.get?_eq_none hes' hs]
      exact .none
    | some s =>
      obtain ⟨s', hs'⟩ : ∃ s', t'.get? id = some s' :=
        Option.ne_none_iff_exists'.1 fun hnone => by cases hs.symm.trans (hes'.get?_eq_none hes hnone)
      rw [hs']
      obtain ⟨tree, htree, n, hmem, hname⟩ := hn id s hs
      obtain ⟨tree', htree', n', hmem', hname'⟩ := hn' id s' hs'
      have hid : n.id = n'.id := by
        rw [← hname.id, ← hname'.id, ht.indexed.id id s hs, ht'.indexed.id id s' hs']
      obtain rfl := hfree tree htree n hmem tree' htree' n' hmem' hid
      obtain ⟨hkind, hmodifiers⟩ := hes.symbol_eq hes' hs hs'
      obtain ⟨hpart, hpart'⟩ := NamePart.mk.inj (hname'.part.trans hname.part.symm)
      refine .some ⟨hpart, hpart', hkind, hmodifiers, ⟨n.path, hname.path, hname'.path⟩,
        hname'.outer.trans hname.outer.symm, ?_, ?_⟩
      · rw [(hes.symbol id s hs).base?, (hes'.symbol id s' hs').base?]
      · rw [(hes.symbol id s hs).interfaces, (hes'.symbol id s' hs').interfaces]

theorem SymbolTable.IsOrderly.withGlobals (h : t.IsOrderly) (ns : List Nat) :
    (t.withGlobals ns).IsOrderly :=
  ⟨h.root, h.nodup, h.indexed.namespaces List.prefix_rfl fun _ => rfl⟩

theorem SymbolTable.Agrees.withGlobals (h : t.Agrees t') (hns : SameAll t.namespaces t'.namespaces ns ns') :
    (t.withGlobals ns).Agrees (t'.withGlobals ns') :=
  ⟨h.left.withGlobals ns, h.right.withGlobals ns', h.paths, hns.of_prefix List.prefix_rfl List.prefix_rfl,
    fun id => rel_imp (h.types id) fun _ _ hs => hs.of_prefix List.prefix_rfl List.prefix_rfl⟩

end

/-! ## Using directives -/

namespace SymbolTable.Agrees

variable {t t' : SymbolTable} {n n' : Nat} {us us' : List Using}

section
variable (h : t.Agrees t')
include h

theorem usingNamespace? (hn : Same t.namespaces t'.namespaces n n') (name : Name) :
    Option.Rel (Same t.namespaces t'.namespaces) (t.usingNamespace? name n)
      (t'.usingNamespace? name n') := by
  unfold SymbolTable.usingNamespace?
  split
  · exact h.spaces.rel_find? name.path
  · exact rel_findSome? (h.spaces.rel_enclosing hn) fun _ _ hm => h.spaces.rel_descend? hm name.path

omit h in
theorem scope_ofNamespace (hn : Same t.namespaces t'.namespaces n n') :
    (Scope.ofNamespace n).Agrees t.namespaces t'.namespaces (.ofNamespace n') :=
  ⟨hn, rfl, ⟨nofun, nofun⟩, .nil⟩

theorem aliasTarget? (hn : Same t.namespaces t'.namespaces n n') (name : Name) :
    Option.Rel (Place.Agrees t.namespaces t'.namespaces) (t.aliasTarget? name n)
      (t'.aliasTarget? name n') := by
  unfold SymbolTable.aliasTarget?
  have hspace := h.usingNamespace? hn name
  generalize t.usingNamespace? name n = m, t'.usingNamespace? name n' = m' at hspace
  cases hspace with
  | some hm => exact .some (.namespace_ hm)
  | none =>
    refine rel_map (h.resolveName (scope_ofNamespace hn) name.parts name.isGlobal).get? ?_
    rintro id _ rfl
    exact .type id

theorem aliases (hn : Same t.namespaces t'.namespaces n n') (us : List Using) :
    List.Forall₂ (fun a a' => a.1 = a'.1 ∧ a.2.Agrees t.namespaces t'.namespaces a'.2)
      (t.aliases n us) (t'.aliases n' us) := by
  refine List.rel_filterMap ?_ (List.forall₂_refl us : List.Forall₂ (· = ·) us us)
  rintro u _ rfl
  dsimp only
  cases u.alias? with
  | none => exact .none
  | some name =>
    simp only [Option.bind_eq_bind, Option.bind_some]
    refine rel_bind (h.aliasTarget? hn u.name) ?_
    exact fun place place' hplace => .some ⟨rfl, hplace⟩

theorem imports (hn : Same t.namespaces t'.namespaces n n') (us : List Using) :
    List.Forall₂ (Same t.namespaces t'.namespaces) (t.imports n us) (t'.imports n' us) := by
  refine List.rel_filterMap ?_ (List.forall₂_refl us : List.Forall₂ (· = ·) us us)
  rintro u _ rfl
  dsimp only
  split
  · exact .none
  · exact h.usingNamespace? hn u.name

end

end SymbolTable.Agrees

/-! ## Global using directives -/

namespace GlobalUsings

variable {t t' : SymbolTable} {us us' : List Using}

/-- Without aliases global using directives leave none. -/
theorem aliases_of_eq_nil (hus : ∀ u ∈ us, u.alias? = none) : (of t us).aliases = [] := by
  have hnone : ∀ u ∈ us, u.isAlias = false := fun u hu => by simp [Using.isAlias, hus u hu]
  have horder : us.Pairwise fun a u => ¬ t.Feeds u a :=
    List.pairwise_of_forall_mem_list fun a ha _ _ hfeeds =>
      Bool.false_ne_true ((hnone a ha).symm.trans hfeeds.2.1)
  rw [aliases_of horder, List.filter_eq_nil_iff.2 fun u hu => by simp [hnone u hu]]
  rfl

/-- **The same namespaces are imported everywhere**, whatever the order of the directives. -/
theorem of_agrees (h : t.Agrees t') (hperm : us'.Perm us) (hus : ∀ u ∈ us, u.alias? = none) :
    (GlobalUsings.of t us).table.Agrees (GlobalUsings.of t' us').table ∧
      (GlobalUsings.of t us).aliases = [] ∧ (GlobalUsings.of t' us').aliases = [] := by
  refine ⟨?_, aliases_of_eq_nil hus, aliases_of_eq_nil fun u hu => hus u (hperm.subset hu)⟩
  rw [(sameTypes_of t us).eq_withGlobals, (sameTypes_of t' us').eq_withGlobals]
  refine h.withGlobals ⟨fun n hn => ?_, fun n' hn' => ?_⟩
  · obtain hn | ⟨u, hu, himport, hspace⟩ := mem_globalUsings_of.1 hn
    · obtain ⟨n', hn', hsame⟩ := h.globalUsings.left n hn
      exact ⟨n', mem_globalUsings_of.2 (.inl hn'), hsame⟩
    · obtain ⟨n', hn', hsame⟩ := rel_some_left (h.usingNamespace? h.root u.name) hspace
      exact ⟨n', mem_globalUsings_of.2 (.inr ⟨u, hperm.symm.subset hu, himport, hn'⟩), hsame⟩
  · obtain hn' | ⟨u, hu, himport, hspace⟩ := mem_globalUsings_of.1 hn'
    · obtain ⟨n, hn, hsame⟩ := h.globalUsings.right n' hn'
      exact ⟨n, mem_globalUsings_of.2 (.inl hn), hsame⟩
    · obtain ⟨n, hn, hsame⟩ := rel_some_right (h.usingNamespace? h.root u.name) hspace
      exact ⟨n, mem_globalUsings_of.2 (.inr ⟨u, hperm.subset hu, himport, hn⟩), hsame⟩

end GlobalUsings

/-! ## Lists of bases -/

/-- The same bases, found for the same type. -/
structure BoundBases.Agrees (b b' : BoundBases) : Prop where
  type : b'.type = b.type
  kind : b'.kind = b.kind
  refs : b'.refs = b.refs

namespace BoundBases.Agrees

variable {t t' : SymbolTable} {b b' : BoundBases}

/-- The same base class, if types are of the same kinds. -/
theorem base?_eq (h : b.Agrees b') (hkind : ∀ id, t'.kind? id = t.kind? id) :
    b'.base? t' = b.base? t := by
  rw [← b.base?_congr fun id _ => hkind id]
  unfold BoundBases.base?
  rw [h.kind, h.refs]

theorem interfaces_eq (h : b.Agrees b') (hkind : ∀ id, t'.kind? id = t.kind? id) :
    b'.interfaces t' = b.interfaces t := by
  unfold BoundBases.interfaces
  rw [h.base?_eq hkind, h.refs]

end BoundBases.Agrees

/-- An entry refers to the same type if its name means the same. -/
theorem SymbolTable.bindBase_eq {t t' : SymbolTable} {scope scope' : Scope} {path path' : String}
    {type : TypeSyntax} (h : ∀ name, type.name? = some name →
      (t.resolveName name.parts name.isGlobal scope).Rel (· = ·)
        (t'.resolveName name.parts name.isGlobal scope')) :
    (t'.bindBase scope' path' type).1 = (t.bindBase scope path type).1 := by
  unfold SymbolTable.bindBase
  cases hname : type.name? with
  | none => rfl
  | some name =>
    dsimp only
    have hrel := h name hname
    generalize t.resolveName name.parts name.isGlobal scope = r,
      t'.resolveName name.parts name.isGlobal scope' = r' at hrel
    cases hrel with
    | found hid => exact congrArg TypeRef.named hid.symm
    | ambiguous => rfl
    | notFound => rfl

section
variable {g g' : GlobalUsings} {p p' : PendingBases}

/-- The scopes of the same bases are at the same place. -/
theorem PendingBases.Agrees.scope (hp : p.Agrees g.table.namespaces g'.table.namespaces p')
    (h : g.table.Agrees g'.table) (hg : g.aliases = []) (hg' : g'.aliases = []) :
    (p.scope g).Agrees g.table.namespaces g'.table.namespaces (p'.scope g') where
  namespace_ := hp.namespace_
  containing := hp.containing
  imports := by
    refine .of_forall₂ (List.rel_flatMap hp.usings ?_)
    rintro b b' hb
    dsimp only
    rw [hb.usings]
    exact h.imports hb.namespace_ _
  aliases := by
    unfold PendingBases.scope
    rw [hg, hg', List.append_nil, List.append_nil]
    refine List.rel_flatMap hp.usings ?_
    rintro b b' hb
    dsimp only
    rw [hb.usings]
    exact h.aliases hb.namespace_ _

/-- **The same bases are bound to the same types.** -/
theorem PendingBases.Agrees.bind (hp : p.Agrees g.table.namespaces g'.table.namespaces p')
    (h : g.table.Agrees g'.table) (hg : g.aliases = []) (hg' : g'.aliases = []) :
    (p.bind g).Agrees (p'.bind g') where
  type := hp.type
  kind := congrArg TypeDeclaration.kind hp.declaration
  refs := by
    unfold PendingBases.bind
    dsimp only
    rw [hp.declaration, List.map_map, List.map_map]
    exact List.map_congr_left fun type _ => SymbolTable.bindBase_eq fun name _ =>
      h.resolveName (hp.scope h hg hg') name.parts name.isGlobal

end

end CommandModules

/-
  Command modules — bases that are written with the same tokens are bound alike.

  * `GlobalUsings.of_respells`: global using directives that differ in places have the same
    effect;
  * `PendingBases.Respells.bind`: lists of bases that are written with the same tokens are
    bound to the same types, as far as these are found;
  * `bindBases_respells`: so the tables behind the binding differ in places only, and in the
    texts of what was not found.
-/
import CommandModules.Proofs.Compilation.Respelled
import CommandModules.Proofs.Compilation.Shadow

namespace CommandModules

theorem forall₂_of_erase {α : Type} [Erase α] {as bs : List α} (h : erase as = erase bs) :
    List.Forall₂ (fun a b => erase a = erase b) as bs := by
  have h : as.map erase = bs.map erase := h
  rwa [← List.forall₂_eq_eq_eq, List.forall₂_map_left_iff, List.forall₂_map_right_iff] at h

theorem flatMap_eq_of_forall₂ {α β γ : Type} {R : α → β → Prop} {f : α → List γ} {g : β → List γ}
    {as : List α} {bs : List β} (h : List.Forall₂ R as bs) (hfg : ∀ a b, R a b → f a = g b) :
    as.flatMap f = bs.flatMap g := by
  induction h with
  | nil => rfl
  | cons hab _ ih => rw [List.flatMap_cons, List.flatMap_cons, hfg _ _ hab, ih]

theorem filterMap_eq_of_erase {α β : Type} [Erase α] {f g : α → Option β} {as bs : List α}
    (hfg : ∀ a b, erase a = erase b → f a = g b) (h : erase as = erase bs) :
    as.filterMap f = bs.filterMap g := by
  have hrel := forall₂_of_erase h
  clear h
  induction hrel with
  | nil => rfl
  | cons hab _ ih => rw [List.filterMap_cons, List.filterMap_cons, hfg _ _ hab, ih]

/-! ## Using directives -/

section
variable {t t' : SymbolTable} {name name' : Name} {n : Nat} {us us' : List Using}

theorem isGlobal_eq_of_erase (h : erase name = erase name') : name.isGlobal = name'.isGlobal := by
  rw [← isGlobal_erase, h, isGlobal_erase]

theorem path_eq_of_erase (h : erase name = erase name') : name.path = name'.path := by
  rw [← path_erase, h, path_erase]

/-- Names that differ in places have the same parts. -/
theorem parts_erase (name : Name) : (erase name).parts = name.parts := by
  have hsegments : (erase name).segments.map (fun s => NamePart.mk s.ident.value s.arity) =
      name.segments.map fun s => NamePart.mk s.ident.value s.arity := by
    rw [segments_erase, List.map_map]
    refine List.map_congr_left fun s _ => ?_
    rw [Function.comp_apply, ident_erase, value_erase, arity_erase]
  rw [Name.parts, Name.parts, hsegments, alias?_erase, isGlobal_erase]
  cases name.alias? <;> rfl

theorem parts_eq_of_erase (h : erase name = erase name') : name.parts = name'.parts := by
  rw [← parts_erase, h, parts_erase]

namespace SymbolTable

theorem usingNamespace?_respells (h : t.namespaces = t'.namespaces) (hname : erase name = erase name') :
    t.usingNamespace? name n = t'.usingNamespace? name' n := by
  rw [usingNamespace?, usingNamespace?, h, isGlobal_eq_of_erase hname, path_eq_of_erase hname]

variable (h : t.bare = t'.bare)
include h

theorem aliasTarget?_respells (hname : erase name = erase name') :
    t.aliasTarget? name n = t'.aliasTarget? name' n := by
  rw [aliasTarget?, aliasTarget?, usingNamespace?_respells (namespaces_eq_of_bare h) hname,
    ← resolveName_bare, h, resolveName_bare, parts_eq_of_erase hname, isGlobal_eq_of_erase hname]

theorem aliases_respells (hus : erase us = erase us') : t.aliases n us = t'.aliases n us' := by
  refine filterMap_eq_of_erase (fun u u' hu => ?_) hus
  obtain ⟨_, _, alias?, name, _⟩ := u
  obtain ⟨_, _, alias?', name', _⟩ := u'
  simp only [erase_using, Using.mk.injEq] at hu
  obtain ⟨-, -, halias, hname, -⟩ := hu
  cases alias? <;> cases alias?' <;> simp only [erase_none, erase_some, reduceCtorEq,
    Option.some.injEq] at halias
  · rfl
  · simp only [aliasTarget?_respells h hname, Option.bind_eq_bind, Option.bind_some,
      value_eq_of_erase halias]

theorem imports_respells (hus : erase us = erase us') : t.imports n us = t'.imports n us' := by
  refine filterMap_eq_of_erase (fun u u' hu => ?_) hus
  obtain ⟨_, _, alias?, name, _⟩ := u
  obtain ⟨_, _, alias?', name', _⟩ := u'
  simp only [erase_using, Using.mk.injEq] at hu
  obtain ⟨-, -, halias, hname, -⟩ := hu
  have hsome : alias?.isSome = alias?'.isSome := by rw [← isSome_erase, halias, isSome_erase]
  simp only [hsome, usingNamespace?_respells (namespaces_eq_of_bare h) hname]

end SymbolTable

end

/-- Tables that differ in places, and the same aliases. -/
structure GlobalUsings.Respells (g g' : GlobalUsings) : Prop where
  table : g.table.Respells g'.table
  aliases : g.aliases = g'.aliases

namespace GlobalUsings.Respells

variable {g g' : GlobalUsings} {u u' : Using}

theorem add (h : g.Respells g') (hu : erase u = erase u') : (g.add u).Respells (g'.add u') := by
  have hone : erase [u] = erase [u'] := by rw [erase_cons, erase_cons, hu]
  have haliases := SymbolTable.aliases_respells h.table.bare_eq (n := Namespaces.root) hone
  obtain ⟨_, isStatic, alias?, name, _⟩ := u
  obtain ⟨_, isStatic', alias?', name', _⟩ := u'
  simp only [erase_using, Using.mk.injEq] at hu
  obtain ⟨-, rfl, halias, hname, -⟩ := hu
  unfold GlobalUsings.add
  dsimp only
  split
  · exact h
  have hspaces := SymbolTable.namespaces_eq_of_bare h.table.bare_eq
  cases alias? <;> cases alias?' <;> simp only [erase_none, erase_some, reduceCtorEq] at halias
  · dsimp only
    rw [SymbolTable.usingNamespace?_respells hspaces hname]
    split
    · obtain ⟨-, htypes, horder⟩ := SymbolTable.mk.inj h.table.bare_eq
      refine ⟨⟨?_, h.table.bases⟩, h.aliases⟩
      simp only [SymbolTable.bare, hspaces, htypes, horder]
    · exact h
  · exact ⟨h.table, by rw [h.aliases, haliases]⟩

end GlobalUsings.Respells

/-- **Global using directives that differ in places** have the same effect. -/
theorem GlobalUsings.of_respells {t t' : SymbolTable} (h : t.Respells t') {us us' : List Using}
    (hus : erase us = erase us') : (GlobalUsings.of t us).Respells (GlobalUsings.of t' us') := by
  replace hus := forall₂_of_erase hus
  have main {g g' : GlobalUsings} (hg : g.Respells g') :
      (us.foldl GlobalUsings.add g).Respells (us'.foldl GlobalUsings.add g') := by
    induction hus generalizing g g' with
    | nil => exact hg
    | cons hu _ ih => exact ih (hg.add hu)
  exact main ⟨h, rfl⟩

/-! ## Lists of bases -/

/-- The lists belong to the same type, and refer to the same types as far as these were
    found. -/
structure BoundBases.Respells (b b' : BoundBases) : Prop where
  type : b.type = b'.type
  kind : b.kind = b'.kind
  refs : List.Forall₂ TypeRef.Respells b.refs b'.refs

section
variable {g g' : GlobalUsings} {p p' : PendingBases}

/-- Lists that are written in the same place are looked up in the same scope. -/
theorem PendingBases.scope_eq_of_bare (hbare : g.table.bare = g'.table.bare)
    (haliases : g.aliases = g'.aliases) (hspace : p.namespace_ = p'.namespace_)
    (hcontaining : p.containing? = p'.containing?)
    (husings : List.Forall₂ UsingBlock.Respells p.usings p'.usings) : p.scope g = p'.scope g' := by
  have hlocal {b b' : UsingBlock} (hb : b.Respells b') :
      erase (b.usings.filter Using.isLocal) = erase (b'.usings.filter Using.isLocal) := by
    rw [erase_filter fun _ => rfl, erase_filter fun _ => rfl, hb.usings]
  have himports : p.usings.flatMap (fun b => g.table.imports b.namespace_ (b.usings.filter Using.isLocal)) =
      p'.usings.flatMap fun b => g'.table.imports b.namespace_ (b.usings.filter Using.isLocal) := by
    refine flatMap_eq_of_forall₂ husings fun b b' hb => ?_
    rw [hb.namespace_, SymbolTable.imports_respells hbare (hlocal hb)]
  have hlocals : p.usings.flatMap (fun b => g.table.aliases b.namespace_ (b.usings.filter Using.isLocal)) =
      p'.usings.flatMap fun b => g'.table.aliases b.namespace_ (b.usings.filter Using.isLocal) := by
    refine flatMap_eq_of_forall₂ husings fun b b' hb => ?_
    rw [hb.namespace_, SymbolTable.aliases_respells hbare (hlocal hb)]
  rw [PendingBases.scope, PendingBases.scope, himports, hlocals, hspace, hcontaining, haliases]

theorem PendingBases.Respells.scope (hp : p.Respells p') (hg : g.Respells g') :
    p.scope g = p'.scope g' :=
  PendingBases.scope_eq_of_bare hg.table.bare_eq hg.aliases hp.namespace_ hp.containing hp.usings

theorem name?_erase (type : TypeSyntax) : (erase type).name? = erase type.name? := by
  obtain ⟨shape, _, _⟩ := type
  rw [erase_typeSyntax]
  cases shape <;> simp [TypeSyntax.name?]

/-- **A base is bound to the same type**, if it is found. -/
theorem bindBase_respells {t t' : SymbolTable} (h : t.bare = t'.bare) (scope : Scope)
    (path path' : String) {type type' : TypeSyntax} (htype : type.Respells type') :
    (t.bindBase scope path type).1.Respells (t'.bindBase scope path' type').1 := by
  have hname : erase type.name? = erase type'.name? := by
    rw [← name?_erase, htype.erase_eq, name?_erase]
  have hother := htype.other
  unfold SymbolTable.bindBase
  generalize type.name? = name?, type'.name? = name?' at hname hother
  cases name? <;> cases name?' <;> simp only [erase_none, erase_some, reduceCtorEq,
    Option.some.injEq] at hname
  · exact .unresolved (hother rfl)
  rename_i name name'
  have hmissing (n n' : Nat) : TypeRef.Respells (.unresolved ⟨name.simpleName, type.text, n⟩)
      (.unresolved ⟨name'.simpleName, type'.text, n'⟩) :=
    .unresolved (.inl (by rw [← simpleName_erase, hname, simpleName_erase]))
  dsimp only
  rw [← SymbolTable.resolveName_bare, h, SymbolTable.resolveName_bare, parts_eq_of_erase hname,
    isGlobal_eq_of_erase hname]
  split
  · exact .named _
  · exact hmissing _ _
  · exact hmissing _ _

theorem PendingBases.Respells.bind (hp : p.Respells p') (hg : g.Respells g') :
    (p.bind g).Respells (p'.bind g') := by
  refine ⟨hp.type, hp.kind, ?_⟩
  rw [PendingBases.bind, PendingBases.bind, hp.scope hg]
  simp only [List.map_map]
  rw [List.forall₂_map_left_iff, List.forall₂_map_right_iff]
  exact hp.bases.imp fun _ _ htype => bindBase_respells hg.table.bare_eq _ _ _ htype

end

namespace BoundBases.Respells

variable {b b' : BoundBases} {t t' : SymbolTable}

theorem isBaseClass (h : t.bare = t'.bare) {r r' : TypeRef} (hr : r.Respells r') :
    t.isBaseClass r = t'.isBaseClass r' := by
  cases hr with
  | named id => rw [← SymbolTable.isBaseClass_bare, h, SymbolTable.isBaseClass_bare]
  | unresolved => rfl

theorem base? (hb : b.Respells b') (h : t.bare = t'.bare) :
    Option.Rel TypeRef.Respells (b.base? t) (b'.base? t') := by
  rw [BoundBases.base?, BoundBases.base?, hb.kind]
  split
  · have hrefs := hb.refs
    revert hrefs
    generalize b.refs = rs, b'.refs = rs'
    rintro (_ | ⟨hr, _⟩)
    · exact .none
    · rw [List.head?_cons, List.head?_cons, Option.filter_some, Option.filter_some, isBaseClass h hr]
      split
      · exact .some hr
      · exact .none
  · exact .none

end BoundBases.Respells

/-! ## Binding -/

namespace SymbolTable

variable {t t' : SymbolTable} {b b' : BoundBases}

/-- The base of a type behind the contribution of a list to its type. -/
theorem base?_contribute (id : TypeId) : (t.contribute b).base? id =
    if id = b.type ∧ (t.get? id).isSome then (b.base? t).or (t.base? id) else t.base? id := by
  rw [base?, base?, contribute, get?_modify]
  cases t.get? id with
  | none => simp
  | some s => by_cases h : id = b.type <;> simp [h]

theorem Respells.contribute (h : t.Respells t') (hb : b.Respells b') :
    (t.contribute b).Respells (t'.contribute b') := by
  refine ⟨?_, fun id => ?_⟩
  · rw [SymbolTable.contribute, SymbolTable.contribute, hb.type]
    exact modify_bare h.bare_eq fun _ _ hs => hs
  · have hsome : (t.get? id).isSome = (t'.get? id).isSome := by
      rw [← Option.isSome_map, ← get?_bare, h.bare_eq, get?_bare, Option.isSome_map]
    rw [base?_contribute, base?_contribute, hb.type, hsome]
    split
    · have hbase := hb.base? h.bare_eq
      generalize b.base? t = r?, b'.base? t' = r?' at hbase ⊢
      cases hbase with
      | some hr => exact .some hr
      | none => exact h.bases id
    · exact h.bases id

end SymbolTable

/-- **Lists of bases that are written with the same tokens** lead to tables that differ in
    places, and in the texts of what was not found. -/
theorem bindBases_respells {t t' : SymbolTable} (h : t.Respells t') {us us' : List Using}
    (hus : erase us = erase us') {ps ps' : List PendingBases}
    (hps : List.Forall₂ PendingBases.Respells ps ps') :
    (bindBases t us ps).table.Respells (bindBases t' us' ps').table := by
  have hg := GlobalUsings.of_respells h hus
  rw [bindBases, bindBases]
  generalize GlobalUsings.of t us = g, GlobalUsings.of t' us' = g' at hg
  have main {x y : SymbolTable} (hxy : x.Respells y) :
      ((ps.map fun p => p.bind g).foldl SymbolTable.contribute x).Respells
        ((ps'.map fun p => p.bind g').foldl SymbolTable.contribute y) := by
    induction hps generalizing x y with
    | nil => exact hxy
    | cons hp _ ih => exact ih (hxy.contribute (hp.bind hg))
  exact main hg.table

end CommandModules

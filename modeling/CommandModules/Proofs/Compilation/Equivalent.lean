/-
  Command modules — compilations of equivalent sources.

  * `Compilation.Equivalent c c'`: the sources are free of errors and pairwise equivalent, the
    references are the same;
  * `Compilation.SameKeys`: the keys are those of declarations at the same place in both, so
    one of them tells the other (`Equivalent.sameKeys_iff`);
  * `Equivalent.table`, `Equivalent.lookup`: the tables differ in places, and the same
    declarations were accepted, of the same types.
-/
import Mathlib.Data.List.Zip
import Mathlib.Data.Prod.Basic
import CommandModules.Proofs.Compilation.Rebound

namespace CommandModules

/-! ## Lists in pairs -/

theorem eq_of_mem_zip {α β γ : Type} {f : α → γ} {as : List α} {bs : List β}
    (hlength : as.length = bs.length) (hf : (as.map f).Nodup) {p q : α × β}
    (hp : p ∈ as.zip bs) (hq : q ∈ as.zip bs) (h : f p.1 = f q.1) : p = q := by
  have hnodup : ((as.zip bs).map (f ∘ Prod.fst)).Nodup := by
    rwa [← List.map_map, List.map_fst_zip hlength.le]
  exact List.inj_on_of_nodup_map hnodup hp hq h

theorem mem_zip_swap {α β : Type} {as : List α} {bs : List β} {p : α × β} :
    p.swap ∈ bs.zip as ↔ p ∈ as.zip bs := by
  rw [← List.zip_swap as bs]
  exact List.mem_map_of_injective Prod.swap_injective

theorem eq_of_mem_zip_self {α : Type} {as : List α} {p : α × α} (h : p ∈ as.zip as) : p.1 = p.2 :=
  List.forall₂_zip (List.forall₂_refl as : List.Forall₂ Eq as as) (show (p.1, p.2) ∈ _ from h)

/-- A key is looked up alike in lists in which keys at the same place are related, if what is
    related to it is the key it stands for. -/
theorem lookup_eq_of_forall₂ {α : Type} {R : NodeKey → NodeKey → Prop} {k k' : NodeKey}
    (hk : ∀ a a', R a a' → (k = a ↔ k' = a')) {l l' : List (NodeKey × α)}
    (h : List.Forall₂ (fun a a' => R a.1 a'.1 ∧ a.2 = a'.2) l l') : l.lookup k = l'.lookup k' := by
  induction h with
  | nil => rfl
  | @cons a a' l l' ha _ ih =>
    have hbeq : (k == a.1) = (k' == a'.1) := by
      rw [Bool.eq_iff_iff, beq_iff_eq, beq_iff_eq]
      exact hk _ _ ha.1
    rw [List.lookup_cons, List.lookup_cons, hbeq, ha.2, ih]

theorem Declaration.offset_eq (d : Declaration) : d.offset = d.span.offset := by
  cases d <;> rfl

namespace Compilation

/-! ## Sources that are equivalent -/

/-- The sources are free of errors and pairwise equivalent, and the references and settings
    are the same. -/
structure Equivalent (c c' : Compilation) : Prop where
  isRead : ∀ t ∈ c.sources, t.IsRead
  isRead' : ∀ t ∈ c'.sources, t.IsRead
  sources : List.Forall₂ (fun t u => t.isEquivalent u = true) c.sources c'.sources
  references : c.references = c'.references
  settings : c.settings = c'.settings
  ids : (c.trees.map SyntaxTree.id).Nodup
  ids' : (c'.trees.map SyntaxTree.id).Nodup

/-- The keys are those of declarations at the same place. -/
def SameKeys (c c' : Compilation) (k k' : NodeKey) : Prop :=
  ∃ p ∈ c.sources.zip c'.sources, p.1.SameKeys p.2 k k'

/-- The keys are those of declarations at the same place in the sources, or they are the same
    key of a reference. -/
def RelatedKeys (c c' : Compilation) (k k' : NodeKey) : Prop :=
  c.SameKeys c' k k' ∨ k = k' ∧ ∃ t ∈ c.references.flatMap Reference.trees, k.tree = t.id

variable {c c' : Compilation} {k k' a a' : NodeKey}

theorem SameKeys.symm (h : c.SameKeys c' k k') : c'.SameKeys c k' k := by
  obtain ⟨p, hp, q, hq, hk, hk'⟩ := h
  exact ⟨p.swap, mem_zip_swap.2 hp, q.swap, mem_zip_swap.2 hq, hk', hk⟩

namespace Equivalent

/-- Two trees of the same text but for blanks and comments, each on its own. -/
theorem one {t u : SyntaxTree} (ht : t.IsRead) (hu : u.IsRead) (h : t.isEquivalent u = true)
    (s : Settings) : (Compilation.of [t] [] s).Equivalent (.of [u] [] s) where
  isRead := List.forall_mem_singleton.2 ht
  isRead' := List.forall_mem_singleton.2 hu
  sources := .cons h .nil
  references := rfl
  settings := rfl
  ids := List.nodup_singleton _
  ids' := List.nodup_singleton _

variable (h : c.Equivalent c')
include h

theorem respells {p : SyntaxTree × SyntaxTree} (hp : p ∈ c.sources.zip c'.sources) :
    p.1.IsRead ∧ p.1.root.Respells p.2.root := by
  have hmem := List.of_mem_zip (show (p.1, p.2) ∈ _ from hp)
  have hread := h.isRead _ hmem.1
  exact ⟨hread, hread.respells (h.isRead' _ hmem.2) (List.forall₂_zip h.sources hp)⟩

theorem symm : c'.Equivalent c where
  isRead := h.isRead'
  isRead' := h.isRead
  sources := h.sources.flip.imp fun _ _ => SyntaxTree.isEquivalent_symm
  references := h.references.symm
  settings := h.settings.symm
  ids := h.ids'
  ids' := h.ids

theorem sources_nodup : (c.sources.map SyntaxTree.id).Nodup := by
  have hids := h.ids
  rw [trees, List.map_append] at hids
  exact (List.nodup_append.1 hids).1

/-- One key tells the other. -/
theorem sameKeys_unique (hk : c.SameKeys c' k k') (ha : c.SameKeys c' a a') (heq : k = a) :
    k' = a' := by
  obtain ⟨p, hp, q, hq, rfl, rfl⟩ := hk
  obtain ⟨x, hx, y, hy, rfl, rfl⟩ := ha
  obtain rfl := eq_of_mem_zip h.sources.length_eq h.sources_nodup hp hx (congrArg NodeKey.tree heq)
  obtain ⟨ht, hr⟩ := h.respells hp
  have hoffsets : (p.1.root.declared.map Declaration.offset).Nodup :=
    ht.declared_ordered.imp fun hlt => Nat.ne_of_lt hlt
  obtain rfl := eq_of_mem_zip hr.declared.length_eq hoffsets hq hy (by
    rw [Declaration.offset_eq, Declaration.offset_eq]
    exact congrArg NodeKey.offset heq)
  rfl

theorem sameKeys_iff (hk : c.SameKeys c' k k') (ha : c.SameKeys c' a a') : k = a ↔ k' = a' :=
  ⟨h.sameKeys_unique hk ha, h.symm.sameKeys_unique hk.symm ha.symm⟩

/-- The key is not that of a reference. -/
theorem key_ne (hk : c.SameKeys c' k k') {t : SyntaxTree}
    (ht : t ∈ c.references.flatMap Reference.trees) (ha : a.tree = t.id) : k ≠ a := by
  obtain ⟨p, hp, q, -, rfl, -⟩ := hk
  rintro rfl
  have := h.ids
  rw [trees, List.map_append] at this
  exact (List.nodup_append.1 this).2.2 _ (List.mem_map_of_mem (List.of_mem_zip hp).1) _
    (List.mem_map_of_mem ht) ha

/-! ## Their symbols -/

theorem declaring_respells : c.declaring.1.Respells c'.declaring.1 ∧
    List.Forall₂ (fun f f' => f.1 = f'.1 ∧ f.2.Respells (c.RelatedKeys c') f'.2)
      c.declaring.2 c'.declaring.2 := by
  refine declareTrees_respells ?_ ⟨rfl, fun _ => .none⟩ 0 0
  rw [numberedTrees, numberedTrees, h.references]
  refine List.rel_append ?_ ?_
  · rw [List.forall₂_map_left_iff, List.forall₂_map_right_iff, List.forall₂_iff_zip]
    exact ⟨h.sources.length_eq, fun hp =>
      ⟨rfl, (h.respells hp).2, fun k k' hk => .inl ⟨_, hp, hk⟩⟩⟩
  · rw [List.forall₂_map_left_iff, List.forall₂_map_right_iff, List.forall₂_same]
    refine fun t ht => ⟨rfl, .refl _, fun k k' hr => .inr ?_⟩
    obtain ⟨q, hq, hk, hk'⟩ := hr
    exact ⟨by rw [hk, hk', eq_of_mem_zip_self hq], t, by rwa [h.references], by rw [hk]; rfl⟩

/-- **The tables differ in places**, and in the texts of bases that were not found. -/
theorem table : c.table.Respells c'.table := by
  obtain ⟨htable, hfound⟩ := h.declaring_respells
  rw [symbols_table_eq, symbols_table_eq]
  refine bindBases_respells htable ?_ ?_
  · show (effectiveUsings _).map erase = (effectiveUsings _).map erase
    rw [effectiveUsings, effectiveUsings, List.map_flatMap, List.map_flatMap]
    refine flatMap_eq_of_forall₂ hfound fun f f' ⟨ho, hf⟩ => ?_
    rw [← ho]
    cases f.1 with
    | source => exact hf.globalUsings
    | metadata => rfl
  · exact List.rel_flatMap hfound fun _ _ hf => hf.2.pending

/-- **The same declarations were accepted**, of the same types. -/
theorem lookup (hk : c.SameKeys c' k k') :
    c.symbols.declared.lookup k = c'.symbols.declared.lookup k' := by
  obtain ⟨-, hfound⟩ := h.declaring_respells
  have hdeclared : List.Forall₂ (fun a a' => c.RelatedKeys c' a.1 a'.1 ∧ a.2 = a'.2)
      c.symbols.declared c'.symbols.declared := by
    rw [c.symbols_eq, c'.symbols_eq]
    exact List.rel_flatMap hfound fun _ _ hf => hf.2.accepted
  refine lookup_eq_of_forall₂ (fun a a' ha => ?_) hdeclared
  obtain ha | ⟨rfl, t, ht, hid⟩ := ha
  · exact h.sameKeys_iff hk ha
  · exact iff_of_false (h.key_ne hk ht hid) (h.symm.key_ne hk.symm (h.references ▸ ht) hid)

end Equivalent

end Compilation

end CommandModules

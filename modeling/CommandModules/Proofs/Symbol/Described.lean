/-
  Command modules — what a table says about its types.

  * `Part` is a declaration of a type, known by the full name of the type; an `Entry` is a
    part or a namespace, known by its path;
  * `SymbolTable.Describes`: the namespaces of the table are those of the entries, and each type
    has the kind and the modifiers of its parts;
  * `Describes.declare`, `Describes.createPath`: what is done to a table adds an entry;
  * `SymbolTable.Takes`: one table comes from the other one by entries, which may be put
    behind those of other tables.
-/
import CommandModules.Proofs.Symbol.FullName
import CommandModules.Proofs.Symbol.Table

namespace CommandModules

/-- A declaration of a type with this name. -/
structure Part where
  name : FullName
  kind : TypeKind
  modifiers : Modifiers

/-- What is entered in a table, without numbers. -/
inductive Entry where
  /-- the namespace with this path -/
  | space (path : List String)
  | part (p : Part)

namespace SymbolTable

/-- The part is among the entries, and its type has this identity. -/
def HasPart (es : List Entry) (id : TypeId) (p : Part) : Prop :=
  .part p ∈ es ∧ p.name.id = id

/-- The symbol is what its parts say, and has no bases. -/
structure IsSumOf (s : TypeSymbol) (es : List Entry) (id : TypeId) : Prop where
  known : ∃ p, HasPart es id p
  kind : ∀ p, HasPart es id p → s.kind = p.kind
  modifiers : ∀ x, s.modifiers.contains x = true ↔
    ∃ p, HasPart es id p ∧ p.modifiers.contains x = true
  base? : s.base? = none
  interfaces : s.interfaces = []

/-- The table has the namespaces and the types of the entries, and no others. -/
structure Describes (es : List Entry) (t : SymbolTable) : Prop where
  spaces : ∀ q, q ∈ t.namespaces.paths ↔ q = [] ∨ ∃ p, .space p ∈ es ∧ q <+: p
  globalUsings : t.namespaces.globalUsings = []
  unknown : ∀ id, t.get? id = none → ∀ p, ¬ HasPart es id p
  symbol : ∀ id s, t.get? id = some s → IsSumOf s es id

variable {es es' : List Entry} {t t' : SymbolTable} {s s' : TypeSymbol} {id j : TypeId} {p q : Part}
  {d : NewType} {n : FullName}

theorem hasPart_append_part : HasPart (es ++ [.part p]) id q ↔
    HasPart es id q ∨ q = p ∧ p.name.id = id := by
  simp only [HasPart, List.mem_append, List.mem_singleton, Entry.part.injEq, or_and_right]
  refine or_congr_right ⟨?_, ?_⟩ <;> rintro ⟨rfl, h⟩ <;> exact ⟨rfl, h⟩

theorem hasPart_append_space {path : List String} :
    HasPart (es ++ [.space path]) id q ↔ HasPart es id q := by
  simp [HasPart]

/-- Entries that do not speak of a type leave it as it is. -/
theorem IsSumOf.congr (h : IsSumOf s es id) (he : ∀ p, HasPart es' id p ↔ HasPart es id p) :
    IsSumOf s es' id where
  known := (exists_congr he).2 h.known
  kind p hp := h.kind p ((he p).1 hp)
  modifiers x := (h.modifiers x).trans (by simp only [he])
  base? := h.base?
  interfaces := h.interfaces

theorem IsSumOf.nest (h : IsSumOf s es id) : IsSumOf (nest d j id s) es id := by
  unfold SymbolTable.nest
  split
  · exact ⟨h.known, h.kind, h.modifiers, h.base?, h.interfaces⟩
  · exact h

/-- A symbol with one more part. -/
theorem IsSumOf.merge (h : IsSumOf s es n.id) (hr : refusal? s d = none) :
    IsSumOf (merge s d) (es ++ [.part ⟨n, d.kind, d.modifiers⟩]) n.id where
  known := by
    obtain ⟨p, hp⟩ := h.known
    exact ⟨p, hasPart_append_part.2 (.inl hp)⟩
  kind p hp := by
    rcases hasPart_append_part.1 hp with hp | ⟨rfl, -⟩
    · exact h.kind p hp
    · exact (refusal?_eq_none.1 hr).2.2.1
  modifiers x := by
    show (s.modifiers.union d.modifiers).contains x = true ↔ _
    rw [Modifiers.contains_union, Bool.or_eq_true, h.modifiers x]
    simp only [hasPart_append_part, or_and_right, exists_or, and_true]
    refine or_congr_right ⟨fun hx => ⟨_, rfl, hx⟩, ?_⟩
    rintro ⟨p, rfl, hx⟩
    exact hx
  base? := h.base?
  interfaces := h.interfaces

/-- The symbol of a first part. -/
theorem symbolOf_isSumOf (t : SymbolTable) (hn : ∀ p, ¬ HasPart es n.id p) :
    IsSumOf (t.symbolOf d) (es ++ [.part ⟨n, d.kind, d.modifiers⟩]) n.id where
  known := ⟨_, hasPart_append_part.2 (.inr ⟨rfl, rfl⟩)⟩
  kind p hp := by
    obtain ⟨rfl, -⟩ := (hasPart_append_part.1 hp).resolve_left (hn p)
    rfl
  modifiers x := by
    simp only [hasPart_append_part, hn, false_or, and_true]
    exact ⟨fun hx => ⟨_, rfl, hx⟩, fun ⟨p, hp, hx⟩ => by rwa [hp] at hx⟩
  base? := rfl
  interfaces := rfl

namespace Describes

theorem empty : Describes [] .empty where
  spaces q := by simp [SymbolTable.empty, Namespaces.empty, Namespaces.paths]
  globalUsings := rfl
  unknown _ _ _ h := nomatch h.1
  symbol _ _ h := nomatch h

/-- What is described is described in any order. -/
theorem congr (h : Describes es t) (he : ∀ e, e ∈ es' ↔ e ∈ es) : Describes es' t where
  spaces q := by simp only [h.spaces q, he]
  globalUsings := h.globalUsings
  unknown id hid p hp := h.unknown id hid p ⟨(he _).1 hp.1, hp.2⟩
  symbol id s hs := (h.symbol id s hs).congr fun _ => and_congr_left fun _ => he _

/-- **A declaration is one more part.** -/
theorem declare (h : Describes es t) (hname : d.IsNamed t n) (hd : t.declare d = .ok (id, t')) :
    Describes (es ++ [.part ⟨n, d.kind, d.modifiers⟩]) t' := by
  have hpaths := paths_of_declare hd
  have hext := Extends.declare hd
  obtain ⟨hid, hcase⟩ := declare_cases hd
  rw [idOf_eq hname] at hid
  subst hid
  -- types that are not declared keep their parts
  have hother {j : TypeId} (hj : j ≠ n.id) (p : Part) :
      HasPart (es ++ [.part ⟨n, d.kind, d.modifiers⟩]) j p ↔ HasPart es j p :=
    hasPart_append_part.trans (or_iff_left fun h => hj h.2.symm)
  refine ⟨fun q => ?_, (globalUsings_of_declare hd).trans h.globalUsings, fun j hj p hp => ?_,
    fun j s' hs' => ?_⟩
  · simp only [hpaths, h.spaces q, List.mem_append, List.mem_singleton, reduceCtorEq, or_false]
  · have hne : j ≠ n.id := by
      rintro rfl
      obtain ⟨s', hs', -⟩ := declare_has hd
      cases hj.symm.trans hs'
    exact h.unknown j (hext.get?_eq_none hj) p ((hother hne p).1 hp)
  · obtain ⟨s, hs, hr, rfl⟩ | ⟨hn, rfl⟩ := hcase
    · rw [get?_modify] at hs'
      obtain ⟨s₀, hs₀, rfl⟩ := Option.map_eq_some_iff.1 hs'
      by_cases hj : j = n.id
      · subst hj
        obtain rfl := Option.some_inj.1 (hs.symm.trans hs₀)
        rw [if_pos rfl]
        exact (h.symbol _ s hs).merge hr
      · rw [if_neg hj]
        exact (h.symbol j s₀ hs₀).congr (hother hj)
    · rw [← idOf_eq hname] at hn
      by_cases hj : j = n.id
      · subst hj
        rw [← idOf_eq hname, get?_enter hn] at hs'
        obtain rfl := Option.some_inj.1 hs'
        rw [idOf_eq hname] at hn
        exact symbolOf_isSumOf t (h.unknown _ hn)
      · rw [get?_enter_of_ne fun he => hj (he.trans (idOf_eq hname))] at hs'
        obtain ⟨s, hs, rfl⟩ := Option.map_eq_some_iff.1 hs'
        exact ((h.symbol j s hs).congr (hother hj)).nest

/-- **A path is one more namespace**, with those on the way to it. -/
theorem createPath {k : Nat} {path names : List String} (h : Describes es t)
    (hk : t.namespaces.path? k = some path) : Describes (es ++ [.space (path ++ names)])
      { t with namespaces := (t.namespaces.createPath k names).1 } where
  spaces q := by
    have hmem := (h.spaces path).1 (Namespaces.mem_paths_of_path? hk)
    simp only [Namespaces.mem_paths_createPath hk, h.spaces q, List.mem_append, List.mem_singleton,
      Entry.space.injEq, or_and_right, exists_or, exists_eq_left]
    constructor
    · rintro ((hq | hq) | hq)
      · exact .inl hq
      · exact .inr (.inl hq)
      · exact .inr (.inr hq.2)
    · rintro (hq | hq | hq)
      · exact .inl (.inl hq)
      · exact .inl (.inr hq)
      · -- a path on the way is around the namespace, or behind it
        rcases List.prefix_or_prefix_of_prefix hq (List.prefix_append path names) with hqp | hpq
        · rcases hmem with rfl | ⟨p, hp, hpath⟩
          · exact .inl (.inl (List.prefix_nil.1 hqp))
          · exact .inl (.inr ⟨p, hp, hqp.trans hpath⟩)
        · exact .inr ⟨hpq, hq⟩
  globalUsings := (Namespaces.globalUsings_createPath ..).trans h.globalUsings
  unknown id hid p hp := h.unknown id hid p (hasPart_append_space.1 hp)
  symbol id s hs := (h.symbol id s hs).congr fun _ => hasPart_append_space

/-- **Tables with the same entries have the same kinds and modifiers.** -/
theorem symbol_eq (h : Describes es t) (h' : Describes es t') (hs : t.get? id = some s)
    (hs' : t'.get? id = some s') : s'.kind = s.kind ∧ s'.modifiers = s.modifiers := by
  obtain ⟨p, hp⟩ := (h.symbol id s hs).known
  refine ⟨?_, Modifiers.ext_contains fun x => Bool.eq_iff_iff.2 ?_⟩
  · rw [(h.symbol id s hs).kind p hp, (h'.symbol id s' hs').kind p hp]
  · rw [(h.symbol id s hs).modifiers, (h'.symbol id s' hs').modifiers]

/-- **Tables with the same entries have the same types.** -/
theorem get?_eq_none (h : Describes es t) (h' : Describes es t') (hn : t.get? id = none) :
    t'.get? id = none := by
  cases hs' : t'.get? id with
  | none => rfl
  | some s' =>
    obtain ⟨p, hp⟩ := (h'.symbol id s' hs').known
    exact absurd hp (h.unknown id hn p)

end Describes

/-! ## Entries behind others -/

/-- The second table is the first one with these entries. -/
def Takes (t : SymbolTable) (es : List Entry) (t' : SymbolTable) : Prop :=
  ∀ before, Describes before t → Describes (before ++ es) t'

namespace Takes

variable {t'' : SymbolTable}

theorem refl (t : SymbolTable) : t.Takes [] t :=
  fun before h => by rwa [List.append_nil]

theorem trans (h : t.Takes es t') (h' : t'.Takes es' t'') : t.Takes (es ++ es') t'' :=
  fun before hb => List.append_assoc before es es' ▸ h' _ (h _ hb)

theorem declare (h : t.Takes es t') (hname : d.IsNamed t' n) (hd : t'.declare d = .ok (id, t'')) :
    t.Takes (es ++ [.part ⟨n, d.kind, d.modifiers⟩]) t'' :=
  h.trans fun _ hb => hb.declare hname hd

theorem createPath {k : Nat} {path : List String} (h : t.Takes es t')
    (hk : t'.namespaces.path? k = some path) (names : List String) :
    t.Takes (es ++ [.space (path ++ names)])
      { t' with namespaces := (t'.namespaces.createPath k names).1 } :=
  h.trans fun _ hb => hb.createPath hk

end Takes

end SymbolTable

end CommandModules

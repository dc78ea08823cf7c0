/-
  Command modules — a table with further declarations.

  Two tables are compared that were made in the same way, but for some declarations that one
  of them has in addition.

  * `SymbolTable.Grows strays more t t'`: `t'` is `t` with more declarations, those of the
    type `id` known by the keys `more id`; only `strays` are new types, or types that others
    are mixed up with;
  * `Grows.declare`: what is declared in both tables leaves them as they are related, if it
    is no stray;
  * `Grows.declare_right`: a further declaration is one more key of its type.
-/
import CommandModules.Proofs.Symbol.FullName
import CommandModules.Proofs.Symbol.Sound

namespace CommandModules

/-! ## Symbols -/

namespace TypeSymbol

/-- The symbols are the same, save modifiers and declarations. -/
def Alike (s s' : TypeSymbol) : Prop :=
  s' = { s with modifiers := s'.modifiers, accessibility := s'.accessibility, declarations := s'.declarations }

/-- The symbols are the same, save declarations. -/
def Twin (s s' : TypeSymbol) : Prop :=
  s' = { s with declarations := s'.declarations }

/-- The keys of the declarations. -/
def keys (s : TypeSymbol) : List NodeKey :=
  s.declarations.map DeclarationSite.key

variable {s s' : TypeSymbol}

theorem Twin.alike (h : s.Twin s') : s.Alike s' := by
  rw [Alike, h]

end TypeSymbol

namespace SymbolTable

/-- The symbols of the type `id` in both tables. -/
structure Matches (strays : TypeId → Prop) (more : TypeId → List NodeKey) (id : TypeId)
    (s s' : TypeSymbol) : Prop where
  alike : s.Alike s'
  twin : ¬ strays id → s.Twin s'
  keys : s'.keys.Perm (s.keys ++ more id)

/-- `t'` is `t` with more declarations. -/
structure Grows (strays : TypeId → Prop) (more : TypeId → List NodeKey) (t t' : SymbolTable) :
    Prop where
  paths : t'.namespaces.paths = t.namespaces.paths
  globalUsings : t'.namespaces.globalUsings = t.namespaces.globalUsings
  types : ∀ n name, t'.namespaces.typeIn? n name = t.namespaces.typeIn? n name ∨
    n = Namespaces.root ∧ strays (.ofName name) ∧ t.namespaces.typeIn? n name = none
  size : t.types.length ≤ t'.types.length
  old : ∀ id s, t.get? id = some s → ∃ s', t'.get? id = some s' ∧ Matches strays more id s s'
  new : ∀ id, t.get? id = none → (t'.get? id = none ∧ more id = []) ∨ strays id

variable {strays : TypeId → Prop} {more : TypeId → List NodeKey} {t t' : SymbolTable}
  {id : TypeId} {s s' : TypeSymbol} {d : NewType} {site : DeclarationSite}

/-- The identity of a type in the global namespace is that of its own name. -/
theorem idOf_root (hroot : t.namespaces.path? Namespaces.root = some [])
    (hn : d.namespace_ = Namespaces.root) (hc : d.containing? = none) :
    t.idOf d = .ofName (metadataName d.name d.arity) := by
  have hq : t.namespaces.qualified Namespaces.root (metadataName d.name d.arity) =
      metadataName d.name d.arity := by
    rw [Namespaces.qualified, Namespaces.path_eq hroot]
    exact String.intercalate_singleton
  unfold idOf
  rw [hc, hn]
  exact congrArg TypeId.ofName hq

namespace Grows

theorem refl (strays : TypeId → Prop) (t : SymbolTable) : Grows strays (fun _ => []) t t where
  paths := rfl
  globalUsings := rfl
  types _ _ := .inl rfl
  size := Nat.le_refl _
  old _ s hs := ⟨s, hs, rfl, fun _ => rfl, by simp⟩
  new _ hn := .inl ⟨hn, rfl⟩

theorem idOf (h : Grows strays more t t') (d : NewType) : t'.idOf d = t.idOf d := by
  unfold SymbolTable.idOf
  simp only [Namespaces.qualified_congr h.paths]

/-- A change of one type on both sides. -/
theorem modify (h : Grows strays more t t') {f f' : TypeSymbol → TypeSymbol}
    (hf : ∀ s s', t.get? id = some s → Matches strays more id s s' →
      Matches strays more id (f s) (f' s')) :
    Grows strays more (t.modify id f) (t'.modify id f') where
  paths := h.paths
  globalUsings := h.globalUsings
  types := h.types
  size := by simpa using h.size
  old j x hx := by
    rw [get?_modify] at hx
    obtain ⟨s, hs, rfl⟩ := Option.map_eq_some_iff.1 hx
    obtain ⟨s', hs', hm⟩ := h.old j s hs
    refine ⟨if j = id then f' s' else s', by rw [get?_modify, hs']; rfl, ?_⟩
    by_cases hj : j = id
    · subst hj
      rw [if_pos rfl, if_pos rfl]
      exact hf s s' hs hm
    · rw [if_neg hj, if_neg hj]
      exact hm
  new j hj := by
    rw [get?_modify, Option.map_eq_none_iff] at hj
    rw [get?_modify, Option.map_eq_none_iff]
    exact h.new j hj

/-- The same is done to the namespaces on both sides. -/
theorem namespaces (h : Grows strays more t t') {ns ns' : Namespaces} (hp : ns'.paths = ns.paths)
    (hg : ns'.globalUsings = ns.globalUsings)
    (ht : ∀ n name, ns.typeIn? n name = t.namespaces.typeIn? n name)
    (ht' : ∀ n name, ns'.typeIn? n name = t'.namespaces.typeIn? n name) :
    Grows strays more { t with namespaces := ns } { t' with namespaces := ns' } where
  paths := hp
  globalUsings := hg
  types n name := by
    rw [ht, ht']
    exact h.types n name
  size := h.size
  old := h.old
  new := h.new

theorem createPath (h : Grows strays more t t') (n : Nat) (names : List String) :
    Grows strays more { t with namespaces := (t.namespaces.createPath n names).1 }
      { t' with namespaces := (t'.namespaces.createPath n names).1 } :=
  h.namespaces (Namespaces.createPath_congr h.paths n names).1 (by simp [h.globalUsings])
    (by simp) (by simp)

theorem addGlobalUsing (h : Grows strays more t t') (n : Nat) :
    Grows strays more { t with namespaces := t.namespaces.addGlobalUsing n }
      { t' with namespaces := t'.namespaces.addGlobalUsing n } := by
  refine h.namespaces (by simp [h.paths]) ?_ (by simp) (by simp)
  unfold Namespaces.addGlobalUsing
  rw [h.globalUsings]
  split <;> simp [h.globalUsings]

/-! ## Declaring on both sides -/

theorem merge_matches (hm : Matches strays more id s s') (hkey : site.key = d.site.key) :
    Matches strays more id (merge s d) (merge s' { d with site }) := by
  refine ⟨?_, fun hn => ?_, ?_⟩
  · have := hm.alike
    unfold TypeSymbol.Alike at this ⊢
    rw [this]
    rfl
  · have := hm.twin hn
    unfold TypeSymbol.Twin at this ⊢
    rw [this]
    rfl
  · have hs : (merge s d).keys = s.keys ++ [d.site.key] := List.map_append
    have hs' : (merge s' { d with site }).keys = s'.keys ++ [d.site.key] := by
      rw [← hkey]
      exact List.map_append
    rw [hs, hs']
    refine (hm.keys.append_right _).trans ?_
    rw [List.append_assoc, List.append_assoc]
    exact List.perm_append_comm.append_left _

theorem nest_matches {o : TypeId} (hm : Matches strays more id s s') :
    Matches strays more id (nest d o id s) (nest { d with site } o id s') := by
  unfold nest
  dsimp only
  split
  · refine ⟨?_, fun hn => ?_, hm.keys⟩
    · have := hm.alike
      unfold TypeSymbol.Alike at this ⊢
      rw [this]
    · have := hm.twin hn
      unfold TypeSymbol.Twin at this ⊢
      rw [this]
  · exact hm

/-- A new type on both sides. -/
theorem enter (h : Grows strays more t t') (hroot : t.namespaces.path? Namespaces.root = some [])
    (hkey : site.key = d.site.key) (hn : t.get? (t.idOf d) = none)
    (hstray : ¬ strays (t.idOf d)) :
    Grows strays more (t.enter d) (t'.enter { d with site }) := by
  have hid : t'.idOf { d with site } = t.idOf d := h.idOf d
  obtain ⟨hn', hmore⟩ := (h.new _ hn).resolve_right hstray
  rw [← hid] at hn'
  refine ⟨?_, ?_, fun n name => ?_, ?_, fun j x hx => ?_, fun j hj => ?_⟩
  · rw [namespaces_enter, namespaces_enter]
    dsimp only
    cases d.containing? <;> simp [h.paths]
  · rw [namespaces_enter, namespaces_enter]
    dsimp only
    cases d.containing? <;> simp [h.globalUsings]
  · rw [namespaces_enter, namespaces_enter, hid]
    dsimp only
    cases hout : d.containing? with
    | some outer => exact h.types n name
    | none =>
      simp only [Namespaces.typeIn?_register, Namespaces.length_congr h.paths]
      rcases h.types n name with he | ⟨hr, hs, ht⟩
      · rw [he]
        exact .inl rfl
      · -- a stray name is not that of the new type, whose identity it would be
        have hne : ¬ (n = d.namespace_ ∧ name = metadataName d.name d.arity ∧
            d.namespace_ < t.namespaces.nodes.length) := by
          rintro ⟨rfl, rfl, -⟩
          exact hstray (idOf_root hroot hr hout ▸ hs)
        rw [if_neg hne, Option.or_none, Option.or_none]
        exact .inr ⟨hr, hs, ht⟩
  · simpa using h.size
  · by_cases hj : j = t.idOf d
    · subst hj
      rw [get?_enter hn] at hx
      obtain rfl := Option.some_inj.1 hx
      refine ⟨t'.symbolOf { d with site }, by rw [← hid, get?_enter hn'], ?_⟩
      have htwin : (t.symbolOf d).Twin (t'.symbolOf { d with site }) := by
        unfold TypeSymbol.Twin symbolOf
        rw [hid]
      exact ⟨htwin.alike, fun _ => htwin, by simp [TypeSymbol.keys, symbolOf, hkey, hmore]⟩
    · rw [get?_enter_of_ne hj] at hx
      obtain ⟨s, hs, rfl⟩ := Option.map_eq_some_iff.1 hx
      obtain ⟨s', hs', hm⟩ := h.old j s hs
      refine ⟨nest { d with site } (t'.idOf { d with site }) j s',
        by rw [get?_enter_of_ne fun he => hj (he.trans hid), hs']; rfl, ?_⟩
      rw [hid]
      exact nest_matches hm
  · by_cases hje : j = t.idOf d
    · subst hje
      rw [get?_enter hn] at hj
      cases hj
    · rw [get?_enter_of_ne hje, Option.map_eq_none_iff] at hj
      rw [get?_enter_of_ne fun he => hje (he.trans hid), Option.map_eq_none_iff]
      exact h.new j hj

theorem refusal?_eq (hm : s.Twin s') : refusal? s' { d with site } = refusal? s d := by
  unfold TypeSymbol.Twin at hm
  rw [hm]
  rfl

/-- **What is declared in both tables** leaves them as they are related. -/
theorem declare (h : Grows strays more t t') (hroot : t.namespaces.path? Namespaces.root = some [])
    (hkey : site.key = d.site.key) (hstray : ¬ strays (t.idOf d)) :
    (∃ id u u', t.declare d = .ok (id, u) ∧ t'.declare { d with site } = .ok (id, u') ∧
      Grows strays more u u') ∨
    ∃ e e', t.declare d = .error e ∧ t'.declare { d with site } = .error e' := by
  have hid : t'.idOf { d with site } = t.idOf d := h.idOf d
  cases hs : t.get? (t.idOf d) with
  | none =>
    have hs' : t'.get? (t'.idOf { d with site }) = none := by
      rw [hid]
      exact ((h.new _ hs).resolve_right hstray).1
    refine .inl ⟨_, _, _, declare_eq_of_none hs, ?_, h.enter hroot hkey hs hstray⟩
    rw [declare_eq_of_none hs', hid]
  | some s =>
    obtain ⟨s', hs', hm⟩ := h.old _ s hs
    rw [← hid] at hs'
    rw [declare_eq_of_some hs, declare_eq_of_some hs', refusal?_eq (hm.twin hstray), hid]
    cases refusal? s d with
    | some cause => exact .inr ⟨_, _, rfl, rfl⟩
    | none =>
      exact .inl ⟨_, _, _, rfl, rfl, h.modify fun s s' _ hm =>
        merge_matches hm hkey⟩

/-! ## Declaring on the right alone -/

/-- **A further declaration** is one more key of its type.  A type that is new must be a
    stray in the global namespace; a type that is no stray must have the modifiers. -/
theorem declare_right (h : Grows strays more t t') {u' : SymbolTable}
    (hroot : t.namespaces.path? Namespaces.root = some []) (hd : t'.declare d = .ok (id, u'))
    (hc : d.containing? = none)
    (hnew : t'.get? id = none → strays id ∧ d.namespace_ = Namespaces.root)
    (hold : ∀ s', t'.get? id = some s' → ¬ strays id → merge s' d =
      { s' with declarations := s'.declarations ++ [d.site] }) :
    Grows strays (fun j => if j = id then more j ++ [d.site.key] else more j) t u' := by
  obtain ⟨rfl, ⟨s', hs', -, rfl⟩ | ⟨hn, rfl⟩⟩ := declare_cases hd
  · refine ⟨h.paths, h.globalUsings, h.types, by simpa using h.size, fun j s hs => ?_, fun j hj => ?_⟩
    · obtain ⟨x, hx, hm⟩ := h.old j s hs
      refine ⟨if j = t'.idOf d then merge x d else x, by rw [get?_modify, hx]; rfl, ?_⟩
      by_cases hj : j = t'.idOf d
      · subst hj
        obtain rfl := Option.some_inj.1 (hs'.symm.trans hx)
        rw [if_pos rfl]
        refine ⟨?_, fun hstray => ?_, ?_⟩
        · have := hm.alike
          unfold TypeSymbol.Alike at this ⊢
          rw [this]
          rfl
        · have := hm.twin hstray
          rw [hold s' hx hstray]
          unfold TypeSymbol.Twin at this ⊢
          rw [this]
        · have hkeys : (merge s' d).keys = s'.keys ++ [d.site.key] := List.map_append
          rw [hkeys, if_pos rfl, ← List.append_assoc]
          exact hm.keys.append_right _
      · rw [if_neg hj]
        exact ⟨hm.alike, hm.twin, by rw [if_neg hj]; exact hm.keys⟩
    · rw [get?_modify, Option.map_eq_none_iff]
      refine (h.new j hj).imp_left fun ⟨hj', hm⟩ => ⟨hj', ?_⟩
      rw [if_neg ?_, hm]
      rintro rfl
      rw [hs'] at hj'
      cases hj'
  · obtain ⟨hstray, hns⟩ := hnew hn
    have hid : t'.idOf d = .ofName (metadataName d.name d.arity) := by
      refine idOf_root ?_ hns hc
      rw [Namespaces.path?_congr h.paths, hroot]
    have hnest (j : TypeId) (s : TypeSymbol) : nest d (t'.idOf d) j s = s := by
      unfold nest
      rw [hc, if_neg nofun]
    refine ⟨?_, ?_, fun n name => ?_, ?_, fun j s hs => ?_, fun j hj => ?_⟩
    · rw [namespaces_enter, hc]
      simp [h.paths]
    · rw [namespaces_enter, hc]
      simp [h.globalUsings]
    · rw [namespaces_enter, hc]
      simp only [Namespaces.typeIn?_register]
      split
      · rename_i hname
        obtain ⟨rfl, rfl, -⟩ := hname
        rcases h.types d.namespace_ (metadataName d.name d.arity) with he | he
        · cases ht : t.namespaces.typeIn? d.namespace_ (metadataName d.name d.arity) with
          | none => exact .inr ⟨hns, hid ▸ hstray, rfl⟩
          | some x => exact .inl (by rw [he, ht]; rfl)
        · exact .inr he
      · rw [Option.or_none]
        exact h.types n name
    · have := h.size
      rw [length_types_enter]
      omega
    · obtain ⟨s', hs', hm⟩ := h.old j s hs
      have hj : j ≠ t'.idOf d := by
        rintro rfl
        rw [hn] at hs'
        cases hs'
      refine ⟨s', by rw [get?_enter_of_ne hj, hs', Option.map_some, hnest], ?_⟩
      exact ⟨hm.alike, hm.twin, by rw [if_neg hj]; exact hm.keys⟩
    · by_cases hje : j = t'.idOf d
      · exact .inr (hje ▸ hstray)
      · rw [get?_enter_of_ne hje, Option.map_eq_none_iff, if_neg hje]
        exact h.new j hj

end Grows

end SymbolTable

end CommandModules

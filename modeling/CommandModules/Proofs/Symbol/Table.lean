/-
  Command modules — what a declaration changes.

  * `declare_cases` says all that a declaration can do to the table: it is merged into
    a symbol that is there, or a new symbol is entered;
  * `TypeSymbol.Becomes`: a symbol only takes up more modifiers and declarations, more
    nested types and its bases; its name, its kind and its place stay;
  * `SymbolTable.Extends`: all symbols of a table are in the other one, and have become
    what they are there; so are all namespaces.
-/
import Mathlib.Logic.Relation
import CommandModules.Compilation.Bases
import CommandModules.Proofs.Symbol.Access
import CommandModules.Proofs.Symbol.Namespace

namespace CommandModules

/-! ## Looking symbols up -/

namespace SymbolTable

variable {t t' : SymbolTable} {id j : TypeId} {s : TypeSymbol} {d : NewType}

theorem get?_modify {f : TypeSymbol → TypeSymbol} :
    (t.modify id f).get? j = (t.get? j).map fun s => if j = id then f s else s := by
  simp only [get?, modify]
  induction t.types with
  | nil => rfl
  | cons e es ih =>
    rw [List.map_cons, List.lookup_cons, List.lookup_cons, ih]
    by_cases he : e.1 = id <;> by_cases hj : j = e.1 <;> simp [he, hj, beq_false_of_ne]
    · simp [beq_false_of_ne (he ▸ hj)]

/-- A symbol under one more identity is found behind those that are there. -/
theorem get?_push (t : SymbolTable) (id : TypeId) (s : TypeSymbol) (order : List TypeId) :
    get? { t with types := t.types ++ [(id, s)], order } j =
      (t.get? j).or (if j = id then some s else none) := by
  simp only [get?, List.lookup_append]
  by_cases h : j = id <;> simp [List.lookup_cons, h, beq_false_of_ne]

/-! ## Declaring -/

/-- A declaration is not refused if all parts are partial, of one kind and not in
    conflict. -/
theorem refusal?_eq_none : refusal? s d = none ↔ s.isPartial = true ∧
    d.modifiers.contains .partial_ = true ∧ s.kind = d.kind ∧
      conflict s.modifiers d.modifiers = false := by
  unfold refusal?
  split
  · rename_i h
    simp only [Bool.or_eq_true, Bool.not_eq_true'] at h
    grind
  · split
    · grind
    · split <;> grind

/-- The table with a new symbol, entered under its name. -/
def enter (t : SymbolTable) (d : NewType) : SymbolTable :=
  { t.enterName d with
    types := (t.enterName d).types ++ [(t.idOf d, t.symbolOf d)]
    order := (t.enterName d).order ++ [t.idOf d] }

/-- A declaration of a type that is there is merged into it, or refused. -/
theorem declare_eq_of_some (hs : t.get? (t.idOf d) = some s) : t.declare d =
    match refusal? s d with
    | some cause => .error ⟨cause, t.qualifiedName (t.idOf d), d.site.span⟩
    | none => .ok (t.idOf d, t.modify (t.idOf d) (merge · d)) := by
  cases hr : refusal? s d <;> simp only [declare, hs, hr]

/-- A declaration of a type that is not there enters it. -/
theorem declare_eq_of_none (hn : t.get? (t.idOf d) = none) :
    t.declare d = .ok (t.idOf d, t.enter d) := by
  unfold declare
  simp only [hn]
  rfl

/-- **All that a declaration can do.** -/
theorem declare_cases (h : t.declare d = .ok (id, t')) :
    id = t.idOf d ∧
      ((∃ s, t.get? id = some s ∧ refusal? s d = none ∧ t' = t.modify id (merge · d)) ∨
        (t.get? id = none ∧ t' = t.enter d)) := by
  unfold declare at h
  dsimp only at h
  split at h
  · rename_i s hs
    split at h
    · cases h
    · rename_i hr
      obtain ⟨rfl, rfl⟩ := Prod.mk.inj (Except.ok.inj h)
      exact ⟨rfl, .inl ⟨s, hs, hr, rfl⟩⟩
  · rename_i hn
    obtain ⟨rfl, rfl⟩ := Prod.mk.inj (Except.ok.inj h)
    exact ⟨rfl, .inr ⟨hn, rfl⟩⟩

end SymbolTable

/-! ## Symbols that grow -/

/-- The accessibility is the one that the modifiers spell, if they spell one. -/
def TypeSymbol.IsSettled (s : TypeSymbol) : Prop :=
  s.modifiers.accessibility?.getD s.accessibility = s.accessibility

/-- The symbol `s` has become `s'`. -/
structure TypeSymbol.Becomes (s s' : TypeSymbol) : Prop where
  id : s'.id = s.id
  name : s'.name = s.name
  arity : s'.arity = s.arity
  kind : s'.kind = s.kind
  namespace_ : s'.namespace_ = s.namespace_
  containing : s'.containing? = s.containing?
  origin : s'.origin = s.origin
  modifiers : s.modifiers.Accords s'.modifiers
  declarations : s.declarations <+: s'.declarations
  isSettled : s.IsSettled → s'.IsSettled
  isPublic : s.IsSettled → s'.accessibility = .public_ →
    s.accessibility = .public_ ∨ s.modifiers.SpellsNothing

namespace TypeSymbol.Becomes

variable {s s' s'' : TypeSymbol}

theorem refl (s : TypeSymbol) : s.Becomes s :=
  ⟨rfl, rfl, rfl, rfl, rfl, rfl, rfl, .refl _, List.prefix_rfl, fun h => h, fun _ => .inl⟩

theorem trans (h : s.Becomes s') (h' : s'.Becomes s'') : s.Becomes s'' where
  id := h'.id.trans h.id
  name := h'.name.trans h.name
  arity := h'.arity.trans h.arity
  kind := h'.kind.trans h.kind
  namespace_ := h'.namespace_.trans h.namespace_
  containing := h'.containing.trans h.containing
  origin := h'.origin.trans h.origin
  modifiers := h.modifiers.trans h'.modifiers
  declarations := h.declarations.trans h'.declarations
  isSettled hs := h'.isSettled (h.isSettled hs)
  isPublic hs hp := by
    rcases h'.isPublic (h.isSettled hs) hp with hp | hn
    · exact h.isPublic hs hp
    · exact .inr (hn.of_subset h.modifiers.subset)

theorem merge {d : NewType} (h : SymbolTable.refusal? s d = none) :
    s.Becomes (SymbolTable.merge s d) := by
  have haccords := (Modifiers.accords_union (SymbolTable.refusal?_eq_none.1 h).2.2.2).1
  refine ⟨rfl, rfl, rfl, rfl, rfl, rfl, rfl, haccords, List.prefix_append _ _, fun _ => ?_,
    fun hs hp => ?_⟩
  · show (s.modifiers.union d.modifiers).accessibility?.getD
      ((s.modifiers.union d.modifiers).accessibility?.getD s.accessibility) =
        (s.modifiers.union d.modifiers).accessibility?.getD s.accessibility
    cases (s.modifiers.union d.modifiers).accessibility? <;> rfl
  · cases hu : (s.modifiers.union d.modifiers).accessibility? with
    | none =>
      rw [SymbolTable.merge, hu] at hp
      exact .inl hp
    | some a =>
      rw [SymbolTable.merge, hu] at hp
      obtain rfl : a = .public_ := hp
      refine (haccords.access hu).imp_left fun hs' => ?_
      rw [IsSettled, hs'] at hs
      exact hs.symm

theorem nested (s : TypeSymbol) (nested : List (String × TypeId)) :
    s.Becomes { s with nested } :=
  ⟨rfl, rfl, rfl, rfl, rfl, rfl, rfl, .refl _, List.prefix_rfl, fun h => h, fun _ => .inl⟩

theorem bases (s : TypeSymbol) (base? : Option TypeRef) (interfaces : List TypeRef) :
    s.Becomes { s with base?, interfaces } :=
  ⟨rfl, rfl, rfl, rfl, rfl, rfl, rfl, .refl _, List.prefix_rfl, fun h => h, fun _ => .inl⟩

end TypeSymbol.Becomes

namespace SymbolTable

variable {t t' t'' : SymbolTable} {id j : TypeId} {s : TypeSymbol} {d : NewType}

/-- All symbols and namespaces of `t` are in `t'`. -/
structure Extends (t t' : SymbolTable) : Prop where
  symbol : ∀ j s, t.get? j = some s → ∃ s', t'.get? j = some s' ∧ s.Becomes s'
  namespace_ : t.namespaces.paths <+: t'.namespaces.paths

namespace Extends

theorem refl (t : SymbolTable) : t.Extends t :=
  ⟨fun _ s h => ⟨s, h, .refl s⟩, List.prefix_rfl⟩

theorem trans (h : t.Extends t') (h' : t'.Extends t'') : t.Extends t'' where
  symbol j s hs := by
    obtain ⟨s', hs', hb⟩ := h.symbol j s hs
    obtain ⟨s'', hs'', hb'⟩ := h'.symbol j s' hs'
    exact ⟨s'', hs'', hb.trans hb'⟩
  namespace_ := h.namespace_.trans h'.namespace_

theorem modify {f : TypeSymbol → TypeSymbol}
    (hf : ∀ s, t.get? id = some s → s.Becomes (f s)) : t.Extends (t.modify id f) := by
  refine ⟨fun j s hs => ?_, List.prefix_rfl⟩
  rw [get?_modify, hs]
  by_cases h : j = id
  · subst h
    exact ⟨f s, by simp, hf s hs⟩
  · exact ⟨s, by simp [h], .refl s⟩

/-- Namespaces that are new do not change symbols. -/
theorem namespaces {ns : Namespaces} (h : t.namespaces.paths <+: ns.paths) :
    t.Extends { t with namespaces := ns } :=
  ⟨fun _ s hs => ⟨s, hs, .refl s⟩, h⟩

theorem push (t : SymbolTable) (id : TypeId) (x : TypeSymbol) (order : List TypeId) :
    t.Extends { t with types := t.types ++ [(id, x)], order } :=
  ⟨fun _ s hs => ⟨s, by rw [get?_push, hs, Option.some_or], .refl s⟩, List.prefix_rfl⟩

theorem enterName (t : SymbolTable) (d : NewType) : t.Extends (t.enterName d) := by
  unfold SymbolTable.enterName
  dsimp only
  split
  · exact .modify fun s _ => .nested s _
  · exact .namespaces (by simp only [Namespaces.paths_register, List.prefix_refl])

theorem enter (t : SymbolTable) (d : NewType) : t.Extends (t.enter d) :=
  (enterName t d).trans (push _ _ _ _)

/-- A declaration takes nothing away. -/
theorem declare (h : t.declare d = .ok (id, t')) : t.Extends t' := by
  obtain ⟨-, ⟨s, hs, hr, rfl⟩ | ⟨-, rfl⟩⟩ := declare_cases h
  · refine .modify fun s' hs' => ?_
    obtain rfl := Option.some_inj.1 (hs.symm.trans hs')
    exact .merge hr
  · exact .enter t d

theorem get?_isSome (h : t.Extends t') (hs : (t.get? j).isSome) : (t'.get? j).isSome := by
  obtain ⟨s, hs⟩ := Option.isSome_iff_exists.1 hs
  obtain ⟨s', hs', -⟩ := h.symbol j s hs
  rw [hs']
  rfl

/-- What is not in the larger table is not in the smaller one. -/
theorem get?_eq_none (h : t.Extends t') (hn : t'.get? j = none) : t.get? j = none := by
  cases hs : t.get? j with
  | none => rfl
  | some s =>
    obtain ⟨s', hs', -⟩ := h.symbol j s hs
    cases hn.symm.trans hs'

/-! ## Bases -/

theorem contribute (t : SymbolTable) (b : BoundBases) : t.Extends (t.contribute b) :=
  .modify fun s _ => .bases s _ _

end Extends

theorem get?_enterName_of_none (h : t.get? j = none) (d : NewType) :
    (t.enterName d).get? j = none := by
  unfold enterName
  cases d.containing? with
  | none => exact h
  | some outer =>
    rw [get?_modify, h]
    rfl

/-- A symbol that is entered is found. -/
theorem get?_enter (h : t.get? (t.idOf d) = none) :
    (t.enter d).get? (t.idOf d) = some (t.symbolOf d) := by
  refine (get?_push ..).trans ?_
  rw [get?_enterName_of_none h, Option.none_or, if_pos rfl]

/-- The symbol of `j` with the nested type `id`, if `j` is the type around the
    declaration. -/
def nest (d : NewType) (id j : TypeId) (s : TypeSymbol) : TypeSymbol :=
  if d.containing? = some j then
    { s with nested := s.nested ++ [(metadataName d.name d.arity, id)] }
  else s

theorem get?_enterName (t : SymbolTable) (d : NewType) (j : TypeId) :
    (t.enterName d).get? j = (t.get? j).map (nest d (t.idOf d) j) := by
  unfold enterName nest
  dsimp only
  cases d.containing? with
  | none =>
    simp only [reduceCtorEq, if_false]
    exact Option.map_id'.symm ▸ rfl
  | some outer =>
    rw [get?_modify]
    congr 1
    funext s
    simp only [Option.some.injEq, eq_comm]

/-- Symbols that are there stay, but for the one around the type that is entered. -/
theorem get?_enter_of_ne {j : TypeId} (h : j ≠ t.idOf d) :
    (t.enter d).get? j = (t.get? j).map (nest d (t.idOf d) j) := by
  refine (get?_push ..).trans ?_
  rw [if_neg h, Option.or_none, get?_enterName]

theorem namespaces_enter (t : SymbolTable) (d : NewType) : (t.enter d).namespaces =
    match d.containing? with
    | some _ => t.namespaces
    | none => t.namespaces.register d.namespace_ (metadataName d.name d.arity) (t.idOf d) := by
  unfold enter enterName
  cases d.containing? <;> rfl

/-- A declaration adds no namespace. -/
theorem paths_of_declare (h : t.declare d = .ok (id, t')) :
    t'.namespaces.paths = t.namespaces.paths := by
  obtain ⟨-, ⟨_, -, -, rfl⟩ | ⟨-, rfl⟩⟩ := declare_cases h
  · rfl
  · unfold enter enterName
    dsimp only
    split
    · rfl
    · exact Namespaces.paths_register ..

/-- A declaration imports nothing. -/
theorem globalUsings_of_declare (h : t.declare d = .ok (id, t')) :
    t'.namespaces.globalUsings = t.namespaces.globalUsings := by
  obtain ⟨-, ⟨_, -, -, rfl⟩ | ⟨-, rfl⟩⟩ := declare_cases h
  · rfl
  · rw [namespaces_enter]
    cases d.containing? with
    | some _ => rfl
    | none => exact Namespaces.globalUsings_register ..

@[simp] theorem length_types_modify (t : SymbolTable) (id : TypeId) (f : TypeSymbol → TypeSymbol) :
    (t.modify id f).types.length = t.types.length :=
  List.length_map _

@[simp] theorem length_types_enter (t : SymbolTable) (d : NewType) :
    (t.enter d).types.length = t.types.length + 1 := by
  have h : (t.enterName d).types.length = t.types.length := by
    unfold enterName
    dsimp only
    split
    · exact length_types_modify ..
    · rfl
  rw [← h]
  exact List.length_append

end SymbolTable

/-- The symbol has taken the declaration up. -/
structure TypeSymbol.Has (s : TypeSymbol) (d : NewType) : Prop where
  site : d.site ∈ s.declarations
  kind : s.kind = d.kind
  modifiers : d.modifiers.Accords s.modifiers

theorem TypeSymbol.Has.mono {s s' : TypeSymbol} {d : NewType} (h : s.Has d) (hs : s.Becomes s') :
    s'.Has d :=
  ⟨hs.declarations.subset h.site, hs.kind.trans h.kind, h.modifiers.trans hs.modifiers⟩

/-- **What is declared has a symbol, and the symbol has the declaration.** -/
theorem SymbolTable.declare_has {t t' : SymbolTable} {id : TypeId} {d : NewType}
    (h : t.declare d = .ok (id, t')) : ∃ s, t'.get? id = some s ∧ s.Has d := by
  obtain ⟨rfl, ⟨s, hs, hr, rfl⟩ | ⟨hn, rfl⟩⟩ := declare_cases h
  · obtain ⟨-, -, hk, hc⟩ := refusal?_eq_none.1 hr
    refine ⟨merge s d, ?_, by simp [merge], hk, (Modifiers.accords_union hc).2⟩
    simp [get?_modify, hs]
  · exact ⟨t.symbolOf d, get?_enter hn, List.mem_singleton.2 rfl, rfl, .refl _⟩

end CommandModules

/-
  Command modules — the indexes of a table.

  A type is found in three ways: by its identity, in the order of declaration, and by its
  name in the namespace or the type around it.

  * `SymbolTable.namesIn` are the names that a container lists, be it a namespace or a
    type; `idAt` is the identity that a name in it stands for;
  * `SymbolTable.Indexed`: the three ways lead to the same types;
  * `Indexed.declare`, `Indexed.createPath`, `Indexed.modify`: whatever is done to a table
    keeps it indexed.
-/
import Mathlib.Data.List.Nodup
import CommandModules.Proofs.Symbol.Table

namespace CommandModules

/-! ## Containers -/

/-- What a type is declared in: the type around it, else its namespace. -/
def NewType.place (d : NewType) : Place :=
  match d.containing? with
  | some outer => .type outer
  | none => .namespace_ d.namespace_

/-- The name of the declared type with its arity. -/
def NewType.metadataName (d : NewType) : String :=
  CommandModules.metadataName d.name d.arity

/-- What the type is declared in: the type around it, else its namespace. -/
def TypeSymbol.place (s : TypeSymbol) : Place :=
  match s.containing? with
  | some outer => .type outer
  | none => .namespace_ s.namespace_

theorem TypeSymbol.place_eq_namespace {s : TypeSymbol} {n : Nat} :
    s.place = .namespace_ n ↔ s.containing? = none ∧ s.namespace_ = n := by
  unfold place
  cases s.containing? <;> simp

theorem TypeSymbol.place_eq_type {s : TypeSymbol} {outer : TypeId} :
    s.place = .type outer ↔ s.containing? = some outer := by
  unfold place
  cases s.containing? <;> simp

namespace TypeSymbol.Becomes

variable {s s' : TypeSymbol}

theorem place_eq (h : s.Becomes s') : s'.place = s.place := by
  rw [TypeSymbol.place, h.containing, h.namespace_]
  rfl

theorem metadataName_eq (h : s.Becomes s') : s'.metadataName = s.metadataName := by
  rw [TypeSymbol.metadataName, h.name, h.arity]
  rfl

end TypeSymbol.Becomes

namespace SymbolTable

/-- The container is there. -/
def Holds (t : SymbolTable) : Place → Prop
  | .namespace_ n => n < t.namespaces.nodes.length
  | .type id => (t.get? id).isSome

/-- The names that a container lists, with the types they stand for. -/
def namesIn (t : SymbolTable) : Place → List (String × TypeId)
  | .namespace_ n => t.namespaces.entries n
  | .type id => ((t.get? id).map TypeSymbol.nested).getD []

/-- The identity of a type with this metadata name in the container. -/
def idAt (t : SymbolTable) (place : Place) (name : String) : TypeId :=
  match place with
  | .namespace_ n => .ofName (t.namespaces.qualified n name)
  | .type outer => .nested outer name

variable {t t' : SymbolTable} {id j : TypeId} {s : TypeSymbol} {d : NewType} {place : Place}
  {n : Nat} {name : String}

theorem idOf_eq_idAt (t : SymbolTable) (d : NewType) : t.idOf d = t.idAt d.place d.metadataName := by
  unfold idOf NewType.place
  dsimp only
  cases d.containing? <;> rfl

theorem symbolOf_place (t : SymbolTable) (d : NewType) : (t.symbolOf d).place = d.place := rfl

theorem lookup_namesIn_namespace (t : SymbolTable) (n : Nat) (name : String) :
    (t.namesIn (.namespace_ n)).lookup name = t.namespaces.typeIn? n name :=
  t.namespaces.lookup_entries n name

theorem lookup_namesIn_type (hs : t.get? id = some s) (name : String) :
    (t.namesIn (.type id)).lookup name = s.nested? name := by
  rw [namesIn, hs]
  rfl

theorem namesIn_namespace {ns : Namespace} (h : t.namespaces.nodes[n]? = some ns) :
    t.namesIn (.namespace_ n) = ns.types := by
  rw [namesIn, Namespaces.entries, h]
  rfl

theorem namesIn_type (hs : t.get? id = some s) : t.namesIn (.type id) = s.nested := by
  rw [namesIn, hs]
  rfl

theorem Holds.mono (h : t.Holds place) (ht : t.Extends t') : t'.Holds place := by
  cases place with
  | namespace_ n =>
    have := ht.namespace_.length_le
    simp only [Namespaces.length_paths] at this
    exact Nat.lt_of_lt_of_le h this
  | type id => exact ht.get?_isSome h

/-- Identities do not change while namespaces are added. -/
theorem idAt_of_extends (h : t.Holds place) (ht : t.Extends t') (name : String) :
    t'.idAt place name = t.idAt place name := by
  cases place with
  | namespace_ n =>
    obtain ⟨p, hp⟩ := Namespaces.lt_length_iff.1 h
    have hp' := Namespaces.path?_of_prefix ht.namespace_ hp
    simp only [idAt, Namespaces.qualified, Namespaces.path_eq hp, Namespaces.path_eq hp']
  | type id => rfl

/-! ## Indexed tables -/

/-- The order, the identities and the names in containers lead to the same types. -/
structure Indexed (t : SymbolTable) : Prop where
  order_nodup : t.order.Nodup
  order_eq : t.types.map Prod.fst = t.order
  id : ∀ id s, t.get? id = some s → s.id = id
  idAt : ∀ id s, t.get? id = some s → t.idAt s.place s.metadataName = id
  place : ∀ id s, t.get? id = some s → t.Holds s.place
  listed : ∀ id s, t.get? id = some s → (s.metadataName, id) ∈ t.namesIn s.place
  entry : ∀ place, ∀ e ∈ t.namesIn place, ∃ s, t.get? e.2 = some s ∧ s.place = place ∧
    s.metadataName = e.1
  names_nodup : ∀ place, ((t.namesIn place).map Prod.fst).Nodup

theorem mem_keys_iff : id ∈ t.types.map Prod.fst ↔ (t.get? id).isSome := by
  rw [get?]
  induction t.types with
  | nil => simp
  | cons e es ih =>
    rw [List.map_cons, List.mem_cons, List.lookup_cons, ih]
    by_cases h : id = e.1 <;> simp [h, beq_false_of_ne]

namespace Indexed

theorem mem_order_iff (h : t.Indexed) : id ∈ t.order ↔ (t.get? id).isSome := by
  rw [← h.order_eq, mem_keys_iff]

/-- A name without repetition is found where it is listed. -/
theorem lookup_eq (h : t.Indexed) (he : (name, id) ∈ t.namesIn place) :
    (t.namesIn place).lookup name = some id := by
  have hnd := h.names_nodup place
  generalize t.namesIn place = es at he hnd
  induction es with
  | nil => cases he
  | cons e es ih =>
    rw [List.map_cons, List.nodup_cons] at hnd
    rcases List.mem_cons.1 he with rfl | he
    · simp
    · have hne : name ≠ e.1 := by
        rintro rfl
        exact hnd.1 (List.mem_map.2 ⟨_, he, rfl⟩)
      rw [List.lookup_cons, beq_false_of_ne hne]
      exact ih he hnd.2

/-- A symbol is found by its name in its container. -/
theorem lookup_namesIn (h : t.Indexed) (hs : t.get? id = some s) :
    (t.namesIn s.place).lookup s.metadataName = some id :=
  h.lookup_eq (h.listed id s hs)

/-- What is found by a name in a container is a symbol with that name and container. -/
theorem of_lookup (h : t.Indexed) (hl : (t.namesIn place).lookup name = some id) :
    ∃ s, t.get? id = some s ∧ s.place = place ∧ s.metadataName = name := by
  obtain ⟨before, behind, heq, -⟩ := List.lookup_eq_some_iff.1 hl
  exact h.entry place (name, id) (by rw [heq]; simp)

/-- **A name in a container is found exactly if a symbol has it there.** -/
theorem lookup_namesIn_iff (h : t.Indexed) : (t.namesIn place).lookup name = some id ↔
    ∃ s, t.get? id = some s ∧ s.place = place ∧ s.metadataName = name := by
  refine ⟨h.of_lookup, ?_⟩
  rintro ⟨s, hs, rfl, rfl⟩
  exact h.lookup_namesIn hs

theorem empty : empty.Indexed where
  order_nodup := List.nodup_nil
  order_eq := rfl
  id _ _ h := by cases h
  idAt _ _ h := by cases h
  place _ _ h := by cases h
  listed _ _ h := by cases h
  entry place e he := by
    cases place with
    | namespace_ n => rcases n with _ | n <;> cases he
    | type id => cases he
  names_nodup place := by
    cases place with
    | namespace_ n => rcases n with _ | n <;> exact List.nodup_nil
    | type id => exact List.nodup_nil

/-- What leaves the symbols where they are and the names as they are keeps the indexes. -/
theorem of_same (h : t.Indexed) (ht : t.Extends t') (horder : t'.order = t.order)
    (hkeys : t'.types.map Prod.fst = t.types.map Prod.fst)
    (hget : ∀ id s', t'.get? id = some s' → ∃ s, t.get? id = some s ∧ s.Becomes s')
    (hnames : ∀ place, t'.namesIn place = t.namesIn place) : t'.Indexed where
  order_nodup := horder ▸ h.order_nodup
  order_eq := by rw [hkeys, horder, h.order_eq]
  id id s' hs' := by
    obtain ⟨s, hs, hb⟩ := hget id s' hs'
    exact hb.id.trans (h.id id s hs)
  idAt id s' hs' := by
    obtain ⟨s, hs, hb⟩ := hget id s' hs'
    rw [hb.place_eq, hb.metadataName_eq, idAt_of_extends (h.place id s hs) ht]
    exact h.idAt id s hs
  place id s' hs' := by
    obtain ⟨s, hs, hb⟩ := hget id s' hs'
    exact hb.place_eq ▸ (h.place id s hs).mono ht
  listed id s' hs' := by
    obtain ⟨s, hs, hb⟩ := hget id s' hs'
    rw [hnames, hb.place_eq, hb.metadataName_eq]
    exact h.listed id s hs
  entry place e he := by
    rw [hnames] at he
    obtain ⟨s, hs, hp, hn⟩ := h.entry place e he
    obtain ⟨s', hs', hb⟩ := ht.symbol _ s hs
    exact ⟨s', hs', hb.place_eq.trans hp, hb.metadataName_eq.trans hn⟩
  names_nodup place := hnames place ▸ h.names_nodup place

/-- A change of one symbol that leaves the names in it. -/
theorem modify (h : t.Indexed) {f : TypeSymbol → TypeSymbol}
    (hf : ∀ s, t.get? id = some s → s.Becomes (f s) ∧ (f s).nested = s.nested) :
    (t.modify id f).Indexed := by
  have hget {j : TypeId} {s' : TypeSymbol} (hs' : (t.modify id f).get? j = some s') :
      ∃ s, t.get? j = some s ∧ s.Becomes s' ∧ s'.nested = s.nested := by
    rw [get?_modify] at hs'
    obtain ⟨s, hs, rfl⟩ := Option.map_eq_some_iff.1 hs'
    refine ⟨s, hs, ?_⟩
    by_cases hj : j = id
    · subst hj
      simpa using hf s hs
    · simpa [hj] using TypeSymbol.Becomes.refl s
  refine h.of_same (.modify fun s hs => (hf s hs).1) rfl ?_ (fun j s' hs' => ?_) fun place => ?_
  · simp only [SymbolTable.modify, List.map_map]
    congr 1
    funext e
    simp only [Function.comp]
    split <;> rfl
  · obtain ⟨s, hs, hb, -⟩ := hget hs'
    exact ⟨s, hs, hb⟩
  · cases place with
    | namespace_ n => rfl
    | type j =>
      cases hs' : (t.modify id f).get? j with
      | none =>
        have hs : t.get? j = none := by
          rw [get?_modify] at hs'
          exact Option.map_eq_none_iff.1 hs'
        rw [namesIn, namesIn, hs, hs']
      | some s' =>
        obtain ⟨s, hs, -, hn⟩ := hget hs'
        rw [namesIn_type hs', namesIn_type hs, hn]

/-- A change of namespaces that leaves the types in them. -/
theorem namespaces (h : t.Indexed) {ns : Namespaces} (hp : t.namespaces.paths <+: ns.paths)
    (htypes : ∀ n, ns.entries n = t.namespaces.entries n) :
    Indexed { t with namespaces := ns } := by
  refine h.of_same (.namespaces hp) rfl rfl (fun id s hs => ⟨s, hs, .refl s⟩) fun place => ?_
  cases place with
  | namespace_ n => exact htypes n
  | type id => rfl

theorem createPath (h : t.Indexed) (n : Nat) (names : List String) :
    Indexed { t with namespaces := (t.namespaces.createPath n names).1 } :=
  h.namespaces (Namespaces.createPath_paths _ _ _) (by simp)

theorem addGlobalUsing (h : t.Indexed) (n : Nat) :
    Indexed { t with namespaces := t.namespaces.addGlobalUsing n } :=
  h.namespaces (by simp only [Namespaces.paths_addGlobalUsing, List.prefix_refl]) (by simp)

/-- A name that stands for a type that is not there is not listed. -/
theorem not_mem_namesIn (h : t.Indexed) (hn : t.get? (t.idAt place name) = none) :
    name ∉ (t.namesIn place).map Prod.fst := by
  intro hmem
  obtain ⟨e, he, rfl⟩ := List.mem_map.1 hmem
  obtain ⟨s, hs, rfl, hname⟩ := h.entry place e he
  rw [← hname, h.idAt e.2 s hs, hs] at hn
  cases hn

end Indexed

/-! ## New types -/

/-- A new type is listed behind the names of its container. -/
theorem namesIn_enter (hp : t.Holds d.place) (hn : t.get? (t.idOf d) = none)
    (hname : d.metadataName ∉ (t.namesIn d.place).map Prod.fst) (place : Place) :
    (t.enter d).namesIn place =
      t.namesIn place ++ if place = d.place then [(d.metadataName, t.idOf d)] else [] := by
  cases place with
  | namespace_ n =>
    rw [namesIn, namesIn, namespaces_enter]
    unfold NewType.place at hp hname ⊢
    cases hc : d.containing? with
    | some outer => simp
    | none =>
      rw [hc] at hp hname
      have hfree : t.namespaces.typeIn? d.namespace_ d.metadataName = none := by
        rw [← lookup_namesIn_namespace, List.lookup_eq_none_iff]
        intro e he
        exact bne_iff_ne.2 fun heq => hname (List.mem_map.2 ⟨e, he, heq.symm⟩)
      simp only [Place.namespace_.injEq]
      exact Namespaces.entries_register hp hfree _ _
  | type j =>
    by_cases hj : j = t.idOf d
    · -- a new type has no nested types, and it is not the type around itself
      subst hj
      have hne : ¬ Place.type (t.idOf d) = d.place := fun he => by
        rw [← he, Holds, hn] at hp
        cases hp
      rw [namesIn_type (get?_enter hn), if_neg hne, namesIn, hn]
      rfl
    · have hplace : Place.type j = d.place ↔ d.containing? = some j := by
        unfold NewType.place
        cases d.containing? <;> simp [eq_comm]
      rw [namesIn, namesIn, get?_enter_of_ne hj]
      cases hs : t.get? j with
      | none =>
        have hne : ¬ Place.type j = d.place := fun he => by
          rw [← he, Holds, hs] at hp
          cases hp
        rw [if_neg hne]
        rfl
      | some s =>
        simp only [Option.map_some, Option.getD_some, nest, hplace]
        split
        · rfl
        · rw [List.append_nil]

namespace Indexed

/-- A new type is found in all three ways. -/
theorem enter (h : t.Indexed) (hp : t.Holds d.place) (hn : t.get? (t.idOf d) = none) :
    (t.enter d).Indexed := by
  have hname : d.metadataName ∉ (t.namesIn d.place).map Prod.fst :=
    h.not_mem_namesIn (idOf_eq_idAt t d ▸ hn)
  have hnames := namesIn_enter hp hn hname
  have hext := Extends.enter t d
  -- a symbol behind the new one is the new one, or has become what it is
  have hget {j : TypeId} {s' : TypeSymbol} (hs' : (t.enter d).get? j = some s') :
      (j = t.idOf d ∧ s' = t.symbolOf d) ∨ ∃ s, t.get? j = some s ∧ s.Becomes s' := by
    by_cases hj : j = t.idOf d
    · subst hj
      rw [get?_enter hn] at hs'
      exact .inl ⟨rfl, (Option.some_inj.1 hs').symm⟩
    · rw [get?_enter_of_ne hj] at hs'
      obtain ⟨s, hs, rfl⟩ := Option.map_eq_some_iff.1 hs'
      refine .inr ⟨s, hs, ?_⟩
      unfold nest
      split
      · exact .nested s _
      · exact .refl s
  have hfree : t.idOf d ∉ t.order := by
    rw [h.mem_order_iff, hn]
    simp
  have horder : (t.enterName d).order = t.order ∧
      (t.enterName d).types.map Prod.fst = t.types.map Prod.fst := by
    unfold enterName
    dsimp only
    split
    · refine ⟨rfl, ?_⟩
      simp only [SymbolTable.modify, List.map_map]
      congr 1
      funext e
      simp only [Function.comp]
      split <;> rfl
    · exact ⟨rfl, rfl⟩
  refine ⟨?_, ?_, fun j s' hs' => ?_, fun j s' hs' => ?_, fun j s' hs' => ?_, fun j s' hs' => ?_,
    fun place e he => ?_, fun place => ?_⟩
  · show ((t.enterName d).order ++ [t.idOf d]).Nodup
    rw [horder.1, ← List.concat_eq_append]
    exact h.order_nodup.concat hfree
  · show ((t.enterName d).types ++ [(t.idOf d, t.symbolOf d)]).map Prod.fst =
      (t.enterName d).order ++ [t.idOf d]
    rw [List.map_append, horder.1, horder.2, h.order_eq]
    rfl
  · obtain ⟨rfl, rfl⟩ | ⟨s, hs, hb⟩ := hget hs'
    · rfl
    · exact hb.id.trans (h.id j s hs)
  · obtain ⟨rfl, rfl⟩ | ⟨s, hs, hb⟩ := hget hs'
    · rw [symbolOf_place, idAt_of_extends hp hext]
      exact (idOf_eq_idAt t d).symm
    · rw [hb.place_eq, hb.metadataName_eq, idAt_of_extends (h.place j s hs) hext]
      exact h.idAt j s hs
  · obtain ⟨rfl, rfl⟩ | ⟨s, hs, hb⟩ := hget hs'
    · exact hp.mono hext
    · exact hb.place_eq ▸ (h.place j s hs).mono hext
  · rw [hnames]
    obtain ⟨rfl, rfl⟩ | ⟨s, hs, hb⟩ := hget hs'
    · rw [symbolOf_place, if_pos rfl]
      exact List.mem_append_right _ (List.mem_singleton.2 rfl)
    · rw [hb.place_eq, hb.metadataName_eq]
      exact List.mem_append_left _ (h.listed j s hs)
  · rw [hnames, List.mem_append] at he
    rcases he with he | he
    · obtain ⟨s, hs, hpl, hnm⟩ := h.entry place e he
      obtain ⟨s', hs', hb⟩ := hext.symbol _ s hs
      exact ⟨s', hs', hb.place_eq.trans hpl, hb.metadataName_eq.trans hnm⟩
    · rw [List.mem_ite_nil_right, List.mem_singleton] at he
      obtain ⟨rfl, rfl⟩ := he
      exact ⟨_, get?_enter hn, rfl, rfl⟩
  · rw [hnames, List.map_append]
    split
    · rename_i hpl
      subst hpl
      rw [List.map_singleton, ← List.concat_eq_append]
      exact (h.names_nodup _).concat hname
    · simpa using h.names_nodup place

/-- **A declaration keeps the indexes.** -/
theorem declare (h : t.Indexed) (hp : t.Holds d.place) (hd : t.declare d = .ok (id, t')) :
    t'.Indexed := by
  obtain ⟨rfl, ⟨s, hs, hr, rfl⟩ | ⟨hn, rfl⟩⟩ := declare_cases hd
  · refine h.modify fun s' hs' => ?_
    obtain rfl := Option.some_inj.1 (hs.symm.trans hs')
    exact ⟨.merge hr, rfl⟩
  · exact h.enter hp hn

theorem setBases (h : t.Indexed) (id : TypeId) (base? : Option TypeRef)
    (interfaces : List TypeRef) : (t.setBases id base? interfaces).Indexed :=
  h.modify fun s _ => ⟨.bases s base? interfaces, rfl⟩

theorem contribute (h : t.Indexed) (b : BoundBases) : (t.contribute b).Indexed :=
  h.modify fun s _ => ⟨.bases s _ _, rfl⟩

end Indexed

end SymbolTable

end CommandModules

/-
  Command modules — what names mean in a table with further declarations.

  Further declarations can hide a type only where a name is looked up in the global namespace
  and is the name of a stray there.

  * `nestedAround?_eq`: a search through the types around a type comes to its end in a sound
    table, and finds the same;
  * `SymbolTable.Avoids`: the first part of a name is not that of a stray, or it is found
    before the global namespace is reached;
  * `Grows.resolveName_eq`: a name that avoids strays means the same in both tables;
  * `Sound.resolveName_knows`: what is found in a sound table is in it.
-/
import Mathlib.Data.List.TakeWhile
import CommandModules.Proofs.Symbol.Grows
import CommandModules.Proofs.Symbol.InScope

namespace CommandModules

/-- The place is in the table, and it is not the global namespace. -/
def Place.IsProper (t : SymbolTable) : Place → Prop
  | namespace_ n => n ≠ Namespaces.root
  | type id => t.Knows id

/-- The types around the name, and what aliases stand for, are in the table. -/
structure Scope.IsProper (scope : Scope) (t : SymbolTable) : Prop where
  containing : ∀ id, scope.containing? = some id → t.Knows id
  aliases : ∀ a ∈ scope.aliases, a.2.IsProper t

/-! ## Namespaces -/

namespace Namespaces

variable {s : Namespaces} {n m : Nat} {name : String} {names : List String} {p : List String}

/-- A namespace with a path is not the global one. -/
theorem ne_root (hr : s.path? root = some []) (hm : s.path? m = some p) (hp : p ≠ []) : m ≠ root := by
  rintro rfl
  exact hp (Option.some_inj.1 (hm.symm.trans hr))

theorem child?_ne_root (hr : s.path? root = some []) (h : s.child? n name = some m) : m ≠ root := by
  obtain ⟨p, -, hf⟩ := Option.bind_eq_some_iff.1 h
  exact ne_root hr (find?_path? hf) (by simp)

theorem descend?_ne_root (hr : s.path? root = some []) (hne : names ≠ [])
    (h : s.descend? n names = some m) : m ≠ root := by
  induction names generalizing n with
  | nil => exact absurd rfl hne
  | cons name names ih =>
    obtain ⟨k, hk, h⟩ := Option.bind_eq_some_iff.1 h
    cases names with
    | nil =>
      obtain rfl := Option.some_inj.1 h
      exact child?_ne_root hr hk
    | cons name' names => exact ih (by simp) h

end Namespaces

namespace SymbolTable

variable {strays : TypeId → Prop} {more : TypeId → List NodeKey} {t t' : SymbolTable}
  {id : TypeId} {name : String} {part : NamePart} {parts : List NamePart} {scope : Scope}
  {place : Place}

/-- A type nested in the types around the name, an alias of a type, or a type of a namespace
    around the name has the part as its name; the global namespace is not reached. -/
def FindsNearer (t : SymbolTable) (part : NamePart) (scope : Scope) : Prop :=
  (t.nestedAround? part.metadataName (t.types.length + 1) scope.containing?).isSome ∨
  (∃ id, aliased? part scope = some (.type id)) ∨
  ∃ n ∈ (t.namespaces.enclosing scope.namespace_).takeWhile (· ≠ Namespaces.root),
    (t.namespaces.typeIn? n part.metadataName).isSome

/-- A stray has the name, and the global namespace has no type of the name without it. -/
def Captures (strays : TypeId → Prop) (t : SymbolTable) (name : String) : Prop :=
  strays (.ofName name) ∧ t.namespaces.typeIn? Namespaces.root name = none

/-- The name is not looked up in the global namespace under the name of a stray. -/
def Avoids (strays : TypeId → Prop) (t : SymbolTable) (parts : List NamePart) (isGlobal : Bool)
    (scope : Scope) : Prop :=
  match parts with
  | [] => True
  | first :: rest => ¬ t.Captures strays first.metadataName ∨
      isGlobal = false ∧ (t.FindsNearer first scope ∨ rest ≠ [] ∧ (aliased? first scope).isSome)

/-! ## What is found is in the table -/

theorem typeAt_knows {place? : Option Place} (hp : ∀ p, place? = some p → p.IsProper t)
    (h : typeAt place? = .found id) : t.Knows id := by
  unfold typeAt at h
  split at h
  · rename_i id' hid
    obtain rfl := Resolution.found.inj h
    obtain ⟨p, rfl, hpt⟩ := Option.bind_eq_some_iff.1 hid
    cases p with
    | namespace_ n => cases hpt
    | type id =>
      obtain rfl := Option.some_inj.1 hpt
      exact hp _ rfl
  · cases h

namespace Sound

variable (hs : t.Sound)
include hs

theorem nestedAround?_knows {depth : Nat} {around? : Option TypeId}
    (h : t.nestedAround? name depth around? = some id) : t.Knows id := by
  induction depth generalizing around? with
  | zero => cases h
  | succ depth ih =>
    cases around? with
    | none => cases h
    | some outer =>
      obtain ⟨s, hget, h⟩ := Option.bind_eq_some_iff.1 h
      split at h
      · rename_i nested hn
        obtain rfl := Option.some_inj.1 h
        obtain ⟨as, bs, heq, -⟩ := List.lookup_eq_some_iff.1 hn
        exact hs.nested outer s hget (name, nested) (by simp [heq])
      · exact ih h

theorem resolveType_knows (h : t.namespaces.resolveType name scope = .found id) : t.Knows id := by
  unfold Namespaces.resolveType at h
  split at h
  · rename_i id' hf
    obtain rfl := Resolution.found.inj h
    obtain ⟨n, -, hn⟩ := List.exists_of_findSome?_eq_some hf
    exact hs.types n name _ hn
  · split at h
    · cases h
    · rename_i m hm
      obtain rfl := Resolution.found.inj h
      have hmem : m ∈ t.namespaces.typesIn name (scope.imports ++ t.namespaces.globalUsings) := by
        rw [hm]
        exact List.mem_singleton.2 rfl
      exact hs.types m.1 name m.2 (Namespaces.typeIn?_of_mem_typesIn hmem).2
    · cases h

theorem resolveSimple_knows (hsc : scope.IsProper t)
    (h : t.resolveSimple part scope = .found id) : t.Knows id := by
  unfold resolveSimple at h
  split at h
  · rename_i id' hn
    obtain rfl := Resolution.found.inj h
    exact hs.nestedAround?_knows hn
  · split at h
    · rename_i id' ha
      obtain rfl := Resolution.found.inj h
      unfold aliased? at ha
      split at ha
      · obtain ⟨as, bs, heq, -⟩ := List.lookup_eq_some_iff.1 ha
        exact hsc.aliases (part.name, .type id') (by simp [heq])
      · cases ha
    · exact hs.resolveType_knows h

/-- A step along a dotted name leads to a type of the table or to a namespace that is not
    the global one. -/
theorem member?_proper {place' : Place} (h : t.member? place part = some place') :
    place'.IsProper t := by
  unfold member? at h
  split at h
  · split at h
    · rename_i id hid
      obtain rfl := Option.some_inj.1 h
      exact hs.types _ _ id hid
    · split at h
      · obtain ⟨m, hm, rfl⟩ := Option.map_eq_some_iff.1 h
        exact Namespaces.child?_ne_root hs.root hm
      · cases h
  · rename_i outer
    obtain ⟨s, hget, h⟩ := Option.bind_eq_some_iff.1 h
    obtain ⟨nested, hn, rfl⟩ := Option.map_eq_some_iff.1 h
    obtain ⟨as, bs, heq, -⟩ := List.lookup_eq_some_iff.1 hn
    exact hs.nested outer s hget (part.metadataName, nested) (by simp [heq])

theorem follow?_proper {place' : Place} (hp : place.IsProper t)
    (h : t.follow? place parts = some place') : place'.IsProper t := by
  induction parts generalizing place with
  | nil =>
    obtain rfl := Option.some_inj.1 h
    exact hp
  | cons part parts ih =>
    obtain ⟨p, hm, h⟩ := Option.bind_eq_some_iff.1 h
    exact ih (hs.member?_proper hm) h

/-- Where the first part of a dotted name leads. -/
theorem resolveLeading_proper (hsc : scope.IsProper t)
    (h : t.resolveLeading part scope = .found place) : place.IsProper t := by
  unfold resolveLeading at h
  split at h
  · rename_i p ha
    obtain rfl := Resolution.found.inj h
    unfold aliased? at ha
    split at ha
    · obtain ⟨as, bs, heq, -⟩ := List.lookup_eq_some_iff.1 ha
      exact hsc.aliases (part.name, _) (by simp [heq])
    · cases ha
  · cases hr : t.resolveSimple part scope with
    | found id =>
      rw [hr] at h
      obtain rfl := Resolution.found.inj h
      exact hs.resolveSimple_knows hsc hr
    | ambiguous ms =>
      rw [hr] at h
      cases h
    | notFound =>
      rw [hr] at h
      dsimp only at h
      split at h
      · split at h
        · rename_i n hn
          obtain rfl := Resolution.found.inj h
          obtain ⟨m, -, hm⟩ := List.exists_of_findSome?_eq_some hn
          exact Namespaces.child?_ne_root hs.root hm
        · cases h
      · cases h

/-- **What a name means is in the table.** -/
theorem resolveName_knows {isGlobal : Bool} (hsc : scope.IsProper t)
    (h : t.resolveName parts isGlobal scope = .found id) : t.Knows id := by
  unfold resolveName at h
  split at h
  · cases h
  · rename_i first rest
    split at h
    · refine typeAt_knows (fun p hp => ?_) h
      obtain ⟨q, hm, hp⟩ := Option.bind_eq_some_iff.1 hp
      exact hs.follow?_proper (hs.member?_proper hm) hp
    · split at h
      · exact hs.resolveSimple_knows hsc h
      · split at h
        · rename_i place hl
          exact typeAt_knows (fun p hp => hs.follow?_proper (hs.resolveLeading_proper hsc hl) hp) h
        · cases h
        · cases h

end Sound

/-! ## The same in both tables -/

namespace Grows

variable (h : Grows strays more t t')
include h

theorem typeIn?_eq {n : Nat} (hn : ¬ t.Captures strays name ∨ n ≠ Namespaces.root) :
    t'.namespaces.typeIn? n name = t.namespaces.typeIn? n name := by
  rcases h.types n name with he | ⟨hr, hs, hnone⟩
  · exact he
  · subst hr
    exact absurd ⟨hs, hnone⟩ (hn.resolve_right (not_not.2 rfl))

theorem typeIn?_funext (hn : ¬ t.Captures strays name) :
    (fun n => t'.namespaces.typeIn? n name) = fun n => t.namespaces.typeIn? n name :=
  funext fun _ => h.typeIn?_eq (.inl hn)

/-- Further types do not make the search longer than it may be: types come behind those
    around them. -/
theorem nestedAround?_eq (hs : t.Sound) {around? : Option TypeId}
    (ha : ∀ id, around? = some id → t.Knows id) :
    t'.nestedAround? name (t'.types.length + 1) around? = t.nestedAround? name (t.types.length + 1) around? := by
  obtain ⟨rank, hrank⟩ := hs.rank
  have main (depth depth' : Nat) (around? : Option TypeId) (ha : ∀ id, around? = some id →
      t.Knows id ∧ rank id < depth ∧ rank id < depth') :
      t'.nestedAround? name depth' around? = t.nestedAround? name depth around? := by
    induction depth generalizing depth' around? with
    | zero =>
      cases around? with
      | none => cases depth' <;> rfl
      | some id => exact absurd (ha id rfl).2.1 (Nat.not_lt_zero _)
    | succ depth ih =>
      cases around? with
      | none => cases depth' <;> rfl
      | some id =>
        obtain ⟨hk, hd, hd'⟩ := ha id rfl
        obtain ⟨depth', rfl⟩ : ∃ k, depth' = k + 1 := ⟨depth' - 1, by omega⟩
        obtain ⟨s, hget⟩ := Option.isSome_iff_exists.1 hk
        obtain ⟨s', hget', hm⟩ := h.old id s hget
        have hnested : s'.nested? name = s.nested? name := by
          rw [hm.alike]
          rfl
        have hcont : s'.containing? = s.containing? := by rw [hm.alike]
        rw [nestedAround?, nestedAround?, hget, hget']
        simp only [Option.bind_eq_bind, Option.bind_some, hnested, hcont]
        cases s.nested? name with
        | some nested => rfl
        | none =>
          refine ih depth' s.containing? fun outer ho => ?_
          obtain ⟨hout, hlt⟩ := (hrank id s hget).2 outer ho
          exact ⟨hout, by omega, by omega⟩
  refine main _ _ around? fun id hid => ⟨ha id hid, ?_⟩
  obtain ⟨s, hget⟩ := Option.isSome_iff_exists.1 (ha id hid)
  have := (hrank id s hget).1
  have := h.size
  omega

theorem resolveType_eq (hn : ¬ t.Captures strays name ∨
      ∃ n ∈ (t.namespaces.enclosing scope.namespace_).takeWhile (· ≠ Namespaces.root),
        (t.namespaces.typeIn? n name).isSome) :
    t'.namespaces.resolveType name scope = t.namespaces.resolveType name scope := by
  unfold Namespaces.resolveType
  rw [Namespaces.enclosing_congr h.paths]
  rcases hn with hn | ⟨n, hmem, hsome⟩
  · rw [h.typeIn?_funext hn]
    unfold Namespaces.typesIn
    simp only [h.typeIn?_eq (.inl hn), h.globalUsings]
  · -- the first namespaces are not the global one, and one of them has the type
    generalize t.namespaces.enclosing scope.namespace_ = ns at hmem
    have hfirst (f : Nat → Option TypeId) (hf : (f n).isSome) :
        ns.findSome? f = (ns.takeWhile (· ≠ Namespaces.root)).findSome? f := by
      have hsplit := List.takeWhile_append_dropWhile (p := (· ≠ Namespaces.root)) (l := ns)
      conv => lhs; rw [← hsplit]
      rw [List.findSome?_append, Option.or_of_isSome]
      exact List.findSome?_isSome_iff.2 ⟨n, hmem, hf⟩
    have hne : n ≠ Namespaces.root := by simpa using List.mem_takeWhile_imp hmem
    have heq : ns.findSome? (fun n => t'.namespaces.typeIn? n name) =
        ns.findSome? fun n => t.namespaces.typeIn? n name := by
      rw [hfirst (fun n => t.namespaces.typeIn? n name) hsome,
        hfirst (fun n => t'.namespaces.typeIn? n name) (by rw [h.typeIn?_eq (.inr hne)]; exact hsome)]
      have hproper : ∀ m ∈ ns.takeWhile (· ≠ Namespaces.root), m ≠ Namespaces.root := fun m hm => by
        simpa using List.mem_takeWhile_imp hm
      generalize ns.takeWhile (· ≠ Namespaces.root) = ms at hproper
      induction ms with
      | nil => rfl
      | cons m ms ih =>
        obtain ⟨hm, hms⟩ := List.forall_mem_cons.1 hproper
        rw [List.findSome?_cons, List.findSome?_cons, h.typeIn?_eq (.inr hm), ih hms]
    rw [heq]
    have hfound : (ns.findSome? fun n => t.namespaces.typeIn? n name).isSome :=
      List.findSome?_isSome_iff.2 ⟨n, (List.takeWhile_sublist _).subset hmem, hsome⟩
    obtain ⟨id, hid⟩ := Option.isSome_iff_exists.1 hfound
    rw [hid]

theorem resolveSimple_eq (hs : t.Sound) (hsc : scope.IsProper t)
    (hn : ¬ t.Captures strays part.metadataName ∨ t.FindsNearer part scope) :
    t'.resolveSimple part scope = t.resolveSimple part scope := by
  unfold resolveSimple
  rw [h.nestedAround?_eq hs hsc.containing]
  cases hnested : t.nestedAround? part.metadataName (t.types.length + 1) scope.containing? with
  | some id => rfl
  | none =>
    dsimp only
    split
    · rfl
    · rename_i halias
      refine h.resolveType_eq (hn.imp_right fun hn => ?_)
      rcases hn with hn | ⟨id, ha⟩ | hn
      · rw [hnested] at hn
        cases hn
      · exact absurd ha (halias id)
      · exact hn

theorem member?_eq (hp : place.IsProper t ∨
      ∃ n, place = .namespace_ n ∧ ¬ t.Captures strays part.metadataName) :
    t'.member? place part = t.member? place part := by
  cases place with
  | namespace_ n =>
    unfold member?
    dsimp only
    rw [h.typeIn?_eq, Namespaces.child?_congr h.paths]
    rcases hp with hp | ⟨-, -, hp⟩
    · exact .inr hp
    · exact .inl hp
  | type id =>
    have hk : t.Knows id := by
      rcases hp with hp | ⟨_, hp, -⟩
      · exact hp
      · cases hp
    obtain ⟨s, hget⟩ := Option.isSome_iff_exists.1 hk
    obtain ⟨s', hget', hm⟩ := h.old id s hget
    have hnested : s'.nested? part.metadataName = s.nested? part.metadataName := by
      rw [hm.alike]
      rfl
    simp only [member?, hget, hget', Option.bind_eq_bind, Option.bind_some, hnested]

theorem follow?_eq (hs : t.Sound) (hp : place.IsProper t) :
    t'.follow? place parts = t.follow? place parts := by
  induction parts generalizing place with
  | nil => rfl
  | cons part parts ih =>
    rw [follow?, follow?, h.member?_eq (.inl hp)]
    cases hm : t.member? place part with
    | none => rfl
    | some p => exact ih (hs.member?_proper hm)

theorem resolveLeading_eq (hs : t.Sound) (hsc : scope.IsProper t)
    (hn : ¬ t.Captures strays part.metadataName ∨ t.FindsNearer part scope ∨
      (aliased? part scope).isSome) :
    t'.resolveLeading part scope = t.resolveLeading part scope := by
  unfold resolveLeading
  cases ha : aliased? part scope with
  | some place => rfl
  | none =>
    dsimp only
    rw [h.resolveSimple_eq hs hsc (hn.imp_right fun hn => hn.resolve_right (by simp [ha]))]
    have hns : t'.namespaces.resolveNamespace? part.name scope =
        t.namespaces.resolveNamespace? part.name scope := by
      unfold Namespaces.resolveNamespace?
      rw [Namespaces.enclosing_congr h.paths]
      simp only [Namespaces.child?_congr h.paths]
    rw [hns]

/-- **A name that avoids strays means the same in both tables.** -/
theorem resolveName_eq (hs : t.Sound) (hsc : scope.IsProper t) {isGlobal : Bool}
    (hn : Avoids strays t parts isGlobal scope) :
    t'.resolveName parts isGlobal scope = t.resolveName parts isGlobal scope := by
  cases parts with
  | nil => rfl
  | cons first rest =>
    unfold resolveName
    dsimp only
    cases isGlobal with
    | true =>
      have hfirst : ¬ t.Captures strays first.metadataName := hn.resolve_right (by simp)
      rw [if_pos rfl, if_pos rfl, follow?, follow?, h.member?_eq (.inr ⟨_, rfl, hfirst⟩)]
      cases hm : t.member? (.namespace_ Namespaces.root) first with
      | none => rfl
      | some p =>
        simp only [Option.bind_eq_bind, Option.bind_some]
        rw [h.follow?_eq hs (hs.member?_proper hm)]
    | false =>
      rw [if_neg Bool.false_ne_true, if_neg Bool.false_ne_true]
      cases rest with
      | nil =>
        refine h.resolveSimple_eq hs hsc (hn.imp_right fun hn => ?_)
        exact hn.2.resolve_right (by simp)
      | cons part rest =>
        rw [if_neg (by simp), if_neg (by simp), h.resolveLeading_eq hs hsc
          (hn.imp_right fun hn => hn.2.imp_right And.right)]
        split
        · rename_i place hl
          rw [h.follow?_eq hs (hs.resolveLeading_proper hsc hl)]
        · rfl
        · rfl

end Grows

end SymbolTable

end CommandModules

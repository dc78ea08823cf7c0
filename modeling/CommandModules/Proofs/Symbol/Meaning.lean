/-
  Command modules — names in tables that agree.

  * `Resolution.Rel`: both meanings are the same, or both names are ambiguous, or neither has a
    meaning; what an ambiguous name may mean can be listed differently;
  * `Scope.Agrees`: two scopes are at the same place;
  * `Agrees.resolveName`: a name means the same in tables that agree.
-/
import CommandModules.Proofs.Symbol.Agree
import CommandModules.Proofs.Symbol.InScope

namespace CommandModules

/-- Related meanings, or none on both sides for the same reason. -/
inductive Resolution.Rel {α β : Type} (R : α → β → Prop) : Resolution α → Resolution β → Prop
  | found {a : α} {b : β} (h : R a b) : Rel R (.found a) (.found b)
  | ambiguous (as : List (Nat × α)) (bs : List (Nat × β)) : Rel R (.ambiguous as) (.ambiguous bs)
  | notFound : Rel R .notFound .notFound

theorem Resolution.Rel.get? {α β : Type} {R : α → β → Prop} {r : Resolution α} {r' : Resolution β}
    (h : r.Rel R r') : Option.Rel R r.get? r'.get? := by
  cases h with
  | found h => exact .some h
  | ambiguous => exact .none
  | notFound => exact .none

/-- The scopes are at the same place, behind the same using directives. -/
structure Scope.Agrees (s s' : Namespaces) (scope scope' : Scope) : Prop where
  namespace_ : Namespaces.Same s s' scope.namespace_ scope'.namespace_
  containing : scope'.containing? = scope.containing?
  imports : Namespaces.SameAll s s' scope.imports scope'.imports
  aliases : List.Forall₂ (fun a a' => a.1 = a'.1 ∧ a.2.Agrees s s' a'.2) scope.aliases scope'.aliases

/-- Resolutions with the same meanings. -/
theorem Resolution.Same.rel {α : Type} {r r' : Resolution α} (h : r.Same r') : r.Rel (· = ·) r' := by
  cases h with
  | found a => exact .found rfl
  | ambiguous => exact .ambiguous _ _
  | notFound => exact .notFound

namespace SymbolTable.Agrees

open Namespaces

variable {t t' : SymbolTable} {scope scope' : Scope} {place place' : Place} {name : String}
  {part : NamePart} {parts : List NamePart}

variable (h : t.Agrees t')
include h

/-! ## Types in scope -/

/-- The same types are imported. -/
theorem imported_iff (hsc : scope.Agrees t.namespaces t'.namespaces scope') (name : String)
    (id : TypeId) : t.namespaces.Imported name scope id ↔ t'.namespaces.Imported name scope' id := by
  have hns := hsc.imports.append h.globalUsings
  constructor
  · rintro ⟨n, hn, hid⟩
    obtain ⟨n', hn', hsame⟩ := hns.left n hn
    exact ⟨n', hn', (h.typeIn?_eq hsame name).trans hid⟩
  · rintro ⟨n', hn', hid⟩
    obtain ⟨n, hn, hsame⟩ := hns.right n' hn'
    exact ⟨n, hn, (h.typeIn?_eq hsame name).symm.trans hid⟩

/-- **A type in scope** is the same. -/
theorem resolveType (hsc : scope.Agrees t.namespaces t'.namespaces scope') (name : String) :
    (t.namespaces.resolveType name scope).Rel (· = ·) (t'.namespaces.resolveType name scope') := by
  refine (resolveType_same ?_ (h.imported_iff hsc name)).rel
  exact rel_eq_iff.1 (rel_findSome? (h.spaces.rel_enclosing hsc.namespace_) fun _ _ hn =>
    rel_eq_iff.2 (h.typeIn?_eq hn name).symm)

/-! ## Names of one part -/

omit h in
theorem aliased? (hsc : scope.Agrees t.namespaces t'.namespaces scope') (part : NamePart) :
    Option.Rel (Place.Agrees t.namespaces t'.namespaces) (SymbolTable.aliased? part scope)
      (SymbolTable.aliased? part scope') := by
  unfold SymbolTable.aliased?
  split
  · exact rel_lookup part.name hsc.aliases
  · exact .none

theorem resolveSimple (hsc : scope.Agrees t.namespaces t'.namespaces scope') (part : NamePart) :
    (t.resolveSimple part scope).Rel (· = ·) (t'.resolveSimple part scope') := by
  unfold SymbolTable.resolveSimple
  rw [h.nestedAround?_eq, h.length_types_eq, hsc.containing]
  split
  · exact .found rfl
  · have hrel := aliased? hsc part
    generalize SymbolTable.aliased? part scope = p, SymbolTable.aliased? part scope' = p' at hrel
    cases hrel with
    | none => exact h.resolveType hsc _
    | some hplace =>
      cases hplace with
      | namespace_ => exact h.resolveType hsc _
      | type id => exact .found rfl

theorem resolveNamespace? (hsc : scope.Agrees t.namespaces t'.namespaces scope') (name : String) :
    Option.Rel (Same t.namespaces t'.namespaces) (t.namespaces.resolveNamespace? name scope)
      (t'.namespaces.resolveNamespace? name scope') :=
  rel_findSome? (h.spaces.rel_enclosing hsc.namespace_) fun _ _ hn => h.spaces.rel_child? hn name

theorem resolveLeading (hsc : scope.Agrees t.namespaces t'.namespaces scope') (part : NamePart) :
    (t.resolveLeading part scope).Rel (Place.Agrees t.namespaces t'.namespaces)
      (t'.resolveLeading part scope') := by
  unfold SymbolTable.resolveLeading
  have hrel := aliased? hsc part
  generalize SymbolTable.aliased? part scope = p, SymbolTable.aliased? part scope' = p' at hrel
  cases hrel with
  | some hplace => exact .found hplace
  | none =>
    have hsimple := h.resolveSimple hsc part
    generalize t.resolveSimple part scope = r, t'.resolveSimple part scope' = r' at hsimple
    cases hsimple with
    | found hid => exact hid ▸ .found (.type _)
    | ambiguous => exact .ambiguous _ _
    | notFound =>
      dsimp only
      split
      · have hspace := h.resolveNamespace? hsc part.name
        generalize t.namespaces.resolveNamespace? part.name scope = n,
          t'.namespaces.resolveNamespace? part.name scope' = n' at hspace
        cases hspace with
        | some hn => exact .found (.namespace_ hn)
        | none => exact .notFound
      · exact .notFound

/-! ## Dotted names -/

theorem member? (hp : place.Agrees t.namespaces t'.namespaces place') (part : NamePart) :
    Option.Rel (Place.Agrees t.namespaces t'.namespaces) (t.member? place part)
      (t'.member? place' part) := by
  cases hp with
  | namespace_ hn =>
    unfold SymbolTable.member?
    dsimp only
    rw [h.typeIn?_eq hn]
    split
    · exact .some (.type _)
    · split
      · exact rel_map (h.spaces.rel_child? hn part.name) fun _ _ => .namespace_
      · exact .none
  | type id =>
    unfold SymbolTable.member?
    dsimp only
    cases hs : t.get? id with
    | none =>
      rw [h.get?_eq_none hs]
      exact .none
    | some s =>
      obtain ⟨s', hs', -⟩ := h.get?_right hs
      simp only [hs', Option.bind_eq_bind, Option.bind_some, h.nested?_eq hs hs']
      cases s.nested? part.metadataName with
      | none => exact .none
      | some nested => exact .some (.type nested)

theorem follow? (hp : place.Agrees t.namespaces t'.namespaces place') (parts : List NamePart) :
    Option.Rel (Place.Agrees t.namespaces t'.namespaces) (t.follow? place parts)
      (t'.follow? place' parts) := by
  induction parts generalizing place place' with
  | nil => exact .some hp
  | cons part parts ih => exact rel_bind (h.member? hp part) fun _ _ => ih

omit h in
theorem typeAt {place? place'? : Option Place}
    (hp : Option.Rel (Place.Agrees t.namespaces t'.namespaces) place? place'?) :
    (SymbolTable.typeAt place?).Rel (· = ·) (SymbolTable.typeAt place'?) := by
  cases hp with
  | some hp =>
    cases hp with
    | namespace_ => exact .notFound
    | type id => exact .found rfl
  | none => exact .notFound

/-- **A name means the same** in tables that agree. -/
theorem resolveName (hsc : scope.Agrees t.namespaces t'.namespaces scope') (parts : List NamePart)
    (isGlobal : Bool) : (t.resolveName parts isGlobal scope).Rel (· = ·)
      (t'.resolveName parts isGlobal scope') := by
  unfold SymbolTable.resolveName
  split
  · exact .notFound
  · rename_i first rest
    split
    · exact typeAt (h.follow? (.namespace_ h.root) _)
    · split
      · exact h.resolveSimple hsc first
      · have hlead := h.resolveLeading hsc first
        generalize t.resolveLeading first scope = r, t'.resolveLeading first scope' = r' at hlead
        cases hlead with
        | found hplace => exact typeAt (h.follow? hplace rest)
        | ambiguous => exact .ambiguous _ _
        | notFound => exact .notFound

end SymbolTable.Agrees

end CommandModules

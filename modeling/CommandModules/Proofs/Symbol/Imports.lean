/-
  Command modules — tables that differ in imports alone.

  * `SymbolTable.SameTypes`: two tables have the same namespaces and types, though other
    namespaces may be imported everywhere;
  * `Scope.SameNames`: two scopes are at the same place and know the same aliases, in whatever
    order;
  * `SameTypes.resolveName`: a name means the same in both, if its first part does as the name of
    a type in scope;
  * `SymbolTable.SameImports`: the same namespaces are imported everywhere, in whatever order, and
    so all names mean the same.
-/
import CommandModules.Proofs.Symbol.Meaning

namespace CommandModules

open Namespaces

/-- The scopes are at the same place, and the same aliases are found. -/
structure Scope.SameNames (scope scope' : Scope) : Prop where
  namespace_ : scope'.namespace_ = scope.namespace_
  containing : scope'.containing? = scope.containing?
  imports : scope'.imports = scope.imports
  aliases : ∀ name, scope'.aliases.lookup name = scope.aliases.lookup name

theorem Scope.SameNames.refl (scope : Scope) : scope.SameNames scope :=
  ⟨rfl, rfl, rfl, fun _ => rfl⟩

namespace SymbolTable

variable {t t' : SymbolTable} {scope scope' : Scope} {place : Place} {part : NamePart}
  {parts : List NamePart} {isGlobal : Bool}

/-- The tables have the same namespaces and the same types. -/
structure SameTypes (t t' : SymbolTable) : Prop where
  nodes : t'.namespaces.nodes = t.namespaces.nodes
  types : t'.types = t.types
  order : t'.order = t.order

/-- The same namespaces are imported everywhere besides. -/
structure SameImports (t t' : SymbolTable) : Prop extends SameTypes t t' where
  globals : ∀ n, n ∈ t'.namespaces.globalUsings ↔ n ∈ t.namespaces.globalUsings

namespace SameTypes

section
variable (h : t.SameTypes t')
include h

theorem symm : t'.SameTypes t :=
  ⟨h.nodes.symm, h.types.symm, h.order.symm⟩

theorem trans {u : SymbolTable} (hu : t'.SameTypes u) : t.SameTypes u :=
  ⟨hu.nodes.trans h.nodes, hu.types.trans h.types, hu.order.trans h.order⟩

theorem paths : t'.namespaces.paths = t.namespaces.paths :=
  congrArg (List.map Namespace.path) h.nodes

theorem get?_eq (id : TypeId) : t'.get? id = t.get? id :=
  congrArg (List.lookup id) h.types

theorem typeIn?_eq (n : Nat) (name : String) :
    t'.namespaces.typeIn? n name = t.namespaces.typeIn? n name := by
  rw [Namespaces.typeIn?_eq, Namespaces.typeIn?_eq, h.nodes]

theorem nestedAround?_eq (name : String) (depth : Nat) (around? : Option TypeId) :
    t'.nestedAround? name depth around? = t.nestedAround? name depth around? := by
  induction depth generalizing around? with
  | zero => rfl
  | succ depth ih =>
    cases around? with
    | none => rfl
    | some id => simp only [nestedAround?, h.get?_eq, ih]

theorem member?_eq (place : Place) (part : NamePart) :
    t'.member? place part = t.member? place part := by
  cases place with
  | namespace_ n => simp only [member?, h.typeIn?_eq, Namespaces.child?_congr h.paths]
  | type id => simp only [member?, h.get?_eq]

theorem follow?_eq (place : Place) (parts : List NamePart) :
    t'.follow? place parts = t.follow? place parts := by
  induction parts generalizing place with
  | nil => rfl
  | cons part parts ih => simp only [follow?, h.member?_eq, ih]

/-! ## Names -/

omit h in
theorem aliased?_eq (hsc : scope.SameNames scope') (part : NamePart) :
    aliased? part scope' = aliased? part scope := by
  unfold aliased?
  rw [hsc.aliases]

theorem resolveSimple (hsc : scope.SameNames scope')
    (hpart : (t.namespaces.resolveType part.metadataName scope).Same
      (t'.namespaces.resolveType part.metadataName scope')) :
    (t.resolveSimple part scope).Rel (· = ·) (t'.resolveSimple part scope') := by
  unfold SymbolTable.resolveSimple
  rw [h.nestedAround?_eq, h.types, hsc.containing, aliased?_eq hsc]
  split
  · exact .found rfl
  · split
    · exact .found rfl
    · exact hpart.rel

theorem resolveLeading (hsc : scope.SameNames scope')
    (hpart : (t.namespaces.resolveType part.metadataName scope).Same
      (t'.namespaces.resolveType part.metadataName scope')) :
    (t.resolveLeading part scope).Rel (· = ·) (t'.resolveLeading part scope') := by
  unfold SymbolTable.resolveLeading
  rw [aliased?_eq hsc]
  cases aliased? part scope with
  | some place => exact .found rfl
  | none =>
    have hsimple := h.resolveSimple hsc hpart
    generalize t.resolveSimple part scope = r, t'.resolveSimple part scope' = r' at hsimple
    cases hsimple with
    | found hid => exact .found (congrArg Place.type hid)
    | ambiguous => exact .ambiguous _ _
    | notFound =>
      have hspace : t'.namespaces.resolveNamespace? part.name scope' =
          t.namespaces.resolveNamespace? part.name scope := by
        unfold resolveNamespace?
        rw [Namespaces.enclosing_congr h.paths, hsc.namespace_]
        simp only [Namespaces.child?_congr h.paths]
      dsimp only
      rw [hspace]
      split
      · split
        · exact .found rfl
        · exact .notFound
      · exact .notFound

/-- **A name means the same** if its first part does. -/
theorem resolveName (hsc : scope.SameNames scope')
    (hfirst : isGlobal = false → ∀ first ∈ parts.head?,
      (t.namespaces.resolveType first.metadataName scope).Same
        (t'.namespaces.resolveType first.metadataName scope')) :
    (t.resolveName parts isGlobal scope).Rel (· = ·) (t'.resolveName parts isGlobal scope') := by
  have same (place? : Option Place) : (typeAt place?).Rel (· = ·) (typeAt place?) := by
    cases typeAt place? with
    | found id => exact .found rfl
    | ambiguous => exact .ambiguous _ _
    | notFound => exact .notFound
  unfold SymbolTable.resolveName
  cases parts with
  | nil => exact .notFound
  | cons first rest =>
    simp only [h.follow?_eq]
    cases isGlobal with
    | true => exact same _
    | false =>
      have hpart := hfirst rfl first rfl
      simp only [Bool.false_eq_true, if_false]
      split
      · exact h.resolveSimple hsc hpart
      · have hlead := h.resolveLeading hsc hpart
        generalize t.resolveLeading first scope = r, t'.resolveLeading first scope' = r' at hlead
        cases hlead with
        | found hplace => exact hplace ▸ same _
        | ambiguous => exact .ambiguous _ _
        | notFound => exact .notFound

end

end SameTypes

namespace SameImports

variable (h : t.SameImports t')
include h

/-- **A type in scope** is the same, whatever the order of what is imported everywhere. -/
theorem resolveType (hsc : scope.SameNames scope') (name : String) :
    (t.namespaces.resolveType name scope).Same (t'.namespaces.resolveType name scope') := by
  have htypes : t'.namespaces.typeIn? = t.namespaces.typeIn? :=
    funext fun n => funext (h.typeIn?_eq n)
  refine resolveType_same ?_ fun id => exists_congr fun n => ?_
  · rw [htypes, hsc.namespace_, Namespaces.enclosing_congr h.paths]
  · rw [htypes, hsc.imports, List.mem_append, List.mem_append, h.globals]

theorem resolveName (hsc : scope.SameNames scope') (parts : List NamePart) (isGlobal : Bool) :
    (t.resolveName parts isGlobal scope).Rel (· = ·) (t'.resolveName parts isGlobal scope') :=
  h.toSameTypes.resolveName hsc fun _ first _ => h.resolveType hsc first.metadataName

end SameImports

end SymbolTable

end CommandModules

/-
  Command modules — dotted names beside names of one part.

  A name of one part is looked up among nested types before it is looked up among aliases.
  The first part of a dotted name is looked up among aliases before anything else, be they
  aliases of types or of namespaces, so the same identifier can mean different types.

  * `SymbolTable.nestedAlong?` goes down from a type through types nested in it;
  * `resolveName_of_alias`, `resolveName_of_simple`: where a dotted name leads;
  * `resolveName_nested_iff`: it leads to the type nested in what its first part means alone
    just if no alias of that part leads elsewhere.
-/
import CommandModules.Proofs.Symbol.Table

namespace CommandModules.SymbolTable

variable {t : SymbolTable} {id inner : TypeId} {part : NamePart} {parts : List NamePart}
  {scope : Scope} {place : Place}

/-- The type nested in a type, one level deeper with each part of a name. -/
def nestedAlong? (t : SymbolTable) (id : TypeId) : List NamePart → Option TypeId
  | [] => some id
  | part :: parts => do
    let s ← t.get? id
    t.nestedAlong? (← s.nested? part.metadataName) parts

theorem follow?_of_nestedAlong (h : t.nestedAlong? id parts = some inner) :
    t.follow? (.type id) parts = some (.type inner) := by
  induction parts generalizing id with
  | nil => exact congrArg (Option.map Place.type) h
  | cons part parts ih =>
    obtain ⟨s, hs, h⟩ := Option.bind_eq_some_iff.1 h
    obtain ⟨nested, hn, h⟩ := Option.bind_eq_some_iff.1 h
    have hmember : t.member? (.type id) part = some (.type nested) := by
      simp [member?, hs, hn]
    rw [follow?, hmember]
    exact ih h

theorem typeAt_eq_found_iff {place? : Option Place} :
    typeAt place? = .found id ↔ place? = some (.type id) := by
  unfold typeAt
  cases place? with
  | none => simp
  | some place => cases place <;> simp [Place.type?]

/-- An alias comes first. -/
theorem resolveName_of_alias (ha : aliased? part scope = some place) (hne : parts ≠ []) :
    t.resolveName (part :: parts) false scope = typeAt (t.follow? place parts) := by
  simp [resolveName, resolveLeading, ha, hne]

/-- Without an alias, the first part means what it means alone. -/
theorem resolveName_of_simple (ha : aliased? part scope = none)
    (h : t.resolveSimple part scope = .found id) :
    t.resolveName (part :: parts) false scope = typeAt (t.follow? (.type id) parts) := by
  cases parts with
  | nil => simp [resolveName, h, follow?, typeAt, Place.type?]
  | cons next rest => simp [resolveName, resolveLeading, ha, h, Resolution.map]

/-- **A dotted name leads to the type nested in what its first part means alone** just if no
    alias of that part leads elsewhere: aliases come first in a dotted name, but behind nested
    types in a name of one part. -/
theorem resolveName_nested_iff (h : t.resolveSimple part scope = .found id)
    (hp : t.nestedAlong? id parts = some inner) :
    t.resolveName (part :: parts) false scope = .found inner ↔
      parts = [] ∨ ∀ place, aliased? part scope = some place →
        t.follow? place parts = some (.type inner) := by
  cases ha : aliased? part scope with
  | none =>
    rw [resolveName_of_simple ha h, typeAt_eq_found_iff]
    exact iff_of_true (follow?_of_nestedAlong hp) (.inr nofun)
  | some place =>
    by_cases hne : parts = []
    · subst hne
      obtain rfl := Option.some_inj.1 hp
      exact iff_of_true h (.inl rfl)
    · rw [resolveName_of_alias ha hne, typeAt_eq_found_iff]
      simp [hne]

/-- The types `Outer`, `B` in it and `C` in that, and the type `Other`. -/
def nestedDemo : SymbolTable :=
  let type (outer? : Option TypeId) (name : String) : NewType :=
    ⟨Namespaces.root, outer?, name, 0, .class_, .none, .source, ⟨0, ⟨0, 0⟩, ⟨0, 1, 1, 0⟩⟩⟩
  let outer := TypeId.ofName "Outer"
  (((empty.enter (type none "Other")).enter (type none "Outer")).enter
    (type (some outer) "B")).enter (type (some (outer.nested "B")) "C")

/-- In `Outer`, the name `B` means the type nested there although `B` is an alias of `Other`,
    but `B.C` is looked for in `Other` and not found. -/
theorem resolveName_nested_alias :
    let outer := TypeId.ofName "Outer"
    let scope : Scope := ⟨Namespaces.root, some outer, [], [("B", .type (.ofName "Other"))]⟩
    nestedDemo.resolveSimple ⟨"B", 0⟩ scope = .found (outer.nested "B") ∧
      nestedDemo.nestedAlong? (outer.nested "B") [⟨"C", 0⟩] = some ((outer.nested "B").nested "C") ∧
      nestedDemo.resolveName [⟨"B", 0⟩, ⟨"C", 0⟩] false scope ≠
        .found ((outer.nested "B").nested "C") := by
  intro outer scope
  have hsimple : nestedDemo.resolveSimple ⟨"B", 0⟩ scope = .found (outer.nested "B") := by
    decide +kernel
  have hnested : nestedDemo.nestedAlong? (outer.nested "B") [⟨"C", 0⟩] =
      some ((outer.nested "B").nested "C") := by
    decide +kernel
  refine ⟨hsimple, hnested, fun hfound => ?_⟩
  obtain hnil | halias := (resolveName_nested_iff hsimple hnested).1 hfound
  · cases hnil
  · have hfollow := halias (.type (.ofName "Other")) rfl
    revert hfollow
    decide +kernel

end CommandModules.SymbolTable

/-
  Command modules — the parts of a declared type.

  What a table knows of a type is the list of the declarations that were accepted for it,
  its parts.  A declaration is known by its container and its name, `NewType.key`.

  * `TypeSymbol.Collects`: a symbol is what its parts make of it;
  * `NewType.Joins`: a declaration may be one more part of a type;
  * `Ledger.Reachable.collected`: all symbols collect the parts with their identity;
  * `declare_refines`: a declaration is accepted exactly if it joins the parts with its
    key, and is one more part then; else nothing changes.
-/
import CommandModules.Proofs.Symbol.Ledger

namespace CommandModules

/-- What a declaration is known by: its container, and its name with its arity. -/
def NewType.key (d : NewType) : Place × String :=
  (d.place, d.metadataName)

/-- Both sets of modifiers spell an accessibility, and not the same. -/
def Modifiers.Clash (m m' : Modifiers) : Prop :=
  ∃ a b, m.accessibility? = some a ∧ m'.accessibility? = some b ∧ a ≠ b

/-- The modifiers of all declarations together. -/
def unionOf (parts : List NewType) : Modifiers :=
  parts.foldl (fun m d => m.union d.modifiers) .none

/-- The symbol is made of the parts: its place, its name and its kind are those of the
    first one. -/
structure TypeSymbol.Collects (s : TypeSymbol) (parts : List NewType) : Prop where
  first : ∃ d, parts.head? = some d ∧ s.name = d.name ∧ s.arity = d.arity ∧ s.kind = d.kind ∧
    s.namespace_ = d.namespace_ ∧ s.containing? = d.containing? ∧ s.origin = d.origin
  declarations : s.declarations = parts.map NewType.site
  modifiers : s.modifiers = unionOf parts
  kinds : ∀ p ∈ parts, p.kind = s.kind
  isPartial : ∀ d ∈ parts.head?, s.isPartial = d.modifiers.contains .partial_

/-- The declaration and the first of the parts are partial. -/
def NewType.PartialWith (d : NewType) (parts : List NewType) : Prop :=
  ∀ first ∈ parts.head?, first.modifiers.contains .partial_ = true ∧
    d.modifiers.contains .partial_ = true

/-- The declaration has the kind of the parts. -/
def NewType.KindWith (d : NewType) (parts : List NewType) : Prop :=
  ∀ p ∈ parts, p.kind = d.kind

/-- The declaration may stand beside the parts, as it may if there are none. -/
structure NewType.Joins (d : NewType) (parts : List NewType) : Prop where
  partials : d.PartialWith parts
  kinds : d.KindWith parts
  access : ¬ (unionOf parts).Clash d.modifiers

/-- What the declaration misses first, so as to join the parts. -/
def NewType.Misses (d : NewType) (parts : List NewType) : SymbolErrorCause → Prop
  | .duplicateType => ¬ d.PartialWith parts
  | .partialKindMismatch => d.PartialWith parts ∧ ¬ d.KindWith parts
  | .conflictingAccessibility =>
    d.PartialWith parts ∧ d.KindWith parts ∧ (unionOf parts).Clash d.modifiers

/-! ## One part more -/

section
variable {s : TypeSymbol} {d : NewType} {parts : List NewType} {m m' : Modifiers}

theorem Modifiers.none_union (m : Modifiers) : Modifiers.none.union m = m :=
  ext_contains fun x => by simp

theorem unionOf_concat (parts : List NewType) (d : NewType) :
    unionOf (parts ++ [d]) = (unionOf parts).union d.modifiers :=
  List.foldl_concat ..

theorem Modifiers.clash_iff : m.Clash m' ↔ SymbolTable.conflict m m' = true := by
  unfold Clash SymbolTable.conflict
  constructor
  · rintro ⟨a, b, ha, hb, hab⟩
    rw [ha, hb]
    simpa using hab
  · intro h
    split at h
    · exact ⟨_, _, ‹_›, ‹_›, by simpa using h⟩
    · cases h

theorem NewType.Misses.not_joins {cause : SymbolErrorCause} (h : d.Misses parts cause) :
    ¬ d.Joins parts := by
  intro hj
  cases cause with
  | duplicateType => exact h hj.partials
  | partialKindMismatch => exact h.2 hj.kinds
  | conflictingAccessibility => exact hj.access h.2.2

/-- A first declaration makes a symbol. -/
theorem SymbolTable.symbolOf_collects (t : SymbolTable) (d : NewType) :
    (t.symbolOf d).Collects [d] where
  first := ⟨d, rfl, rfl, rfl, rfl, rfl, rfl, rfl⟩
  declarations := rfl
  modifiers := (Modifiers.none_union d.modifiers).symm
  kinds := List.forall_mem_singleton.2 rfl
  isPartial first hf := by
    obtain rfl := Option.some_inj.1 hf
    rfl

namespace TypeSymbol.Collects

theorem ne_nil (h : s.Collects parts) : parts ≠ [] := by
  rintro rfl
  obtain ⟨d, hd, -⟩ := h.first
  cases hd

/-- A symbol that takes up nested types or bases is still made of its parts. -/
theorem of_eq {s' : TypeSymbol} (h : s.Collects parts) (base? : Option TypeRef)
    (interfaces : List TypeRef) (nested : List (String × TypeId))
    (hs : s' = { s with base?, interfaces, nested }) : s'.Collects parts := by
  subst hs
  exact ⟨h.first, h.declarations, h.modifiers, h.kinds, h.isPartial⟩

/-- A symbol with one more nested type is still made of its parts. -/
theorem nest {id j : TypeId} (h : s.Collects parts) :
    (SymbolTable.nest d id j s).Collects parts := by
  unfold SymbolTable.nest
  split
  · exact h.of_eq s.base? s.interfaces _ rfl
  · exact h

/-- **What is refused of a symbol** is what does not join its parts. -/
theorem refusal?_cases (h : s.Collects parts) (d : NewType) :
    match SymbolTable.refusal? s d with
    | none => d.Joins parts
    | some cause => d.Misses parts cause := by
  obtain ⟨first, hfirst, -⟩ := h.first
  have hpartial : d.PartialWith parts ↔
      s.isPartial = true ∧ d.modifiers.contains .partial_ = true := by
    rw [NewType.PartialWith, h.isPartial first hfirst, hfirst]
    simp
  have hkind : d.KindWith parts ↔ s.kind = d.kind := by
    constructor
    · intro hk
      have hmem := List.mem_of_mem_head? hfirst
      exact (h.kinds first hmem).symm.trans (hk first hmem)
    · exact fun hk p hp => (h.kinds p hp).trans hk
  have haccess : (unionOf parts).Clash d.modifiers ↔
      SymbolTable.conflict s.modifiers d.modifiers = true := by
    rw [h.modifiers, Modifiers.clash_iff]
  unfold SymbolTable.refusal?
  by_cases hp : s.isPartial = true ∧ d.modifiers.contains .partial_ = true
  · rw [if_neg (by simp [hp.1, hp.2])]
    by_cases hk : s.kind = d.kind
    · rw [if_neg (not_not.2 hk)]
      by_cases hc : SymbolTable.conflict s.modifiers d.modifiers = true
      · rw [if_pos hc]
        exact ⟨hpartial.2 hp, hkind.2 hk, haccess.2 hc⟩
      · rw [if_neg hc]
        exact ⟨hpartial.2 hp, hkind.2 hk, haccess.not.2 hc⟩
    · rw [if_pos hk]
      exact ⟨hpartial.2 hp, hkind.not.2 hk⟩
  · rw [if_pos (by simp only [Bool.or_eq_true, Bool.not_eq_true']; grind)]
    exact hpartial.not.2 hp

/-- A declaration that is not refused is one more part. -/
theorem merge (h : s.Collects parts) (hr : SymbolTable.refusal? s d = none) :
    (SymbolTable.merge s d).Collects (parts ++ [d]) := by
  obtain ⟨hp, hd, hk, -⟩ := SymbolTable.refusal?_eq_none.1 hr
  obtain ⟨first, hfirst, hfields⟩ := h.first
  have hhead : (parts ++ [d]).head? = some first := by
    rw [List.head?_append, hfirst, Option.some_or]
  refine ⟨⟨first, hhead, hfields⟩, ?_, ?_, ?_, fun x hx => ?_⟩
  · rw [List.map_append, ← h.declarations]
    rfl
  · rw [unionOf_concat, ← h.modifiers]
    rfl
  · exact List.forall_mem_append.2 ⟨h.kinds, List.forall_mem_singleton.2 hk.symm⟩
  · obtain rfl := Option.some_inj.1 (hhead.symm.trans hx)
    rw [← h.isPartial first hfirst, hp]
    show (s.modifiers.union d.modifiers).contains .partial_ = true
    simp [hd]

end TypeSymbol.Collects

end

/-! ## All parts -/

namespace Ledger

variable {l : Ledger} {c : Call} {d : NewType} {id : TypeId} {t' : SymbolTable}

/-- The accepted declarations with this identity. -/
def partsOf (l : Ledger) (id : TypeId) : List NewType :=
  l.accepted.filter fun d => l.table.idOf d = id

/-- Every symbol collects the parts with its identity, and every part has a symbol. -/
structure Collected (l : Ledger) : Prop where
  holds : ∀ d ∈ l.accepted, l.table.Holds d.place
  unknown : ∀ id, l.table.get? id = none → l.partsOf id = []
  symbol : ∀ id s, l.table.get? id = some s → s.Collects (l.partsOf id)

theorem idOf_of_extends {t : SymbolTable} (hd : t.Holds d.place) (h : t.Extends t') :
    t'.idOf d = t.idOf d := by
  rw [SymbolTable.idOf_eq_idAt, SymbolTable.idOf_eq_idAt, SymbolTable.idAt_of_extends hd h]

/-- The parts of a larger table that has accepted `more` in addition. -/
theorem partsOf_of_extends (h : l.Collected) (ht : l.table.Extends t') (more : List NewType)
    (hmore : ∀ d ∈ more, l.table.Holds d.place) (returned : List TypeId) (id : TypeId) :
    partsOf ⟨t', l.accepted ++ more, returned⟩ id =
      l.partsOf id ++ more.filter fun d => l.table.idOf d = id := by
  have hold : l.accepted.filter (fun d => t'.idOf d = id) = l.partsOf id :=
    List.filter_congr fun d hd => by rw [idOf_of_extends (h.holds d hd) ht]
  have hnew : more.filter (fun d => t'.idOf d = id) = more.filter fun d => l.table.idOf d = id :=
    List.filter_congr fun d hd => by rw [idOf_of_extends (hmore d hd) ht]
  rw [← hold, ← hnew]
  exact List.filter_append ..

/-- A call that declares nothing keeps the parts. -/
theorem Collected.of_extends (h : l.Collected) (ht : l.table.Extends t')
    (hget : ∀ id s', t'.get? id = some s' → ∃ s base? interfaces, l.table.get? id = some s ∧
      s' = { s with base?, interfaces }) : Collected { l with table := t' } := by
  have hparts (id : TypeId) : partsOf { l with table := t' } id = l.partsOf id := by
    simpa using partsOf_of_extends h ht [] (List.forall_mem_nil _) l.returned id
  refine ⟨fun d hd => (h.holds d hd).mono ht, fun id hid => ?_, fun id s' hs' => ?_⟩
  · rw [hparts]
    refine h.unknown id ?_
    cases hs : l.table.get? id with
    | none => rfl
    | some s =>
      obtain ⟨s', hs', -⟩ := ht.symbol id s hs
      cases hid.symm.trans hs'
  · obtain ⟨s, base?, interfaces, hs, rfl⟩ := hget id s' hs'
    rw [hparts]
    exact (h.symbol id s hs).of_eq base? interfaces s.nested rfl

/-- An accepted declaration is one more part of its type, and of no other. -/
theorem partsOf_declare (h : l.Collected) (hd : l.table.Holds d.place)
    (hr : l.table.declare d = .ok (id, t')) (j : TypeId) :
    partsOf ⟨t', l.accepted ++ [d], l.returned ++ [id]⟩ j =
      if j = l.table.idOf d then l.partsOf j ++ [d] else l.partsOf j := by
  rw [partsOf_of_extends h (.declare hr) [d] (List.forall_mem_singleton.2 hd)]
  by_cases hj : j = l.table.idOf d
  · simp [hj]
  · simp [hj, Ne.symm hj]

/-- One part more, accepted by a table with the right symbols. -/
theorem Collected.declare (h : l.Collected) (hd : l.table.Holds d.place)
    (hr : l.table.declare d = .ok (id, t')) :
    Collected ⟨t', l.accepted ++ [d], l.returned ++ [id]⟩ := by
  have ht := SymbolTable.Extends.declare hr
  have hparts := partsOf_declare h hd hr
  obtain ⟨rfl, hcase⟩ := SymbolTable.declare_cases hr
  have hholds : ∀ d' ∈ l.accepted ++ [d], t'.Holds d'.place :=
    List.forall_mem_append.2 ⟨fun d' hd' => (h.holds d' hd').mono ht,
      List.forall_mem_singleton.2 (hd.mono ht)⟩
  refine ⟨hholds, fun j hj => ?_, fun j s' hs' => ?_⟩
  · have hold : l.table.get? j = none := by
      by_contra hs
      obtain ⟨s, hs⟩ := Option.ne_none_iff_exists'.1 hs
      obtain ⟨s', hs', -⟩ := ht.symbol j s hs
      cases hj.symm.trans hs'
    have hne : j ≠ l.table.idOf d := by
      rintro rfl
      obtain ⟨s', hs', -⟩ := SymbolTable.declare_has hr
      cases hj.symm.trans hs'
    rw [hparts, if_neg hne]
    exact h.unknown j hold
  · rw [hparts]
    obtain ⟨s, hs, hrefusal, rfl⟩ | ⟨hn, rfl⟩ := hcase
    · rw [SymbolTable.get?_modify] at hs'
      by_cases hj : j = l.table.idOf d
      · rw [if_pos hj]
        subst hj
        rw [hs, Option.map_some, if_pos rfl] at hs'
        exact Option.some_inj.1 hs' ▸ (h.symbol _ s hs).merge hrefusal
      · rw [if_neg hj]
        obtain ⟨s, hs, rfl⟩ := Option.map_eq_some_iff.1 hs'
        rw [if_neg hj]
        exact h.symbol j s hs
    · by_cases hj : j = l.table.idOf d
      · rw [if_pos hj]
        subst hj
        rw [SymbolTable.get?_enter hn] at hs'
        rw [h.unknown _ hn]
        exact Option.some_inj.1 hs' ▸ l.table.symbolOf_collects d
      · rw [if_neg hj]
        rw [SymbolTable.get?_enter_of_ne hj] at hs'
        obtain ⟨s, hs, rfl⟩ := Option.map_eq_some_iff.1 hs'
        exact (h.symbol j s hs).nest

/-- Every symbol collects its parts, whatever the calls were. -/
theorem Reachable.collected (h : l.Reachable) : l.Collected := by
  induction h with
  | start =>
    exact ⟨nofun, fun _ _ => rfl, fun _ s hs => absurd hs (Option.some_ne_none s).symm⟩
  | @call l hl c hc ih =>
    cases c with
    | namespacePath path =>
      exact ih.of_extends (l.call_extends (.namespacePath path)) fun id s hs =>
        ⟨s, s.base?, s.interfaces, hs, rfl⟩
    | setBases id base? interfaces =>
      refine ih.of_extends (l.call_extends (.setBases id base? interfaces)) fun j s' hs' => ?_
      obtain ⟨s, hs, rfl⟩ := Option.map_eq_some_iff.1 (SymbolTable.get?_modify.symm.trans hs')
      by_cases hj : j = id
      · exact ⟨s, base?, interfaces, hs, if_pos hj⟩
      · exact ⟨s, s.base?, s.interfaces, hs, if_neg hj⟩
    | declare d =>
      cases hr : l.table.declare d with
      | error e => rwa [call_declare_error hr]
      | ok r =>
        rw [call_declare_ok hr]
        exact ih.declare (hl.holds hc) hr

/-- The parts with the key of a declaration, if no other key has its identity. -/
theorem partsOf_idOf
    (hfree : ∀ d' ∈ l.accepted, l.table.idOf d' = l.table.idOf d → d'.key = d.key) :
    l.partsOf (l.table.idOf d) = l.accepted.filter (·.key = d.key) := by
  refine List.filter_congr fun d' hd' => decide_eq_decide.2 ⟨hfree d' hd', fun hkey => ?_⟩
  obtain ⟨hplace, hname⟩ := Prod.mk.inj hkey
  rw [SymbolTable.idOf_eq_idAt, SymbolTable.idOf_eq_idAt, hplace, hname]

/-- **A declaration is accepted exactly if it joins the parts with its key.**  They are then
    followed by it, and the symbol collects them all; no other symbol changes, but that a
    type gets its first nested type with this name.  Else the error says what the
    declaration misses, and everything is as it was. -/
theorem declare_refines (h : l.Reachable)
    (hfree : ∀ d' ∈ l.accepted, l.table.idOf d' = l.table.idOf d → d'.key = d.key) :
    let parts := l.accepted.filter (·.key = d.key)
    let id := l.table.idOf d
    (parts = [] ∨ d.Joins parts → ∃ t' s,
      l.table.declare d = .ok (id, t') ∧
      l.call (.declare d) = ⟨t', l.accepted ++ [d], l.returned ++ [id]⟩ ∧
      t'.get? id = some s ∧ s.id = id ∧ s.Collects (parts ++ [d]) ∧
      ∀ j ≠ id, t'.get? j = (l.table.get? j).map fun s =>
        if parts = [] then SymbolTable.nest d id j s else s) ∧
    (¬ (parts = [] ∨ d.Joins parts) → ∃ cause, d.Misses parts cause ∧
      l.table.declare d = .error ⟨cause, l.table.qualifiedName id, d.site.span⟩ ∧
      l.call (.declare d) = l) := by
  intro parts id
  have hcol := h.collected
  have hparts : l.partsOf id = parts := partsOf_idOf hfree
  cases hs : l.table.get? id with
  | none =>
    have hnil : parts = [] := hparts ▸ hcol.unknown id hs
    refine ⟨fun _ => ?_, fun hno => (hno (.inl hnil)).elim⟩
    have hr := SymbolTable.declare_eq_of_none hs
    refine ⟨_, _, hr, call_declare_ok hr, SymbolTable.get?_enter hs, rfl, ?_, fun j hj => ?_⟩
    · rw [hnil]
      exact l.table.symbolOf_collects d
    · rw [SymbolTable.get?_enter_of_ne hj, hnil]
      rfl
  | some s =>
    have hsym : s.Collects parts := hparts ▸ hcol.symbol id s hs
    have hsid : s.id = id := h.indexed.id id s hs
    have hsome := SymbolTable.declare_eq_of_some hs
    have hcases := hsym.refusal?_cases d
    cases hrefusal : SymbolTable.refusal? s d with
    | none =>
      rw [hrefusal] at hsome hcases
      refine ⟨fun _ => ?_, fun hno => (hno (.inr hcases)).elim⟩
      refine ⟨_, SymbolTable.merge s d, hsome, call_declare_ok hsome, ?_, hsid,
        hsym.merge hrefusal, fun j hj => ?_⟩
      · rw [SymbolTable.get?_modify, hs, Option.map_some, if_pos rfl]
      · rw [SymbolTable.get?_modify]
        refine Option.map_congr fun s' _ => ?_
        rw [if_neg hj, if_neg hsym.ne_nil]
    | some cause =>
      rw [hrefusal] at hsome hcases
      refine ⟨fun hyes => ?_, fun _ => ⟨cause, hcases, hsome, call_declare_error hsome⟩⟩
      exact (hcases.not_joins (hyes.resolve_left hsym.ne_nil)).elim

/-- A second part of a type is accepted. -/
theorem declare_refines_second :
    let part (modifiers : List Modifier) (start : Nat) : NewType :=
      ⟨1, none, "Outer", 0, .class_, .ofList modifiers, .source, ⟨start, ⟨0, 0⟩, ⟨0, 1, 1, 0⟩⟩⟩
    let first := part [.public_, .partial_] 0
    let second := part [.partial_] 1
    let l := (start.call (.namespacePath ["Demo"])).call (.declare first)
    ∃ t' s, l.table.declare second = .ok (.ofName "Demo.Outer", t') ∧
      t'.get? (.ofName "Demo.Outer") = some s ∧ s.Collects [first, second] := by
  intro part first second l
  have hspace : (start.call (.namespacePath ["Demo"])).Reachable := .call .start _ ⟨⟩
  have h : l.Reachable := hspace.call (.declare first) ⟨by decide, nofun⟩
  have hid : l.table.idOf second = .ofName "Demo.Outer" := by decide +kernel
  have hnew : (start.call (.namespacePath ["Demo"])).table.get? (.ofName "Demo.Outer") = none := rfl
  have haccepted : l.accepted = [first] :=
    congrArg accepted (call_declare_ok (SymbolTable.declare_eq_of_none hnew))
  have hparts : l.accepted.filter (·.key = second.key) = [first] := by
    rw [haccepted]
    rfl
  have hjoins : second.Joins [first] := by
    refine ⟨fun x hx => ?_, List.forall_mem_singleton.2 rfl, ?_⟩
    · obtain rfl := Option.some_inj.1 hx
      decide
    · rw [Modifiers.clash_iff]
      decide
  obtain ⟨haccept, -⟩ := declare_refines h (d := second)
    (by rw [haccepted]; exact List.forall_mem_singleton.2 fun _ => rfl)
  rw [hid, hparts] at haccept
  obtain ⟨t', s, hr, -, hs, -, hcollects, -⟩ := haccept (.inr hjoins)
  exact ⟨t', s, hr, hs, hcollects⟩

end Ledger

end CommandModules

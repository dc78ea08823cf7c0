/-
  Command modules — tables that calls lead to.

  A table is used through calls: a namespace is asked for, a type is declared, the bases
  of a type are set.  A `Ledger` keeps, beside the table, the declarations that it has
  accepted.

  * `Ledger.call` is what a call does; a refused declaration leaves everything as it was;
  * `Ledger.Reachable`: such calls lead to the ledger from the empty table;
  * `Ledger.Reachable.indexed`, `indexes_agree`: the order of declaration, the identities
    and the names in namespaces and types lead to the same symbols.
-/
import CommandModules.Proofs.Symbol.Indexed

namespace CommandModules

/-- A call that may change a table. -/
inductive Call where
  /-- ask for the namespace with this path -/
  | namespacePath (path : List String)
  | declare (d : NewType)
  | setBases (id : TypeId) (base? : Option TypeRef) (interfaces : List TypeRef)

/-- A table, and what it has accepted so far, in the order of the calls. -/
structure Ledger where
  table : SymbolTable
  accepted : List NewType
  /-- the identities that were returned for the accepted declarations -/
  returned : List TypeId

namespace Ledger

/-- The empty table. -/
def start : Ledger := ⟨.empty, [], []⟩

/-- What a call does. -/
def call (l : Ledger) : Call → Ledger
  | .namespacePath path =>
    let namespaces := (l.table.namespaces.createPath Namespaces.root path).1
    { l with table := { l.table with namespaces } }
  | .declare d =>
    match l.table.declare d with
    | .ok (id, table) => ⟨table, l.accepted ++ [d], l.returned ++ [id]⟩
    | .error _ => l
  | .setBases id base? interfaces => { l with table := l.table.setBases id base? interfaces }

/-- A declaration names a namespace that is there, and a type around it that a call has
    returned, if any. -/
def Allows (l : Ledger) : Call → Prop
  | .declare d => d.namespace_ < l.table.namespaces.nodes.length ∧
      ∀ outer, d.containing? = some outer → outer ∈ l.returned
  | _ => True

/-- Calls lead to the ledger from the empty table. -/
inductive Reachable : Ledger → Prop
  | start : Reachable start
  | call {l : Ledger} (h : Reachable l) (c : Call) (hc : l.Allows c) : Reachable (l.call c)

variable {l : Ledger} {c : Call} {d : NewType} {e : SymbolError} {id : TypeId} {t' : SymbolTable}

theorem call_declare_ok (hd : l.table.declare d = .ok (id, t')) :
    l.call (.declare d) = ⟨t', l.accepted ++ [d], l.returned ++ [id]⟩ := by
  simp only [call, hd]

theorem call_declare_error (hd : l.table.declare d = .error e) : l.call (.declare d) = l := by
  simp only [call, hd]

/-- **No call takes anything away.** -/
theorem call_extends (l : Ledger) (c : Call) : l.table.Extends (l.call c).table := by
  cases c with
  | namespacePath path => exact .namespaces (Namespaces.createPath_paths _ _ _)
  | declare d =>
    cases hd : l.table.declare d with
    | error e =>
      rw [call_declare_error hd]
      exact .refl _
    | ok r =>
      rw [call_declare_ok hd]
      exact .declare hd
  | setBases id base? interfaces => exact .modify fun s _ => .bases s base? interfaces

/-- What was returned is the identity of a symbol. -/
theorem Reachable.returned (h : l.Reachable) : ∀ id ∈ l.returned, (l.table.get? id).isSome := by
  induction h with
  | start => exact List.forall_mem_nil _
  | @call l _ c _ ih =>
    have kept : ∀ id ∈ l.returned, ((l.call c).table.get? id).isSome := fun id hid =>
      (l.call_extends c).get?_isSome (ih id hid)
    cases c with
    | namespacePath => exact kept
    | setBases => exact kept
    | declare d =>
      cases hd : l.table.declare d with
      | error e => rwa [call_declare_error hd] at kept ⊢
      | ok r =>
        rw [call_declare_ok hd] at kept ⊢
        refine List.forall_mem_append.2 ⟨kept, List.forall_mem_singleton.2 ?_⟩
        obtain ⟨s, hs, -⟩ := SymbolTable.declare_has hd
        rw [hs]
        rfl

/-- An allowed declaration stands in a container that is there. -/
theorem Reachable.holds (h : l.Reachable) (hc : l.Allows (.declare d)) : l.table.Holds d.place := by
  unfold NewType.place
  cases hout : d.containing? with
  | none => exact hc.1
  | some outer => exact h.returned outer (hc.2 outer hout)

/-- One call keeps the indexes. -/
theorem indexed_call (h : l.table.Indexed) (hd : ∀ d, c = .declare d → l.table.Holds d.place) :
    (l.call c).table.Indexed := by
  cases c with
  | namespacePath path => exact h.createPath _ _
  | setBases id base? interfaces => exact h.setBases id base? interfaces
  | declare d =>
    cases hr : l.table.declare d with
    | error e => rwa [call_declare_error hr]
    | ok r =>
      rw [call_declare_ok hr]
      exact h.declare (hd d rfl) hr

/-- **All calls keep the indexes.** -/
theorem Reachable.indexed (h : l.Reachable) : l.table.Indexed := by
  induction h with
  | start => exact .empty
  | call h c hc ih => exact indexed_call ih fun d hd => h.holds (hd ▸ hc)

/-- **The order of declaration, the identities and the names agree** in every table that
    calls lead to.  The order lists the identities of the symbols, each once; a symbol is
    kept under its own identity and found under its name, in its namespace or in the type
    around it; and the names there are those of such symbols, each listed once. -/
theorem indexes_agree (h : l.Reachable) :
    (l.table.order.Nodup ∧ ∀ id, id ∈ l.table.order ↔ (l.table.get? id).isSome) ∧
    (∀ id s, l.table.get? id = some s → s.id = id ∧
      (s.containing? = none →
        l.table.namespaces.typeIn? s.namespace_ s.metadataName = some id) ∧
      ∀ outer, s.containing? = some outer →
        ∃ o, l.table.get? outer = some o ∧ o.nested? s.metadataName = some id) ∧
    (∀ n ns, l.table.namespaces.nodes[n]? = some ns → (ns.types.map Prod.fst).Nodup ∧
      ∀ e ∈ ns.types, ∃ s, l.table.get? e.2 = some s ∧ s.containing? = none ∧
        s.namespace_ = n ∧ s.metadataName = e.1) ∧
    ∀ outer o, l.table.get? outer = some o → (o.nested.map Prod.fst).Nodup ∧
      ∀ e ∈ o.nested, ∃ s, l.table.get? e.2 = some s ∧ s.containing? = some outer ∧
        s.metadataName = e.1 := by
  have hi := h.indexed
  refine ⟨⟨hi.order_nodup, fun id => hi.mem_order_iff⟩, fun id s hs => ⟨hi.id id s hs, ?_, ?_⟩,
    fun n ns hn => ?_, fun outer o ho => ?_⟩
  · intro htop
    have hl := hi.lookup_namesIn hs
    rwa [TypeSymbol.place_eq_namespace.2 ⟨htop, rfl⟩, SymbolTable.lookup_namesIn_namespace] at hl
  · intro outer hout
    have hplace := TypeSymbol.place_eq_type.2 hout
    obtain ⟨o, ho⟩ := Option.isSome_iff_exists.1 (hplace ▸ hi.place id s hs)
    have hl := hi.lookup_namesIn hs
    rw [hplace, SymbolTable.lookup_namesIn_type ho] at hl
    exact ⟨o, ho, hl⟩
  · have hnames := SymbolTable.namesIn_namespace hn
    refine ⟨hnames ▸ hi.names_nodup _, fun e he => ?_⟩
    obtain ⟨s, hs, hp, hname⟩ := hi.entry (.namespace_ n) e (hnames ▸ he)
    obtain ⟨htop, hns⟩ := TypeSymbol.place_eq_namespace.1 hp
    exact ⟨s, hs, htop, hns, hname⟩
  · have hnames := SymbolTable.namesIn_type ho
    refine ⟨hnames ▸ hi.names_nodup _, fun e he => ?_⟩
    obtain ⟨s, hs, hp, hname⟩ := hi.entry (.type outer) e (hnames ▸ he)
    exact ⟨s, hs, TypeSymbol.place_eq_type.1 hp, hname⟩

/-- A type in a namespace, and one in that type. -/
theorem indexes_agree_nested :
    let type (outer? : Option TypeId) (name : String) : NewType :=
      ⟨1, outer?, name, 0, .class_, .none, .source, ⟨0, ⟨0, 0⟩, ⟨0, 1, 1, 0⟩⟩⟩
    let outer := TypeId.ofName "Demo.Outer"
    let l := ((start.call (.namespacePath ["Demo"])).call (.declare (type none "Outer"))).call
      (.declare (type (some outer) "Inner"))
    l.table.order = [outer, outer.nested "Inner"] ∧ l.table.order.Nodup ∧
      ∃ o, l.table.get? outer = some o ∧ o.nested? "Inner" = some (outer.nested "Inner") := by
  intro type outer l
  have hspace : (start.call (.namespacePath ["Demo"])).Reachable := .call .start _ ⟨⟩
  have houter := hspace.call (.declare (type none "Outer")) ⟨by decide, nofun⟩
  have h : l.Reachable := houter.call (.declare (type (some outer) "Inner"))
    ⟨by decide +kernel, fun o ho => Option.some_inj.1 ho ▸ (by decide +kernel)⟩
  obtain ⟨⟨hnodup, -⟩, hsymbol, -, -⟩ := indexes_agree h
  refine ⟨by decide +kernel, hnodup, ?_⟩
  obtain ⟨s, hs⟩ : ∃ s, l.table.get? (outer.nested "Inner") = some s :=
    Option.isSome_iff_exists.1 (by decide +kernel)
  have hfields : s.containing? = some outer ∧ s.metadataName = "Inner" := by
    have : (l.table.get? (outer.nested "Inner")).map (fun s => (s.containing?, s.metadataName)) =
        some (some outer, "Inner") := by decide +kernel
    rw [hs] at this
    exact Prod.mk.inj (Option.some_inj.1 this)
  obtain ⟨o, ho, hn⟩ := (hsymbol _ s hs).2.2 outer hfields.1
  rw [hfields.2] at hn
  exact ⟨o, ho, hn⟩

end Ledger

end CommandModules

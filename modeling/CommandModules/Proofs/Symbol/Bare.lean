/-
  Command modules — what names mean does not depend on where types are declared.

  * `SymbolTable.bare`: the table without the places of declarations and without bases;
  * `resolveName_bare`: names mean the same in it, since no name is looked up in a base and no
    place is looked at;
  * `declare_bare`: tables that are bare alike take up or refuse the same declarations, and
    they are bare alike behind them;
  * `SymbolTable.Respells`: besides, the base of a type is the same in both tables, or it was
    not found and is written with the same tokens (`TypeRef.Respells`);
  * `baseChain_respells`: so it is with all its bases.
-/
import CommandModules.Proofs.Respelled.Type
import CommandModules.Proofs.Symbol.Agree

namespace CommandModules

/-- The symbol without the places of its declarations and without bases. -/
def TypeSymbol.bare (s : TypeSymbol) : TypeSymbol :=
  { s with declarations := [], base? := none, interfaces := [] }

/-- The declaration of a type without its place. -/
def NewType.bare (d : NewType) : NewType :=
  { d with site := ⟨0, ⟨0, 0⟩, default⟩ }

namespace SymbolTable

/-- The table without the places of declarations and without bases. -/
def bare (t : SymbolTable) : SymbolTable :=
  { t with types := t.types.map fun e => (e.1, e.2.bare) }

variable (t : SymbolTable) {u : SymbolTable}

/-! ## Looking up -/

@[simp] theorem bare_namespaces : t.bare.namespaces = t.namespaces := rfl

@[simp] theorem bare_types_length : t.bare.types.length = t.types.length :=
  List.length_map _

theorem get?_bare (id : TypeId) : t.bare.get? id = (t.get? id).map TypeSymbol.bare := by
  simp only [get?, bare]
  induction t.types with
  | nil => rfl
  | cons e es ih =>
    rw [List.map_cons, List.lookup_cons, List.lookup_cons, ih]
    cases id == e.1 <;> rfl

theorem nestedAround?_bare (name : String) (depth : Nat) (around? : Option TypeId) :
    t.bare.nestedAround? name depth around? = t.nestedAround? name depth around? := by
  induction depth generalizing around? with
  | zero => cases around? <;> rfl
  | succ depth ih =>
    cases around? with
    | none => rfl
    | some id =>
      rw [nestedAround?, nestedAround?, get?_bare]
      cases t.get? id with
      | none => rfl
      | some s =>
        simp only [Option.map_some, ih]
        rfl

theorem resolveSimple_bare (part : NamePart) (scope : Scope) :
    t.bare.resolveSimple part scope = t.resolveSimple part scope := by
  rw [resolveSimple, resolveSimple, nestedAround?_bare, bare_types_length]
  rfl

theorem member?_bare (place : Place) (part : NamePart) :
    t.bare.member? place part = t.member? place part := by
  cases place with
  | namespace_ n => rfl
  | type id =>
    rw [member?, member?, get?_bare]
    cases t.get? id <;> rfl

theorem follow?_bare (place : Place) (parts : List NamePart) :
    t.bare.follow? place parts = t.follow? place parts := by
  induction parts generalizing place with
  | nil => rfl
  | cons part parts ih =>
    rw [follow?, follow?, member?_bare]
    exact congrArg (Option.bind _) (funext ih)

theorem resolveLeading_bare (part : NamePart) (scope : Scope) :
    t.bare.resolveLeading part scope = t.resolveLeading part scope := by
  rw [resolveLeading, resolveLeading, resolveSimple_bare]
  rfl

/-- **Names mean the same in the bare table.** -/
theorem resolveName_bare (parts : List NamePart) (isGlobal : Bool) (scope : Scope) :
    t.bare.resolveName parts isGlobal scope = t.resolveName parts isGlobal scope := by
  cases parts with
  | nil => rfl
  | cons first rest =>
    simp only [resolveName, follow?_bare, resolveSimple_bare, resolveLeading_bare]

theorem kind?_bare (id : TypeId) : t.bare.kind? id = t.kind? id := by
  rw [kind?, kind?, get?_bare, Option.map_map]
  rfl

theorem isBaseClass_bare (r : TypeRef) : t.bare.isBaseClass r = t.isBaseClass r := by
  cases r with
  | named id => rw [isBaseClass, isBaseClass, kind?_bare]
  | unresolved => rfl

theorem simpleName_bare (r : TypeRef) : t.bare.simpleName r = t.simpleName r := by
  cases r with
  | named id =>
    rw [simpleName, simpleName, get?_bare, Option.map_map]
    rfl
  | unresolved => rfl

theorem qualifiedName_bare (id : TypeId) : t.bare.qualifiedName id = t.qualifiedName id := by
  rw [qualifiedName, qualifiedName, bare_types_length]
  generalize t.types.length + 1 = depth
  induction depth generalizing id with
  | zero => rfl
  | succ depth ih =>
    rw [qualifiedNameWithin, qualifiedNameWithin, get?_bare]
    cases t.get? id with
    | none => rfl
    | some s =>
      have hcontaining : s.bare.containing? = s.containing? := rfl
      simp only [Option.map_some, hcontaining]
      cases s.containing? with
      | none => rfl
      | some outer => exact congrArg (· ++ "." ++ s.name) (ih outer)

/-! ## Declaring -/

variable {t} {id : TypeId} {d e : NewType} {f g : TypeSymbol → TypeSymbol}

theorem namespaces_eq_of_bare (h : t.bare = u.bare) : t.namespaces = u.namespaces :=
  (congrArg SymbolTable.namespaces h :)

/-- Changes that leave a symbol bare alike leave a table bare alike. -/
theorem modify_bare (h : t.bare = u.bare)
    (hfg : ∀ s s', s.bare = s'.bare → (f s).bare = (g s').bare) :
    (t.modify id f).bare = (u.modify id g).bare := by
  obtain ⟨hspaces, htypes, horder⟩ := SymbolTable.mk.inj h
  simp only [bare, modify, SymbolTable.mk.injEq]
  refine ⟨hspaces, ?_, horder⟩
  generalize t.types = es at htypes
  generalize u.types = es' at htypes
  induction es generalizing es' with
  | nil => cases es' <;> simp_all
  | cons x es ih =>
    cases es' with
    | nil => cases htypes
    | cons y es' =>
      obtain ⟨hxy, hes⟩ := List.cons.inj htypes
      obtain ⟨hid, hs⟩ := Prod.mk.inj hxy
      rw [List.map_cons, List.map_cons, List.map_cons, List.map_cons, ih es' hes, hid]
      refine congrArg (· :: _) ?_
      split
      · rw [hfg _ _ hs]
      · exact hxy

theorem idOf_bare (h : t.bare = u.bare) (hd : d.bare = e.bare) : t.idOf d = u.idOf e := by
  have hspaces := namespaces_eq_of_bare h
  cases d
  cases e
  simp_all [NewType.bare, idOf]

theorem enterName_bare (h : t.bare = u.bare) (hd : d.bare = e.bare) :
    (t.enterName d).bare = (u.enterName e).bare := by
  have hid := idOf_bare h hd
  have hspaces := namespaces_eq_of_bare h
  obtain ⟨hin, houter, hname, harity, -⟩ := NewType.mk.inj hd
  simp only [enterName, houter, hname, harity, hin, hid]
  split
  · refine modify_bare h fun s s' hs => ?_
    cases s
    cases s'
    simp_all [TypeSymbol.bare]
  · obtain ⟨-, htypes, horder⟩ := SymbolTable.mk.inj h
    simp only [bare, hspaces, htypes, horder]

theorem symbolOf_bare (h : t.bare = u.bare) (hd : d.bare = e.bare) :
    (t.symbolOf d).bare = (u.symbolOf e).bare := by
  have hid := idOf_bare h hd
  cases d
  cases e
  simp_all [NewType.bare, symbolOf, TypeSymbol.bare]

/-- **Tables that are bare alike** take up the same declarations, and are bare alike then; the
    others they refuse for the same reason. -/
theorem declare_bare (h : t.bare = u.bare) (hd : d.bare = e.bare) :
    (∃ id t' u', t.declare d = .ok (id, t') ∧ u.declare e = .ok (id, u') ∧ t'.bare = u'.bare) ∨
      ∃ x y, t.declare d = .error x ∧ u.declare e = .error y ∧ x.message = y.message := by
  have hid := idOf_bare h hd
  obtain ⟨-, -, -, -, hkind, hmodifiers, -, -⟩ := NewType.mk.inj hd
  have hget : (t.get? (t.idOf d)).map TypeSymbol.bare = (u.get? (u.idOf e)).map TypeSymbol.bare := by
    rw [← get?_bare, ← get?_bare, h, hid]
  simp only [declare]
  cases hs : t.get? (t.idOf d) with
  | none =>
    rw [hs, Option.map_none, eq_comm, Option.map_eq_none_iff] at hget
    rw [hget]
    refine .inl ⟨_, _, _, rfl, by rw [hid], ?_⟩
    obtain ⟨hspaces, htypes, horder⟩ := SymbolTable.mk.inj (enterName_bare h hd)
    simp [bare, hspaces, htypes, horder, hid, symbolOf_bare h hd]
  | some s =>
    rw [hs, Option.map_some, eq_comm, Option.map_eq_some_iff] at hget
    obtain ⟨s', hs', hbare⟩ := hget
    rw [hs']
    have hrefusal : refusal? s d = refusal? s' e := by
      cases s
      cases s'
      simp_all [TypeSymbol.bare, refusal?, TypeSymbol.isPartial]
    have hname : t.qualifiedName (t.idOf d) = u.qualifiedName (u.idOf e) := by
      rw [← qualifiedName_bare, h, hid, qualifiedName_bare]
    simp only [hrefusal, hname]
    split
    · exact .inr ⟨_, _, rfl, rfl, rfl⟩
    · refine .inl ⟨_, _, _, rfl, by rw [hid], ?_⟩
      rw [hid]
      refine modify_bare h fun s s' hs => ?_
      cases s
      cases s'
      simp_all [TypeSymbol.bare, merge]

/-- A declaration changes no base. -/
theorem base?_declare {t' : SymbolTable} (h : t.declare d = .ok (id, t')) (j : TypeId) :
    t'.base? j = t.base? j := by
  obtain ⟨rfl, ⟨_, -, -, rfl⟩ | ⟨hn, rfl⟩⟩ := declare_cases h
  · rw [base?, base?, get?_modify]
    cases t.get? j with
    | none => rfl
    | some s =>
      simp only [Option.map_some, Option.bind_some]
      split <;> rfl
  · by_cases hj : j = t.idOf d
    · rw [hj, base?, base?, get?_enter hn, hn]
      rfl
    · rw [base?, base?, get?_enter_of_ne hj]
      cases t.get? j with
      | none => rfl
      | some s =>
        simp only [Option.map_some, Option.bind_some, nest]
        split <;> rfl

end SymbolTable

/-! ## Bases that are written with the same tokens -/

/-- The same type is referred to, or none was found; then the names are the same, or they
    end in a mark. -/
inductive TypeRef.Respells : TypeRef → TypeRef → Prop
  | named (id : TypeId) : Respells (.named id) (.named id)
  | unresolved {x y : UnresolvedType} :
      x.name = y.name ∨ EndInMark (tokensOf x.name) ∧ EndInMark (tokensOf y.name) →
        Respells (.unresolved x) (.unresolved y)

/-- The tables differ in the places of declarations, and the bases of their types are written
    with the same tokens. -/
structure SymbolTable.Respells (t u : SymbolTable) : Prop where
  bare_eq : t.bare = u.bare
  bases : ∀ id, Option.Rel TypeRef.Respells (t.base? id) (u.base? id)

namespace SymbolTable.Respells

variable {t u : SymbolTable} {d e : NewType}

theorem declare (h : t.Respells u) (hd : d.bare = e.bare) :
    (∃ id t' u', t.declare d = .ok (id, t') ∧ u.declare e = .ok (id, u') ∧ t'.Respells u') ∨
      ∃ x y, t.declare d = .error x ∧ u.declare e = .error y := by
  refine (declare_bare h.bare_eq hd).imp (fun ⟨id, t', u', ht, hu, hb⟩ => ?_)
    fun ⟨x, y, hx, hy, _⟩ => ⟨x, y, hx, hy⟩
  refine ⟨id, t', u', ht, hu, hb, fun j => ?_⟩
  rw [base?_declare ht, base?_declare hu]
  exact h.bases j

theorem baseChainFrom (h : t.Respells u) (fuel : Nat) (visited : List TypeId) {r? r?' : Option TypeRef}
    (hr : Option.Rel TypeRef.Respells r? r?') :
    List.Forall₂ TypeRef.Respells (t.baseChainFrom fuel visited r?)
      (u.baseChainFrom fuel visited r?') := by
  induction fuel generalizing visited r? r?' with
  | zero => exact .nil
  | succ fuel ih =>
    cases hr with
    | none => exact .nil
    | some hr =>
      cases hr with
      | unresolved hxy => exact .cons (.unresolved hxy) .nil
      | named id =>
        rw [SymbolTable.baseChainFrom, SymbolTable.baseChainFrom]
        split
        · exact .nil
        · exact .cons (.named id) (ih _ (h.bases id))

/-- **The bases of a type** are written with the same tokens. -/
theorem baseChain (h : t.Respells u) (id : TypeId) :
    List.Forall₂ TypeRef.Respells (t.baseChain id) (u.baseChain id) := by
  have hlength : t.types.length = u.types.length := by
    rw [← bare_types_length, h.bare_eq, bare_types_length]
  rw [SymbolTable.baseChain, SymbolTable.baseChain, hlength]
  exact h.baseChainFrom _ _ (h.bases id)

end SymbolTable.Respells

end CommandModules

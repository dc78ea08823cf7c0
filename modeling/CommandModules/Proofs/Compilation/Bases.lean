/-
  Command modules — the bases of declared types.

  Declaring leaves the types without bases; then each list of bases adds to its type.

  * `Compilation.lists` are the lists of bases that a type has, those of earlier trees first and
    those of one tree in the order of its text, looked up;
  * `Compilation.last_base_prevails`: the base class of a type is that of the last list that has
    one, and its interfaces are those of all lists;
  * `SymbolTable.HoldsBases`: the bases of a type are types of the table, of the right kinds;
    `Compilation.bases_known`: so it is for all types of a compilation, and each declaration that
    was accepted leads to a symbol that has it.
-/
import CommandModules.Proofs.Compilation.Shadow

namespace CommandModules

open Relation

/-! ## Before bases are bound -/

section
variable {number : Nat} {tree : SyntaxTree} {origin : Origin} {s s' : Declaring}
  {trees : List (SyntaxTree × Origin)} {t t' : SymbolTable} {id : TypeId} {d : NewType}

/-- No type has bases yet. -/
def SymbolTable.IsUnbound (t : SymbolTable) : Prop :=
  ∀ id x, t.get? id = some x → x.base? = none ∧ x.interfaces = []

theorem SymbolTable.IsUnbound.declare (h : t.IsUnbound) (hd : t.declare d = .ok (id, t')) :
    t'.IsUnbound := by
  intro j x hx
  obtain ⟨rfl, ⟨z, -, -, rfl⟩ | ⟨hn, rfl⟩⟩ := SymbolTable.declare_cases hd
  · rw [SymbolTable.get?_modify] at hx
    obtain ⟨y, hy, rfl⟩ := Option.map_eq_some_iff.1 hx
    split <;> exact h j y hy
  · by_cases hj : j = t.idOf d
    · rw [hj, SymbolTable.get?_enter hn] at hx
      obtain rfl := Option.some_inj.1 hx
      exact ⟨rfl, rfl⟩
    · rw [SymbolTable.get?_enter_of_ne hj] at hx
      obtain ⟨y, hy, rfl⟩ := Option.map_eq_some_iff.1 hx
      unfold SymbolTable.nest
      split <;> exact h j y hy

/-- No step on the way through a tree binds bases. -/
theorem Declaring.Step.isUnbound (h : Declaring.Step number tree origin s s')
    (hs : s.table.IsUnbound) : s'.table.IsUnbound := by
  cases h with
  | @declare w _ _ _ d =>
    obtain ⟨id, table, hok, heq⟩ | ⟨_, -, -, ht, -⟩ := Declaring.declare_cases s w d
    · rw [heq]
      exact hs.declare hok
    · rw [ht]
      exact hs
  | putAside =>
    rw [Declaring.putAside_table]
    exact hs
  | noteUsings => exact hs
  | enterNamespace => exact hs

theorem declareTrees_isUnbound (ht : t.namespaces.path? Namespaces.root = some [])
    (h : t.IsUnbound) : (declareTrees t number trees).1.IsUnbound := by
  have main {s s' : Declaring} {number : Nat} {tree : SyntaxTree} {origin : Origin}
      (hsteps : ReflTransGen (Declaring.Step number tree origin) s s') (hs : s.table.IsUnbound) :
      s'.table.IsUnbound := by
    induction hsteps with
    | refl => exact hs
    | tail _ hstep ih => exact hstep.isUnbound ih
  induction trees generalizing t number with
  | nil => exact h
  | cons e trees ih =>
    have hsteps := declareTree_steps number e.1 e.2 ht
    exact ih ((Declaring.extends_of_steps hsteps).path?_root ht) (main hsteps h)

theorem SymbolTable.Extends.kind?_eq_some (h : t.Extends t') {k : TypeKind}
    (hk : t.kind? id = some k) : t'.kind? id = some k := by
  obtain ⟨x, hx, rfl⟩ := Option.map_eq_some_iff.1 hk
  obtain ⟨x', hx', hb⟩ := h.symbol id x hx
  rw [SymbolTable.kind?, hx']
  exact congrArg some hb.kind

/-- Bases are put aside for types of the kind that is written. -/
theorem kinds_isKept : Declaring.IsKept fun _ _ s =>
    ∀ p ∈ s.found.pending, s.table.kind? p.type = some p.declaration.kind where
  start _ _ _ := List.forall_mem_nil _
  step h hs := by
    have he := h.extends
    cases h with
    | declare =>
      rw [(Declaring.declare_found ..).1]
      exact fun p hp => he.kind?_eq_some (hs p hp)
    | putAside _ _ _ _ hkind =>
      unfold Declaring.putAside
      split
      · exact hs
      · exact List.forall_mem_append.2 ⟨hs, List.forall_mem_singleton.2 hkind⟩
    | noteUsings => exact hs
    | enterNamespace => exact fun p hp => he.kind?_eq_some (hs p hp)
  mono hs ht p hp := ht.kind?_eq_some (hs p hp)

end

/-! ## Lists of bases, one after the other -/

section
variable {t : SymbolTable} {xs ys : List TypeRef} {r : TypeRef} {b : BoundBases}

theorem mem_appendMissing : r ∈ appendMissing xs ys ↔ r ∈ xs ∨ r ∈ ys := by
  unfold appendMissing
  induction ys generalizing xs with
  | nil => simp
  | cons y ys ih =>
    rw [List.foldl_cons, ih, List.mem_cons]
    split
    · rename_i hy
      rw [List.contains_iff_mem] at hy
      refine ⟨fun h => h.imp_right .inr, fun h => h.elim .inl fun h => ?_⟩
      rcases h with rfl | h
      · exact .inl hy
      · exact .inr h
    · rw [List.mem_append, List.mem_singleton, or_assoc]

/-- What is added only if it is not there is there once. -/
theorem nodup_appendMissing (h : xs.Nodup) : (appendMissing xs ys).Nodup := by
  unfold appendMissing
  induction ys generalizing xs with
  | nil => exact h
  | cons y ys ih =>
    rw [List.foldl_cons]
    refine ih ?_
    split
    · exact h
    · rename_i hy
      rw [List.contains_iff_mem] at hy
      exact List.nodup_append.2 ⟨h, List.pairwise_singleton _ _, fun x hx z hz hxz =>
        hy (List.mem_singleton.1 hz ▸ hxz ▸ hx)⟩

/-- The last list that has a base class gives it. -/
theorem TypeSymbol.base?_withBases (t : SymbolTable) (s : TypeSymbol) (bs : List BoundBases) :
    (bs.foldl (TypeSymbol.withBases t) s).base? =
      ((bs.filterMap (·.base? t)).getLast?).or s.base? := by
  induction bs generalizing s with
  | nil => rfl
  | cons b bs ih =>
    have hbase : (s.withBases t b).base? = (b.base? t).or s.base? := rfl
    rw [List.foldl_cons, ih, hbase]
    cases hb : b.base? t with
    | none => rw [List.filterMap_cons_none (f := (BoundBases.base? · t)) hb, Option.none_or]
    | some r =>
      rw [List.filterMap_cons_some (f := (BoundBases.base? · t)) hb, List.getLast?_cons]
      cases (bs.filterMap (·.base? t)).getLast? <;> rfl

theorem TypeSymbol.interfaces_withBases (t : SymbolTable) (s : TypeSymbol) (bs : List BoundBases) :
    (bs.foldl (TypeSymbol.withBases t) s).interfaces =
      appendMissing s.interfaces (bs.flatMap (·.interfaces t)) := by
  induction bs generalizing s with
  | nil => rfl
  | cons b bs ih =>
    rw [List.foldl_cons, ih, List.flatMap_cons, appendMissing, appendMissing, List.foldl_append]
    rfl

/-- A base class is the first entry of a list of a class or record, and is a class or record
    itself if it was found. -/
theorem BoundBases.base?_cases (h : b.base? t = some r) :
    b.kind.isClass = true ∧ r ∈ b.refs ∧ t.isBaseClass r = true := by
  unfold BoundBases.base? at h
  split at h
  · obtain ⟨hr, hclass⟩ := Option.filter_eq_some_iff.1 h
    exact ⟨‹_›, List.mem_of_head? hr, hclass⟩
  · cases h

theorem BoundBases.interfaces_subset : b.interfaces t ⊆ b.refs := by
  unfold BoundBases.interfaces
  split
  · exact (List.tail_sublist _).subset
  · exact List.Subset.refl _

end

namespace Compilation

variable (c : Compilation)

theorem declaring_isUnbound : c.declaring.1.IsUnbound :=
  declareTrees_isUnbound rfl fun _ _ h => by cases h

theorem pending_kind : ∀ p ∈ c.pending,
    c.declaring.1.kind? p.type = some p.declaration.kind := by
  intro p hp
  obtain ⟨f, hf, hp⟩ := List.mem_flatMap.1 hp
  obtain ⟨i, tree, -, hk⟩ := declareTrees_found kinds_isKept (t := .empty) rfl f hf
  exact hk p hp

theorem globals_get? (id : TypeId) : c.globals.table.get? id = c.declaring.1.get? id :=
  (GlobalUsings.sameTypes_of _ _).get?_eq id

theorem kind?_globals (id : TypeId) : c.table.kind? id = c.globals.table.kind? id := by
  rw [table_eq]
  exact SymbolTable.kind?_contributions _ _ _

/-- The lists of bases of a type, those of earlier trees first and those of one tree in the order
    of its text, looked up. -/
def lists (id : TypeId) : List BoundBases :=
  (c.pending.filter (·.type = id)).map (·.bind c.globals)

variable {c} {id : TypeId} {s u : TypeSymbol}

/-- A symbol of the compilation is the one that was declared, with the lists of bases of its
    type added. -/
theorem table_get? : c.table.get? id =
    (c.declaring.1.get? id).map ((c.lists id).foldl (TypeSymbol.withBases c.table)) := by
  rw [TypeSymbol.withBases_congr c.kind?_globals, table_eq]
  refine (SymbolTable.get?_contributions _ _ _).trans ?_
  rw [← globals, globals_get?, List.filter_map]
  rfl

theorem base?_eq (hu : c.table.get? id = some u) :
    u.base? = ((c.lists id).filterMap (·.base? c.table)).getLast? := by
  obtain ⟨s, hs, rfl⟩ := Option.map_eq_some_iff.1 (table_get?.symm.trans hu)
  rw [TypeSymbol.base?_withBases, (c.declaring_isUnbound id s hs).1, Option.or_none]

theorem interfaces_eq (hu : c.table.get? id = some u) :
    u.interfaces = appendMissing [] ((c.lists id).flatMap (·.interfaces c.table)) := by
  obtain ⟨s, hs, rfl⟩ := Option.map_eq_some_iff.1 (table_get?.symm.trans hu)
  rw [TypeSymbol.interfaces_withBases, (c.declaring_isUnbound id s hs).2]

/-- **The last base class prevails.**  The base class of a type is that of the last of its lists
    that has one, whatever base class an earlier list has; all lists add their interfaces. -/
theorem last_base_prevails (hu : c.table.get? id = some u) :
    u.base? = ((c.lists id).filterMap (·.base? c.table)).getLast? ∧
      u.interfaces = appendMissing [] ((c.lists id).flatMap (·.interfaces c.table)) :=
  ⟨base?_eq hu, interfaces_eq hu⟩

/-- Two parts of a class, each with a base class: the second one stays. -/
theorem last_base_prevails_demo :
    let c := Compilation.of
      [.parse 0 "A.cs" ("class X \x7b \x7d class Y \x7b \x7d " ++
        "partial class A : X \x7b \x7d partial class A : Y \x7b \x7d")] [] .empty
    (c.lists (.ofName "A")).filterMap (·.base? c.table) =
        [.named (.ofName "X"), .named (.ofName "Y")] ∧
      ∃ u, c.table.get? (.ofName "A") = some u ∧ u.base? = some (.named (.ofName "Y")) := by
  intro c
  have hlists : (c.lists (.ofName "A")).filterMap (·.base? c.table) =
      [.named (.ofName "X"), .named (.ofName "Y")] := by
    decide +kernel
  obtain ⟨u, hu⟩ : ∃ u, c.table.get? (.ofName "A") = some u :=
    Option.isSome_iff_exists.1 (by decide +kernel)
  refine ⟨hlists, u, hu, (last_base_prevails hu).1.trans ?_⟩
  rw [hlists]
  rfl

/-! ## Bases are known -/

end Compilation

/-- The bases of a type are in the table.  Only classes and records have a base class, and it is
    one itself if it was found; no interface comes twice. -/
structure SymbolTable.HoldsBases (t : SymbolTable) (s : TypeSymbol) : Prop where
  known : ∀ id, .named id ∈ s.base?.toList ++ s.interfaces → t.Knows id
  kind : s.base?.isSome → s.kind.isClass = true
  base : ∀ id, s.base? = some (.named id) → ∃ b, t.get? id = some b ∧ b.kind.isClass = true
  nodup : s.interfaces.Nodup

namespace Compilation

variable {c : Compilation} {id : TypeId} {s : TypeSymbol} {b : BoundBases} {key : NodeKey}

/-- A list of a type was written in a declaration of its kind. -/
theorem lists_kind (hs : c.table.get? id = some s) (hb : b ∈ c.lists id) : b.kind = s.kind := by
  obtain ⟨p, hp, rfl⟩ := List.mem_map.1 hb
  obtain ⟨hp, hid⟩ := List.mem_filter.1 hp
  have hid : p.type = id := by simpa using hid
  have hk := (SymbolTable.extends_of_steps c.table_steps_of_declaring).kind?_eq_some
    (c.pending_kind p hp)
  rw [hid, SymbolTable.kind?, hs] at hk
  exact (Option.some_inj.1 hk).symm

/-- What is found for a list is in the table. -/
theorem lists_known (h : ∀ tree ∈ c.trees, tree.IsParsed) (hb : b ∈ c.lists id) {j : TypeId}
    (hj : .named j ∈ b.refs) : c.table.Knows j := by
  obtain ⟨p, hp, rfl⟩ := List.mem_map.1 hb
  have hsound : c.declaring.1.Sound :=
    SymbolTable.sound_of_steps c.declaring_steps SymbolTable.sound_empty
  have hover := GlobalUsings.isOver_of hsound (c.globalUsings_named h)
  have hknows := (c.pending_isIn h p (List.mem_filter.1 hp).1).bind_knows hsound hover hj
  exact hknows.mono (SymbolTable.extends_of_steps c.table_steps_of_declaring)

theorem holdsBases (h : ∀ tree ∈ c.trees, tree.IsParsed) (hs : c.table.get? id = some s) :
    c.table.HoldsBases s := by
  have hbase {r : TypeRef} (hr : s.base? = some r) : ∃ b ∈ c.lists id, b.base? c.table = some r := by
    rw [base?_eq hs] at hr
    exact List.mem_filterMap.1 (List.mem_of_getLast? hr)
  refine ⟨fun j hj => ?_, fun hsome => ?_, fun j hj => ?_, ?_⟩
  · rcases List.mem_append.1 hj with hj | hj
    · obtain ⟨b, hb, hr⟩ := hbase (Option.mem_toList.1 hj)
      exact lists_known h hb (BoundBases.base?_cases hr).2.1
    · rw [interfaces_eq hs, mem_appendMissing] at hj
      obtain ⟨b, hb, hj⟩ := List.mem_flatMap.1 (hj.resolve_left List.not_mem_nil)
      exact lists_known h hb (BoundBases.interfaces_subset hj)
  · obtain ⟨r, hr⟩ := Option.isSome_iff_exists.1 hsome
    obtain ⟨b, hb, hr⟩ := hbase hr
    exact lists_kind hs hb ▸ (BoundBases.base?_cases hr).1
  · obtain ⟨b, hb, hr⟩ := hbase hj
    obtain ⟨k, hk, hclass⟩ := (Option.any_eq_true _ _).1 (BoundBases.base?_cases hr).2.2
    obtain ⟨x, hx, rfl⟩ := Option.map_eq_some_iff.1 hk
    exact ⟨x, hx, hclass⟩
  · rw [interfaces_eq hs]
    exact nodup_appendMissing List.nodup_nil

/-- A declaration that was accepted leads to a symbol that has it. -/
theorem declared_found (hkey : key ∈ c.symbols.declared.map Prod.fst) :
    ∃ s n tree x, c.symbolOf? key = some s ∧ c.tree? n = some tree ∧
      Node.ofDeclaration x ∈ tree.nodes ∧ key = tree.key x.span ∧
        ⟨n, key, x.span⟩ ∈ s.declarations := by
  obtain ⟨id, hl⟩ : ∃ id, c.symbols.declared.lookup key = some id := by
    obtain ⟨e, he, rfl⟩ := List.mem_map.1 hkey
    exact Option.isSome_iff_exists.1 (List.lookup_isSome_iff.2 ⟨e, he, beq_self_eq_true _⟩)
  have hmem : (key, id) ∈ c.symbols.declared := by
    obtain ⟨as, bs, heq, -⟩ := List.lookup_eq_some_iff.1 hl
    simp [heq]
  obtain ⟨n, tree, htree, x, d, name, s, hx, hk, -, hget, hhas⟩ := declaredBy hmem
  refine ⟨s, n, tree, x, by rw [symbolOf?, hl]; exact hget, htree, hx.node, hk, ?_⟩
  rw [hk, ← hx.site]
  exact hhas.site

/-- **The bases of all types are known**: they are types of the compilation, of the right kinds
    and without repetitions.  Each declaration that was accepted leads to a symbol that has it. -/
theorem bases_known (h : ∀ tree ∈ c.trees, tree.IsParsed) :
    (∀ id s, c.table.get? id = some s → c.table.HoldsBases s) ∧
      ∀ key ∈ c.symbols.declared.map Prod.fst, ∃ s n tree x, c.symbolOf? key = some s ∧
        c.tree? n = some tree ∧ Node.ofDeclaration x ∈ tree.nodes ∧ key = tree.key x.span ∧
          ⟨n, key, x.span⟩ ∈ s.declarations :=
  ⟨fun _ _ hs => holdsBases h hs, fun _ hkey => declared_found hkey⟩

/-- The base is a nested type, the interface is named by an alias and written twice. -/
theorem bases_known_demo :
    let c := Compilation.of
      [.parse 0 "A.cs" ("using J = I; interface I \x7b \x7d " ++
        "partial class A : A.N, J \x7b class N \x7b \x7d \x7d partial class A : I \x7b \x7d")]
      [] .empty
    ∃ s, c.table.get? (.ofName "A") = some s ∧ c.table.HoldsBases s ∧
      s.base? = some (.named (.nested (.ofName "A") "N")) ∧
        s.interfaces = [.named (.ofName "I")] := by
  intro c
  have hparsed : ∀ tree ∈ c.trees, tree.IsParsed := List.forall_mem_singleton.2 ⟨_, _, _, rfl⟩
  have hbases : (c.table.get? (.ofName "A")).map (fun s => (s.base?, s.interfaces)) =
      some (some (.named (.nested (.ofName "A") "N")), [.named (.ofName "I")]) := by
    decide +kernel
  obtain ⟨s, hs, heq⟩ := Option.map_eq_some_iff.1 hbases
  exact ⟨s, hs, (bases_known hparsed).1 _ s hs, Prod.mk.inj heq⟩

end Compilation

end CommandModules

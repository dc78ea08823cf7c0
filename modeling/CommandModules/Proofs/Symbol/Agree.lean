/-
  Command modules — tables that agree.

  Two tables may number their namespaces differently and list their types in different orders,
  and yet say the same.

  * `Namespaces.Same`: two numbers stand for the same path; what is found by paths, below a
    namespace and around it, is the same then;
  * `SymbolTable.Agrees`: the tables have the same namespaces and the same types, with the
    same names, kinds, modifiers, containers and bases;
  * `Agrees.lookup_eq`: so containers that agree list the same types by name.
-/
import Mathlib.Data.List.Forall2
import CommandModules.Proofs.Symbol.Described
import CommandModules.Proofs.Symbol.Indexed

namespace CommandModules

/-! ## Related options and lists -/

section
variable {α β γ δ : Type} {R : α → β → Prop} {S : γ → δ → Prop} {a : Option α} {b : Option β}

theorem rel_eq_iff {a b : Option α} : Option.Rel (· = ·) a b ↔ a = b := by
  constructor
  · rintro (h | _)
    · exact congrArg some h
    · rfl
  · rintro rfl
    cases a with
    | none => exact .none
    | some a => exact .some rfl

theorem rel_some_left {x : α} (h : Option.Rel R a b) (ha : a = some x) : ∃ y, b = some y ∧ R x y := by
  cases h with
  | some h => exact ⟨_, rfl, Option.some_inj.1 ha ▸ h⟩
  | none => cases ha

theorem rel_some_right {y : β} (h : Option.Rel R a b) (hb : b = some y) : ∃ x, a = some x ∧ R x y := by
  cases h with
  | some h => exact ⟨_, rfl, Option.some_inj.1 hb ▸ h⟩
  | none => cases hb

theorem rel_isSome (h : Option.Rel R a b) : b.isSome = a.isSome := by
  cases h <;> rfl

theorem rel_imp {R' : α → β → Prop} (h : Option.Rel R a b) (hR : ∀ x y, R x y → R' x y) :
    Option.Rel R' a b := by
  cases h with
  | some h => exact .some (hR _ _ h)
  | none => exact .none

theorem rel_bind {f : α → Option γ} {g : β → Option δ} (h : Option.Rel R a b)
    (hfg : ∀ x y, R x y → Option.Rel S (f x) (g y)) : Option.Rel S (a.bind f) (b.bind g) := by
  cases h with
  | some h => exact hfg _ _ h
  | none => exact .none

theorem rel_map {f : α → γ} {g : β → δ} (h : Option.Rel R a b) (hfg : ∀ x y, R x y → S (f x) (g y)) :
    Option.Rel S (a.map f) (b.map g) := by
  cases h with
  | some h => exact .some (hfg _ _ h)
  | none => exact .none

theorem rel_findSome? {as : List α} {bs : List β} {f : α → Option γ} {g : β → Option δ}
    (h : List.Forall₂ R as bs) (hfg : ∀ x y, R x y → Option.Rel S (f x) (g y)) :
    Option.Rel S (as.findSome? f) (bs.findSome? g) := by
  induction h with
  | nil => exact .none
  | @cons x y as bs hxy _ ih =>
    rw [List.findSome?_cons, List.findSome?_cons]
    have hrel := hfg x y hxy
    generalize f x = u, g y = v at hrel
    cases hrel with
    | some h => exact .some h
    | none => exact ih

/-- Related elements are elements of the lists. -/
theorem forall₂_with_mem {as : List α} {bs : List β} (h : List.Forall₂ R as bs) :
    List.Forall₂ (fun a b => a ∈ as ∧ b ∈ bs ∧ R a b) as bs := by
  have hleft := (List.forall₂_and_left _ _).2 ⟨fun a ha => ha, h⟩
  have hboth := (List.forall₂_and_left _ _).2 ⟨fun b hb => hb, hleft.flip⟩
  exact hboth.flip.imp fun a b ⟨hb, ha, hab⟩ => ⟨ha, hb, hab⟩

theorem rel_lookup {as : List (String × γ)} {bs : List (String × δ)} (key : String)
    (h : List.Forall₂ (fun x y => x.1 = y.1 ∧ S x.2 y.2) as bs) :
    Option.Rel S (as.lookup key) (bs.lookup key) := by
  induction h with
  | nil => exact .none
  | @cons x y as bs hxy _ ih =>
    obtain ⟨hkey, hvalue⟩ := hxy
    rw [List.lookup_cons, List.lookup_cons, ← hkey]
    cases key == x.1 with
    | true => exact .some hvalue
    | false => exact ih

end

/-! ## Namespaces -/

namespace Namespaces

/-- The numbers stand for the same path. -/
def Same (s s' : Namespaces) (n n' : Nat) : Prop :=
  ∃ p, s.path? n = some p ∧ s'.path? n' = some p

/-- The lists of numbers stand for the same paths, whatever their order. -/
structure SameAll (s s' : Namespaces) (ns ns' : List Nat) : Prop where
  left : ∀ n ∈ ns, ∃ n' ∈ ns', Same s s' n n'
  right : ∀ n' ∈ ns', ∃ n ∈ ns, Same s s' n n'

/-- The same paths are there, each of them once. -/
structure Agree (s s' : Namespaces) : Prop where
  mem_iff : ∀ p, p ∈ s'.paths ↔ p ∈ s.paths
  nodup : s.paths.Nodup
  nodup' : s'.paths.Nodup

variable {s s' : Namespaces} {n n' m m' : Nat} {ns ns' ms ms' : List Nat}

theorem Same.of_prefix {u u' : Namespaces} (h : Same s s' n n') (hs : s.paths <+: u.paths)
    (hs' : s'.paths <+: u'.paths) : Same u u' n n' := by
  obtain ⟨p, hp, hp'⟩ := h
  exact ⟨p, path?_of_prefix hs hp, path?_of_prefix hs' hp'⟩

namespace SameAll

theorem of_forall₂ (h : List.Forall₂ (Same s s') ns ns') : SameAll s s' ns ns' := by
  induction h with
  | nil => exact ⟨nofun, nofun⟩
  | @cons n n' ns ns' hn _ ih =>
    refine ⟨List.forall_mem_cons.2 ⟨⟨n', List.mem_cons_self, hn⟩, fun m hm => ?_⟩,
      List.forall_mem_cons.2 ⟨⟨n, List.mem_cons_self, hn⟩, fun m hm => ?_⟩⟩
    · obtain ⟨m', hm', h⟩ := ih.left m hm
      exact ⟨m', List.mem_cons_of_mem _ hm', h⟩
    · obtain ⟨m', hm', h⟩ := ih.right m hm
      exact ⟨m', List.mem_cons_of_mem _ hm', h⟩

theorem of_prefix {u u' : Namespaces} (h : SameAll s s' ns ns') (hs : s.paths <+: u.paths)
    (hs' : s'.paths <+: u'.paths) : SameAll u u' ns ns' where
  left n hn := (h.left n hn).imp fun _ => .imp_right fun hsame => hsame.of_prefix hs hs'
  right n hn := (h.right n hn).imp fun _ => .imp_right fun hsame => hsame.of_prefix hs hs'

theorem append (h : SameAll s s' ns ns') (h' : SameAll s s' ms ms') :
    SameAll s s' (ns ++ ms) (ns' ++ ms') where
  left := List.forall_mem_append.2
    ⟨fun n hn => (h.left n hn).imp fun _ => .imp_left (List.mem_append_left _),
      fun n hn => (h'.left n hn).imp fun _ => .imp_left (List.mem_append_right _)⟩
  right := List.forall_mem_append.2
    ⟨fun n hn => (h.right n hn).imp fun _ => .imp_left (List.mem_append_left _),
      fun n hn => (h'.right n hn).imp fun _ => .imp_left (List.mem_append_right _)⟩

end SameAll

namespace Agree

variable (h : Agree s s')
include h

/-- A path has one number on each side. -/
theorem same_iff (hn : Same s s' n n') (hm : Same s s' m m') : n = m ↔ n' = m' := by
  obtain ⟨p, hp, hp'⟩ := hn
  obtain ⟨q, hq, hq'⟩ := hm
  constructor
  · rintro rfl
    obtain rfl := Option.some_inj.1 (hp.symm.trans hq)
    exact Option.some_inj.1 (((find?_eq_some_iff h.nodup').2 hp').symm.trans
      ((find?_eq_some_iff h.nodup').2 hq'))
  · rintro rfl
    obtain rfl := Option.some_inj.1 (hp'.symm.trans hq')
    exact Option.some_inj.1 (((find?_eq_some_iff h.nodup).2 hp).symm.trans
      ((find?_eq_some_iff h.nodup).2 hq))

theorem rel_find? (p : List String) : Option.Rel (Same s s') (s.find? p) (s'.find? p) := by
  cases hn : s.find? p with
  | some n =>
    have hp := find?_path? hn
    obtain ⟨n', hn'⟩ := Option.isSome_iff_exists.1
      (find?_isSome ((h.mem_iff p).2 (mem_paths_of_path? hp)))
    rw [hn']
    exact .some ⟨p, hp, find?_path? hn'⟩
  | none =>
    cases hn' : s'.find? p with
    | none => exact .none
    | some n' =>
      have hmem := find?_isSome ((h.mem_iff p).1 (mem_paths_of_path? (find?_path? hn')))
      rw [hn] at hmem
      cases hmem

theorem rel_child? (hn : Same s s' n n') (name : String) :
    Option.Rel (Same s s') (s.child? n name) (s'.child? n' name) := by
  obtain ⟨p, hp, hp'⟩ := hn
  rw [child?_eq hp, child?_eq hp']
  exact h.rel_find? _

theorem rel_descend? (hn : Same s s' n n') (names : List String) :
    Option.Rel (Same s s') (s.descend? n names) (s'.descend? n' names) := by
  induction names generalizing n n' with
  | nil => exact .some hn
  | cons name names ih => exact rel_bind (h.rel_child? hn name) fun _ _ => ih

theorem rel_enclosing (hn : Same s s' n n') :
    List.Forall₂ (Same s s') (s.enclosing n) (s'.enclosing n') := by
  obtain ⟨p, hp, hp'⟩ := hn
  unfold enclosing
  rw [path_eq hp, path_eq hp']
  refine .cons ⟨p, hp, hp'⟩ (List.rel_filterMap ?_ (List.forall₂_refl _ : List.Forall₂ Eq _ _))
  rintro q _ rfl
  exact h.rel_find? q

end Agree

end Namespaces

/-! ## Types -/

open Namespaces

/-- The places stand for the same namespace or type. -/
inductive Place.Agrees (s s' : Namespaces) : Place → Place → Prop
  | namespace_ {n n' : Nat} (h : Same s s' n n') : Agrees s s' (.namespace_ n) (.namespace_ n')
  | type (id : TypeId) : Agrees s s' (.type id) (.type id)

/-- The symbols are the same, save accessibility, declarations and the order of what is nested
    in them. -/
structure TypeSymbol.Agrees (ns ns' : Namespaces) (s s' : TypeSymbol) : Prop where
  name : s'.name = s.name
  arity : s'.arity = s.arity
  kind : s'.kind = s.kind
  modifiers : s'.modifiers = s.modifiers
  namespace_ : Same ns ns' s.namespace_ s'.namespace_
  containing : s'.containing? = s.containing?
  base? : s'.base? = s.base?
  interfaces : s'.interfaces = s.interfaces

theorem TypeSymbol.Agrees.of_prefix {ns ns' ms ms' : Namespaces} {s s' : TypeSymbol}
    (h : s.Agrees ns ns' s') (hs : ns.paths <+: ms.paths) (hs' : ns'.paths <+: ms'.paths) :
    s.Agrees ms ms' s' :=
  { h with namespace_ := h.namespace_.of_prefix hs hs' }

namespace SymbolTable

/-- Each type is found in all ways, and each namespace by its path. -/
structure IsOrderly (t : SymbolTable) : Prop where
  root : t.namespaces.path? Namespaces.root = some []
  nodup : t.namespaces.paths.Nodup
  indexed : t.Indexed

/-- The tables have the same namespaces and the same types. -/
structure Agrees (t t' : SymbolTable) : Prop where
  left : t.IsOrderly
  right : t'.IsOrderly
  paths : ∀ p, p ∈ t'.namespaces.paths ↔ p ∈ t.namespaces.paths
  globalUsings : SameAll t.namespaces t'.namespaces t.namespaces.globalUsings t'.namespaces.globalUsings
  types : ∀ id, Option.Rel (TypeSymbol.Agrees t.namespaces t'.namespaces) (t.get? id) (t'.get? id)

variable {t t' : SymbolTable} {place place' : Place} {n n' : Nat} {name : String} {id : TypeId}
  {s s' : TypeSymbol}

namespace Agrees

variable (h : t.Agrees t')
include h

theorem spaces : Namespaces.Agree t.namespaces t'.namespaces :=
  ⟨h.paths, h.left.nodup, h.right.nodup⟩

theorem root : Same t.namespaces t'.namespaces Namespaces.root Namespaces.root :=
  ⟨[], h.left.root, h.right.root⟩

theorem get?_right (hs : t.get? id = some s) :
    ∃ s', t'.get? id = some s' ∧ s.Agrees t.namespaces t'.namespaces s' :=
  rel_some_left (h.types id) hs

theorem get?_left (hs' : t'.get? id = some s') :
    ∃ s, t.get? id = some s ∧ s.Agrees t.namespaces t'.namespaces s' :=
  rel_some_right (h.types id) hs'

theorem get?_eq_none (hs : t.get? id = none) : t'.get? id = none := by
  have hsome := rel_isSome (h.types id)
  rwa [hs, Option.isSome_none, Option.isSome_eq_false_iff, Option.isNone_iff_eq_none] at hsome

/-- Symbols that agree are in the same containers. -/
theorem place_iff (hs : s.Agrees t.namespaces t'.namespaces s')
    (hp : place.Agrees t.namespaces t'.namespaces place') : s'.place = place' ↔ s.place = place := by
  cases hp with
  | namespace_ hn =>
    rw [TypeSymbol.place_eq_namespace, TypeSymbol.place_eq_namespace, hs.containing,
      h.spaces.same_iff hs.namespace_ hn]
  | type id => rw [TypeSymbol.place_eq_type, TypeSymbol.place_eq_type, hs.containing]

/-- **The same types are found by name** in containers that agree. -/
theorem lookup_eq (hp : place.Agrees t.namespaces t'.namespaces place') (name : String) :
    (t'.namesIn place').lookup name = (t.namesIn place).lookup name := by
  have hname {s s' : TypeSymbol} (hs : s.Agrees t.namespaces t'.namespaces s') :
      s'.metadataName = s.metadataName := by
    rw [TypeSymbol.metadataName, hs.name, hs.arity]
    rfl
  refine Option.ext fun id => ?_
  rw [h.left.indexed.lookup_namesIn_iff, h.right.indexed.lookup_namesIn_iff]
  constructor
  · rintro ⟨s', hs', hplace, hmeta⟩
    obtain ⟨s, hs, hrel⟩ := h.get?_left hs'
    exact ⟨s, hs, (h.place_iff hrel hp).1 hplace, (hname hrel).symm.trans hmeta⟩
  · rintro ⟨s, hs, hplace, hmeta⟩
    obtain ⟨s', hs', hrel⟩ := h.get?_right hs
    exact ⟨s', hs', (h.place_iff hrel hp).2 hplace, (hname hrel).trans hmeta⟩

theorem typeIn?_eq (hn : Same t.namespaces t'.namespaces n n') (name : String) :
    t'.namespaces.typeIn? n' name = t.namespaces.typeIn? n name := by
  rw [← lookup_namesIn_namespace, ← lookup_namesIn_namespace]
  exact h.lookup_eq (.namespace_ hn) name

theorem nested?_eq (hs : t.get? id = some s) (hs' : t'.get? id = some s') (name : String) :
    s'.nested? name = s.nested? name := by
  rw [← lookup_namesIn_type hs, ← lookup_namesIn_type hs']
  exact h.lookup_eq (.type id) name

/-- Tables that agree have equally many types. -/
theorem length_types_eq : t'.types.length = t.types.length := by
  have hlen {u : SymbolTable} (hu : u.Indexed) : u.types.length = u.order.length := by
    rw [← hu.order_eq, List.length_map]
  have hperm : t'.order.Perm t.order := by
    refine (List.perm_ext_iff_of_nodup h.right.indexed.order_nodup h.left.indexed.order_nodup).2
      fun id => ?_
    rw [h.right.indexed.mem_order_iff, h.left.indexed.mem_order_iff, rel_isSome (h.types id)]
  rw [hlen h.right.indexed, hlen h.left.indexed, hperm.length_eq]

theorem nestedAround?_eq (name : String) (depth : Nat) (around? : Option TypeId) :
    t'.nestedAround? name depth around? = t.nestedAround? name depth around? := by
  induction depth generalizing around? with
  | zero => rfl
  | succ depth ih =>
    cases around? with
    | none => rfl
    | some id =>
      rw [nestedAround?, nestedAround?]
      cases hs : t.get? id with
      | none =>
        rw [h.get?_eq_none hs]
        rfl
      | some s =>
        obtain ⟨s', hs', hrel⟩ := h.get?_right hs
        rw [hs']
        simp only [Option.bind_eq_bind, Option.bind_some, h.nested?_eq hs hs', hrel.containing, ih]

end Agrees

end SymbolTable

end CommandModules

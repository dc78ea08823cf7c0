/-
  Command modules — the walk along base classes.

  From a type the links to base classes lead on and on, perhaps in a circle.

  * `SymbolTable.link?` is what is met at each step of the walk;
  * `SymbolTable.IsCutWalk`: a list is this walk, cut before the first type that repeats;
  * `derivesFrom_iff`: a type derives from all that the links lead to;
  * `baseChain_walks`: the chain of a type is its walk, cut; deriving is a preorder.
-/
import Mathlib.Logic.Relation
import Mathlib.Order.Defs.Unbundled
import CommandModules.Proofs.Symbol.BaseChain

namespace CommandModules.SymbolTable

open Relation

variable {t : SymbolTable} {id a : TypeId} {r : TypeRef} {refs refs' : List TypeRef} {k : Nat}

/-- What is met at step `k` of the walk along links to base classes.  A type that was not found
    leads nowhere. -/
def link? (t : SymbolTable) (id : TypeId) : Nat → Option TypeRef
  | 0 => t.base? id
  | k + 1 => ((t.link? id k).bind TypeRef.id?).bind t.base?

/-- The second type is the base class of the first one. -/
def HasBase (t : SymbolTable) (id a : TypeId) : Prop :=
  t.base? id = some (.named a)

/-- The list is the walk from the type on, cut before the first type that repeats. -/
structure IsCutWalk (t : SymbolTable) (id : TypeId) (refs : List TypeRef) : Prop where
  links : ∀ k < refs.length, refs[k]? = t.link? id k
  ends : ∀ r, t.link? id refs.length = some r → r = .named id ∨ r ∈ refs
  nodup : refs.Nodup
  start : .named id ∉ refs

theorem link?_of_named {m : TypeId} (hb : t.base? id = some (.named m)) (k : Nat) :
    t.link? id (k + 1) = t.link? m k := by
  induction k with
  | zero => simp [link?, hb, TypeRef.id?]
  | succ k ih => rw [link?, ih, link?]

/-- The walk meets what the type inherits from. -/
theorem inherits_of_link? (h : t.link? id k = some r) : t.Inherits id r := by
  induction k generalizing r with
  | zero => exact .base h
  | succ k ih =>
    obtain ⟨m, hm, hr⟩ := Option.bind_eq_some_iff.1 h
    obtain ⟨next, hnext, hid⟩ := Option.bind_eq_some_iff.1 hm
    cases next with
    | named m' =>
      obtain rfl := Option.some_inj.1 hid
      exact .step (ih hnext) hr
    | unresolved type => cases hid

/-- A chain has the types of the walk, in their order. -/
theorem baseChainFrom_links {fuel : Nat} {visited : List TypeId} {v : TypeId}
    (hk : k < (t.baseChainFrom fuel visited (t.base? v)).length) :
    (t.baseChainFrom fuel visited (t.base? v))[k]? = t.link? v k := by
  induction fuel generalizing visited v k with
  | zero => cases hk
  | succ fuel ih =>
    cases hb : t.base? v with
    | none =>
      rw [hb] at hk
      cases hk
    | some next =>
      rw [hb] at hk
      cases next with
      | unresolved type =>
        obtain rfl : k = 0 := Nat.lt_one_iff.1 hk
        exact hb.symm
      | named m =>
        rw [baseChainFrom] at hk ⊢
        split at hk
        · cases hk
        · rename_i hm
          rw [if_neg hm]
          cases k with
          | zero => exact hb.symm
          | succ k =>
            rw [List.getElem?_cons_succ, link?_of_named hb]
            exact ih (Nat.lt_of_succ_lt_succ hk)

/-- No type comes twice, since each is visited as it comes. -/
theorem nodup_baseChainFrom (fuel : Nat) (visited : List TypeId) (next? : Option TypeRef) :
    (t.baseChainFrom fuel visited next?).Nodup := by
  fun_induction baseChainFrom t fuel visited next? with
  | case1 => exact List.nodup_nil
  | case2 => exact List.nodup_nil
  | case3 => exact List.pairwise_singleton _ _
  | case4 => exact List.nodup_nil
  | case5 visited fuel m hnew ih =>
    refine List.nodup_cons.2 ⟨fun hmem => ?_, ih⟩
    have hbase : ∀ r, t.base? m = some r → t.Inherits m r := fun _ => .base
    exact (inherits_of_mem hbase hmem).2 m List.mem_cons_self rfl

theorem baseChain_isCutWalk (t : SymbolTable) (id : TypeId) : t.IsCutWalk id (t.baseChain id) where
  links _ hk := baseChainFrom_links hk
  ends r hr := (Classical.em (r = .named id)).imp_right fun hne =>
    mem_baseChain.2 ⟨inherits_of_link? hr, hne⟩
  nodup := nodup_baseChainFrom _ _ _
  start hmem := (mem_baseChain.1 hmem).2 rfl

/-- Of two cuts of one walk neither is the longer one: there is a type in it that repeats. -/
theorem IsCutWalk.length_le (h : t.IsCutWalk id refs) (h' : t.IsCutWalk id refs') :
    refs'.length ≤ refs.length := by
  by_contra hlt
  rw [Nat.not_le] at hlt
  obtain ⟨r, hr⟩ : ∃ r, refs'[refs.length]? = some r := ⟨_, List.getElem?_eq_getElem hlt⟩
  rcases h.ends r (h'.links _ hlt ▸ hr) with rfl | hmem
  · exact h'.start (List.mem_of_getElem? hr)
  · obtain ⟨k, hk, hkr⟩ := List.getElem_of_mem hmem
    have hlt' : k < refs'.length := Nat.lt_trans hk hlt
    have hk' : refs'[k]? = some r := by
      rw [h'.links k hlt', ← h.links k hk, List.getElem?_eq_getElem hk, hkr]
    exact Nat.ne_of_lt hk ((List.getElem?_inj hlt' h'.nodup).1 (hk'.trans hr.symm))

theorem IsCutWalk.unique (h : t.IsCutWalk id refs) (h' : t.IsCutWalk id refs') : refs = refs' := by
  have hlen : refs.length = refs'.length := Nat.le_antisymm (h'.length_le h) (h.length_le h')
  refine List.ext_getElem? fun k => ?_
  by_cases hk : k < refs.length
  · rw [h.links k hk, h'.links k (hlen ▸ hk)]
  · rw [List.getElem?_eq_none (Nat.le_of_not_lt hk),
      List.getElem?_eq_none (hlen ▸ Nat.le_of_not_lt hk)]

/-! ## Deriving -/

theorem inherits_named_iff : t.Inherits id (.named a) ↔ TransGen t.HasBase id a := by
  constructor
  · intro h
    generalize hr : TypeRef.named a = r at h
    induction h generalizing a with
    | base hb =>
      subst hr
      exact .single hb
    | step _ hb ih =>
      subst hr
      exact (ih rfl).tail hb
  · intro h
    induction h with
    | single hb => exact .base hb
    | tail _ hb ih => exact ih.step hb

/-- **A type derives from all that links to base classes lead to.** -/
theorem derivesFrom_iff : t.derivesFrom id a = true ↔ ReflTransGen t.HasBase id a := by
  have hchain :
      ((t.baseChain id).any fun r => r.id? == some a) = true ↔ .named a ∈ t.baseChain id := by
    rw [List.any_eq_true]
    constructor
    · rintro ⟨r, hr, hid⟩
      cases r with
      | named m => exact Option.some_inj.1 (eq_of_beq hid) ▸ hr
      | unresolved type => cases eq_of_beq hid
    · exact fun h => ⟨_, h, beq_self_eq_true _⟩
  rw [derivesFrom, Bool.or_eq_true, beq_iff_eq, hchain, mem_baseChain, inherits_named_iff,
    reflTransGen_iff_eq_or_transGen, eq_comm (a := a)]
  refine or_congr_right' fun hne => and_iff_left fun h => ?_
  exact hne (TypeRef.named.inj h).symm

/-- **The chain of base classes is the walk along the links**, cut before the first type that
    repeats: it comes to an end, whatever circles the links make.  A type derives from itself and
    from all that the links lead to, and deriving is a preorder. -/
theorem baseChain_walks (t : SymbolTable) (id : TypeId) :
    (∀ refs, t.IsCutWalk id refs ↔ refs = t.baseChain id) ∧
      (∀ a, t.derivesFrom id a = true ↔ ReflTransGen t.HasBase id a) ∧
      IsPreorder TypeId fun a b => t.derivesFrom a b = true := by
  refine ⟨fun refs => ⟨fun h => h.unique (baseChain_isCutWalk t id), ?_⟩,
    fun a => derivesFrom_iff, ?_⟩
  · rintro rfl
    exact baseChain_isCutWalk t id
  · simp only [derivesFrom_iff]
    exact { refl := fun _ => .refl, trans := fun _ _ _ => .trans }

end CommandModules.SymbolTable

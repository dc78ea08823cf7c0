/-
  Command modules — base classes, one after the other.

  The base classes of a type are found by following links, up to a type that was
  met before.  `Inherits` says what can be reached through such links at all.

  * `mem_baseChain`: the chain of a type holds just what it inherits from, itself
    aside; links that lead in a circle do not matter, and no part of a long chain
    is missed.
-/
import Mathlib.Data.List.Perm.Subperm
import CommandModules.Symbol.Table

namespace CommandModules.SymbolTable

variable {t : SymbolTable} {id m v : TypeId} {vs visited : List TypeId} {r : TypeRef} {fuel : Nat}

/-- The type leads to `r` through one or more links to base classes. -/
inductive Inherits (t : SymbolTable) (id : TypeId) : TypeRef → Prop
  | base {r : TypeRef} (h : t.base? id = some r) : Inherits t id r
  | step {m : TypeId} {r : TypeRef} (hm : Inherits t id (.named m)) (h : t.base? m = some r) :
      Inherits t id r

theorem get?_isSome_of_base? (h : t.base? id = some r) : (t.get? id).isSome := by
  obtain ⟨s, hs, -⟩ := Option.bind_eq_some_iff.1 h
  rw [hs]
  rfl

theorem mem_of_get? {s : TypeSymbol} (h : t.get? id = some s) : (id, s) ∈ t.types := by
  obtain ⟨before, behind, heq, -⟩ := List.lookup_eq_some_iff.1 h
  rw [heq]
  simp

/-- There are not more types than symbols. -/
theorem length_le_types (hd : vs.Nodup) (h : ∀ w ∈ vs, (t.get? w).isSome) :
    vs.length ≤ t.types.length := by
  have hsub : vs ⊆ t.types.map Prod.fst := by
    intro w hw
    obtain ⟨s, hs⟩ := Option.isSome_iff_exists.1 (h w hw)
    exact List.mem_map_of_mem (mem_of_get? hs)
  simpa using (List.subperm_of_subset hd hsub).length_le

theorem inherits_of_mem {next? : Option TypeRef} (hn : ∀ r, next? = some r → t.Inherits id r)
    (hr : r ∈ t.baseChainFrom fuel visited next?) :
    t.Inherits id r ∧ ∀ w ∈ visited, r ≠ .named w := by
  fun_induction baseChainFrom t fuel visited next? with
  | case1 => cases hr
  | case2 => cases hr
  | case3 _ _ type =>
    obtain rfl := List.mem_singleton.1 hr
    exact ⟨hn _ rfl, nofun⟩
  | case4 => cases hr
  | case5 visited fuel next hnew ih =>
    have hnext := hn _ rfl
    rcases List.mem_cons.1 hr with rfl | hr
    · refine ⟨hnext, fun w hw h => ?_⟩
      obtain rfl := TypeRef.named.inj h
      exact hnew (by simpa using hw)
    · obtain ⟨hi, hv⟩ := ih (fun _ hb => .step hnext hb) hr
      exact ⟨hi, fun w hw => hv w (List.mem_cons_of_mem _ hw)⟩

/-- A chain goes on behind each type in it, unless it comes back to a type that was
    visited: there are not enough types to use the fuel up. -/
theorem baseChainFrom_closed (hf : t.types.length + 1 ≤ fuel + vs.length) (hd : (v :: vs).Nodup)
    (hs : ∀ w ∈ vs, (t.get? w).isSome)
    (hm : m = v ∨ .named m ∈ t.baseChainFrom fuel (v :: vs) (t.base? v))
    (hb : t.base? m = some r) :
    r ∈ t.baseChainFrom fuel (v :: vs) (t.base? v) ∨ ∃ w ∈ v :: vs, r = .named w := by
  induction fuel generalizing v vs with
  | zero =>
    have := length_le_types (List.nodup_cons.1 hd).2 hs
    omega
  | succ fuel ih =>
    cases hn : t.base? v with
    | none =>
      rw [hn] at hm
      rcases hm with rfl | hm
      · rw [hb] at hn
        cases hn
      · cases hm
    | some next =>
      rw [hn] at hm
      have start (hv : m = v) : r = next := Option.some_inj.1 (hb.symm.trans (hv ▸ hn))
      cases next with
      | unresolved type =>
        rcases hm with hv | hm
        · exact .inl (List.mem_singleton.2 (start hv))
        · cases List.mem_singleton.1 hm
      | named u =>
        rw [baseChainFrom] at hm ⊢
        split at hm
        · rename_i hu
          rw [if_pos hu]
          rcases hm with hv | hm
          · exact .inr ⟨u, by simpa using hu, start hv⟩
          · cases hm
        · rename_i hu
          rw [if_neg hu]
          rcases hm with hv | hm
          · exact .inl (List.mem_cons.2 (.inl (start hv)))
          have hu : u ∉ v :: vs := by simpa using hu
          have hs' : ∀ w ∈ v :: vs, (t.get? w).isSome :=
            List.forall_mem_cons.2 ⟨get?_isSome_of_base? hn, hs⟩
          have hm' : m = u ∨ .named m ∈ t.baseChainFrom fuel (u :: v :: vs) (t.base? u) :=
            (List.mem_cons.1 hm).imp_left TypeRef.named.inj
          rcases ih (by simp only [List.length_cons]; omega) (List.nodup_cons.2 ⟨hu, hd⟩) hs' hm'
            with h | ⟨w, hw, rfl⟩
          · exact .inl (List.mem_cons_of_mem _ h)
          · rcases List.mem_cons.1 hw with rfl | hw
            · exact .inl List.mem_cons_self
            · exact .inr ⟨w, hw, rfl⟩

/-- **The chain of base classes is all that a type inherits from**, itself aside. -/
theorem mem_baseChain : r ∈ t.baseChain id ↔ t.Inherits id r ∧ r ≠ .named id := by
  constructor
  · intro hr
    obtain ⟨hi, hv⟩ := inherits_of_mem (fun _ => .base) hr
    exact ⟨hi, hv id List.mem_cons_self⟩
  · rintro ⟨hi, hne⟩
    have closed {m : TypeId} {r : TypeRef} (hm : m = id ∨ .named m ∈ t.baseChain id)
        (hb : t.base? m = some r) : r ∈ t.baseChain id ∨ r = .named id := by
      rcases baseChainFrom_closed (Nat.le_refl _) (by simp) (by simp) hm hb with h | ⟨w, hw, h⟩
      · exact .inl h
      · exact .inr (List.mem_singleton.1 hw ▸ h)
    refine Or.resolve_right ?_ hne
    clear hne
    induction hi with
    | base h => exact closed (.inl rfl) h
    | step _ h ih => exact closed (ih.symm.imp_left TypeRef.named.inj) h

end CommandModules.SymbolTable

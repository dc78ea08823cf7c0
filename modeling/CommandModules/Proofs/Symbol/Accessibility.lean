/-
  Command modules — the accessibility of a type and the order of its parts.

  * `accessOf`: the accessibility that the parts of a type lead to, one after the other;
  * `Ledger.Reachable.accessibility_eq`: this is the accessibility of every symbol;
  * `accessOf_of_spells`, `accessOf_of_implied`: it is the one that all modifiers together
    spell; if they spell none, it is the implied one, as long as no part spells another;
  * `Ledger.accessibility_of_perm`: in these cases the order of the parts does not matter;
  * `Ledger.accessibility_depends`: in all others it does, for the same parts are accepted in two
    orders (`exists_orders`) that lead to different accessibilities.
-/
import Mathlib.Data.List.Induction
import CommandModules.Proofs.Symbol.Parts

namespace CommandModules

deriving instance DecidableEq for NewType

/-! ## What modifiers spell together -/

namespace Modifiers

variable {m m' : Modifiers}

/-- What the keywords spell that are there. -/
def spelled (public_ private_ protected_ internal file : Bool) : Option Accessibility :=
  match public_, private_, protected_, internal with
  | true, false, false, false => some .public_
  | false, false, true, true => some .protectedOrInternal
  | false, true, true, false => some .protectedAndInternal
  | false, false, true, false => some .protected_
  | false, false, false, true => some .internal
  | false, true, false, false => some .private_
  | _, _, _, _ => if file then some .internal else Option.none

theorem accessibility?_eq (m : Modifiers) : m.accessibility? = spelled (m.contains .public_)
    (m.contains .private_) (m.contains .protected_) (m.contains .internal) (m.contains .file) :=
  rfl

theorem spellsNothing_iff : m.SpellsNothing ↔ m.contains .public_ = false ∧
    m.contains .private_ = false ∧ m.contains .protected_ = false ∧
      m.contains .internal = false ∧ m.contains .file = false :=
  ⟨fun h => ⟨h.public_, h.private_, h.protected_, h.internal, h.file⟩,
    fun ⟨h1, h2, h3, h4, h5⟩ => ⟨h1, h2, h3, h4, h5⟩⟩

/-- Modifiers that spell no accessibility do not hold `file`. -/
theorem not_file_of_none (h : m.accessibility? = Option.none) : m.contains .file = false := by
  rw [accessibility?_eq] at h
  revert h
  generalize m.contains .public_ = p
  generalize m.contains .private_ = q
  generalize m.contains .protected_ = r
  generalize m.contains .internal = s
  generalize m.contains .file = f
  revert p q r s f
  decide

/-- Keywords without `file` that each spell nothing or `a`, do not spell another accessibility
    together, if one keyword alone spells `a`. -/
theorem spelled_or : ∀ a ∈ [Accessibility.private_, .internal], ∀ p q r s p' q' r' s' : Bool,
    (∀ b ∈ spelled p q r s false, b = a) → (∀ b ∈ spelled p' q' r' s' false, b = a) →
      ∀ b ∈ spelled (p || p') (q || q') (r || r') (s || s') false, b = a := by
  decide +kernel

/-- Keywords that spell nothing though some are there, spell nothing with others. -/
theorem spelled_or_none : ∀ p q r s p' q' r' s' : Bool, spelled p q r s false = Option.none →
    (p || q || r || s) = true →
      spelled (p || p') (q || q') (r || r') (s || s') false = Option.none := by
  decide +kernel

/-- Keywords that each spell an accessibility, and the same, or are none, spell one together or
    are none. -/
theorem spelled_or_some : ∀ p q r s p' q' r' s' : Bool,
    (spelled p q r s false ≠ Option.none ∨ (p || q || r || s) = false) →
    (spelled p' q' r' s' false ≠ Option.none ∨ (p' || q' || r' || s') = false) →
    (∀ a ∈ spelled p q r s false, ∀ b ∈ spelled p' q' r' s' false, a = b) →
      spelled (p || p') (q || q') (r || r') (s || s') false ≠ Option.none ∨
        ((p || p') || (q || q') || (r || r') || (s || s')) = false := by
  decide +kernel

/-- Some keyword of accessibility is there, but they spell none. -/
def Garbled (m : Modifiers) : Prop :=
  m.accessibility? = Option.none ∧ ¬ m.SpellsNothing

theorem garbled_iff (hf : m.contains .file = false) : m.Garbled ↔
    spelled (m.contains .public_) (m.contains .private_) (m.contains .protected_)
      (m.contains .internal) false = Option.none ∧
    (m.contains .public_ || m.contains .private_ || m.contains .protected_ ||
      m.contains .internal) = true := by
  rw [Garbled, accessibility?_eq, spellsNothing_iff, hf]
  refine and_congr_right fun _ => ?_
  simp only [Bool.or_eq_true, ← Bool.not_eq_true]
  tauto

theorem Garbled.union (h : m.Garbled) (hf : m'.contains .file = false) : (m.union m').Garbled := by
  have hfm := not_file_of_none h.1
  rw [garbled_iff hfm] at h
  rw [garbled_iff (by simp [hf, hfm])]
  simp only [contains_union]
  refine ⟨spelled_or_none _ _ _ _ _ _ _ _ h.1 h.2, ?_⟩
  have := h.2
  simp only [Bool.or_eq_true] at this ⊢
  tauto

theorem not_garbled_union (hf : (m.union m').contains .file = false) (h : ¬ m.Garbled)
    (h' : ¬ m'.Garbled) (hc : ¬ m.Clash m') : ¬ (m.union m').Garbled := by
  have hfm := hf
  rw [contains_union, Bool.or_eq_false_iff] at hfm
  rw [garbled_iff hfm.1, not_and_or, Bool.not_eq_true] at h
  rw [garbled_iff hfm.2, not_and_or, Bool.not_eq_true] at h'
  rw [garbled_iff hf, not_and_or, Bool.not_eq_true]
  simp only [contains_union]
  refine spelled_or_some _ _ _ _ _ _ _ _ h h' fun a ha b hb => ?_
  rw [← hfm.1] at ha
  rw [← hfm.2] at hb
  by_contra hab
  exact hc ⟨a, b, ha, hb, hab⟩

/-- Where each of the two spells nothing or what is implied, both together do. -/
theorem union_implied {a : Accessibility} (ha : a ∈ [Accessibility.private_, .internal])
    (hf : (m.union m').contains .file = false) (h : ∀ b ∈ m.accessibility?, b = a)
    (h' : ∀ b ∈ m'.accessibility?, b = a) : ∀ b ∈ (m.union m').accessibility?, b = a := by
  have hfm := hf
  rw [contains_union, Bool.or_eq_false_iff] at hfm
  rw [accessibility?_eq, hfm.1] at h
  rw [accessibility?_eq, hfm.2] at h'
  rw [accessibility?_eq, hf]
  simp only [contains_union]
  exact spelled_or a ha _ _ _ _ _ _ _ _ h h'

end Modifiers

/-! ## One part after the other -/

/-- The accessibility of a type without one of its own. -/
def NewType.implied (d : NewType) : Accessibility :=
  if d.containing?.isSome then .private_ else .internal

theorem NewType.implied_mem (d : NewType) : d.implied ∈ [Accessibility.private_, .internal] := by
  unfold implied
  split <;> simp

theorem NewType.implied_congr {d d' : NewType} (h : d.place = d'.place) :
    d.implied = d'.implied := by
  unfold implied
  unfold place at h
  cases hd : d.containing? <;> cases hd' : d'.containing? <;> simp_all

/-- The accessibility behind more declarations, where `m` and `a` are the modifiers and the
    accessibility before them. -/
def accessFrom (m : Modifiers) (a : Accessibility) : List NewType → Accessibility
  | [] => a
  | d :: parts =>
    accessFrom (m.union d.modifiers) ((m.union d.modifiers).accessibility?.getD a) parts

/-- The accessibility that declarations lead to, one after the other. -/
def accessOf (implied : Accessibility) (parts : List NewType) : Accessibility :=
  accessFrom .none implied parts

/-- No part clashes with the modifiers `m` and those of the parts before it. -/
def CompatibleFrom (m : Modifiers) : List NewType → Prop
  | [] => True
  | d :: parts => ¬ m.Clash d.modifiers ∧ CompatibleFrom (m.union d.modifiers) parts

/-- No part clashes with those before it. -/
def Compatible (parts : List NewType) : Prop :=
  CompatibleFrom .none parts

section
variable {parts parts' : List NewType} {implied a : Accessibility} {d : NewType}

theorem accessFrom_concat (m : Modifiers) (a : Accessibility) (parts : List NewType) (d : NewType) :
    accessFrom m a (parts ++ [d]) =
      ((parts.foldl (fun m d => m.union d.modifiers) m).union d.modifiers).accessibility?.getD
        (accessFrom m a parts) := by
  induction parts generalizing m a with
  | nil => rfl
  | cons p parts ih => exact ih _ _

theorem accessOf_concat (implied : Accessibility) (parts : List NewType) (d : NewType) :
    accessOf implied (parts ++ [d]) =
      ((unionOf parts).union d.modifiers).accessibility?.getD (accessOf implied parts) :=
  accessFrom_concat .none implied parts d

theorem contains_unionOf (parts : List NewType) (x : Modifier) :
    (unionOf parts).contains x = parts.any (·.modifiers.contains x) := by
  induction parts using List.reverseRecOn with
  | nil => exact Modifiers.contains_none x
  | append_singleton parts d ih => simp [unionOf_concat, ih]

theorem unionOf_perm (h : parts.Perm parts') : unionOf parts = unionOf parts' :=
  Modifiers.ext_contains fun x => by rw [contains_unionOf, contains_unionOf, h.any_eq]

theorem not_file_of_mem (hf : (unionOf parts).contains .file = false) (hd : d ∈ parts) :
    d.modifiers.contains .file = false := by
  rw [contains_unionOf, List.any_eq_false] at hf
  simpa using hf d hd

/-- What all modifiers together spell is the accessibility. -/
theorem accessOf_of_spells (h : (unionOf parts).accessibility? = some a) :
    accessOf implied parts = a := by
  rcases List.eq_nil_or_concat' parts with rfl | ⟨parts, d, rfl⟩
  · cases h
  · rw [unionOf_concat] at h
    rw [accessOf_concat, h]
    rfl

theorem compatibleFrom_concat (m : Modifiers) (parts : List NewType) (d : NewType) :
    CompatibleFrom m (parts ++ [d]) ↔ CompatibleFrom m parts ∧
      ¬ (parts.foldl (fun m d => m.union d.modifiers) m).Clash d.modifiers := by
  induction parts generalizing m with
  | nil => simp [CompatibleFrom]
  | cons p parts ih => simp only [List.cons_append, CompatibleFrom, ih, List.foldl_cons, and_assoc]

/-- No accessibility but the implied one is met, if no part spells another. -/
theorem accessOf_of_implied (hi : implied ∈ [Accessibility.private_, .internal])
    (hf : (unionOf parts).contains .file = false)
    (h : ∀ d ∈ parts, ∀ b ∈ d.modifiers.accessibility?, b = implied) :
    (∀ b ∈ (unionOf parts).accessibility?, b = implied) ∧ accessOf implied parts = implied := by
  induction parts using List.reverseRecOn with
  | nil => exact ⟨nofun, rfl⟩
  | append_singleton parts d ih =>
    rw [unionOf_concat] at hf ⊢
    obtain ⟨hparts, hd⟩ := List.forall_mem_append.1 h
    have hfp := hf
    rw [Modifiers.contains_union, Bool.or_eq_false_iff] at hfp
    obtain ⟨hu, ha⟩ := ih hfp.1 hparts
    have hspelled := Modifiers.union_implied hi hf hu (hd d (List.mem_singleton_self d))
    refine ⟨hspelled, ?_⟩
    rw [accessOf_concat, ha]
    cases hu : ((unionOf parts).union d.modifiers).accessibility? with
    | none => rfl
    | some b => exact hspelled b hu

end

/-! ## Symbols -/

namespace Ledger

variable {l l' : Ledger} {id id' : TypeId} {s s' : TypeSymbol} {parts : List NewType}

/-- **What holds of every symbol and its parts**: what holds of a first declaration, and is
    kept by one more part and by what else a call may set. -/
theorem Reachable.symbol_induction {P : TypeSymbol → List NewType → Prop} (h : l.Reachable)
    (first : ∀ t d, P (SymbolTable.symbolOf t d) [d])
    (merge : ∀ s parts d, s.Collects parts → SymbolTable.refusal? s d = none → P s parts →
      P (SymbolTable.merge s d) (parts ++ [d]))
    (other : ∀ (s : TypeSymbol) parts base? interfaces nested, P s parts →
      P { s with base?, interfaces, nested } parts) :
    ∀ id s, l.table.get? id = some s → P s (l.partsOf id) := by
  induction h with
  | start =>
    intro id s hs
    cases (show none = some s from hs)
  | @call l hl c hc ih =>
    have hcol := hl.collected
    have kept {t' : SymbolTable} (ht : l.table.Extends t') (id : TypeId) :
        partsOf { l with table := t' } id = l.partsOf id := by
      simpa using partsOf_of_extends hcol ht [] nofun l.returned id
    cases c with
    | namespacePath path =>
      intro id s hs
      have hparts : (l.call (.namespacePath path)).partsOf id = l.partsOf id :=
        kept (l.call_extends (.namespacePath path)) id
      rw [hparts]
      exact ih id s hs
    | setBases id base? interfaces =>
      intro j s' hs'
      have hparts : (l.call (.setBases id base? interfaces)).partsOf j = l.partsOf j :=
        kept (l.call_extends (.setBases id base? interfaces)) j
      rw [hparts]
      obtain ⟨s, hs, rfl⟩ := Option.map_eq_some_iff.1 (SymbolTable.get?_modify.symm.trans hs')
      by_cases hj : j = id
      · rw [if_pos hj]
        exact other s _ base? interfaces s.nested (ih j s hs)
      · rw [if_neg hj]
        exact ih j s hs
    | declare d =>
      cases hr : l.table.declare d with
      | error e => rwa [call_declare_error hr]
      | ok r =>
        obtain ⟨i, t'⟩ := r
        rw [call_declare_ok hr]
        intro j s' hs'
        rw [partsOf_declare hcol (hl.holds hc) hr]
        obtain ⟨rfl, ⟨s, hs, hrefusal, rfl⟩ | ⟨hn, rfl⟩⟩ := SymbolTable.declare_cases hr
        · rw [SymbolTable.get?_modify] at hs'
          by_cases hj : j = l.table.idOf d
          · subst hj
            rw [hs, Option.map_some, if_pos rfl] at hs'
            rw [if_pos rfl, ← Option.some_inj.1 hs']
            exact merge s _ d (hcol.symbol _ s hs) hrefusal (ih _ s hs)
          · obtain ⟨s, hs, rfl⟩ := Option.map_eq_some_iff.1 hs'
            rw [if_neg hj, if_neg hj]
            exact ih j s hs
        · by_cases hj : j = l.table.idOf d
          · subst hj
            rw [SymbolTable.get?_enter hn] at hs'
            rw [if_pos rfl, hcol.unknown _ hn, ← Option.some_inj.1 hs']
            exact first l.table d
          · rw [SymbolTable.get?_enter_of_ne hj] at hs'
            obtain ⟨s, hs, rfl⟩ := Option.map_eq_some_iff.1 hs'
            rw [if_neg hj, SymbolTable.nest]
            split
            · exact other s _ s.base? s.interfaces _ (ih j s hs)
            · exact ih j s hs

/-- **The accessibility of a symbol** is the one that its parts lead to. -/
theorem Reachable.accessibility_eq (h : l.Reachable) (hs : l.table.get? id = some s) :
    ∀ d ∈ (l.partsOf id).head?, s.accessibility = accessOf d.implied (l.partsOf id) := by
  refine h.symbol_induction
    (P := fun s parts => ∀ d ∈ parts.head?, s.accessibility = accessOf d.implied parts)
    ?_ ?_ (fun s parts _ _ _ hp => hp) id s hs
  · rintro t d _ ⟨⟩
    rw [accessOf, accessFrom, accessFrom, Modifiers.none_union]
    rfl
  · intro s parts d hcol _ hp first hfirst
    obtain ⟨first', hfirst', -⟩ := hcol.first
    obtain rfl : first' = first := by
      rw [List.head?_append, hfirst', Option.some_or] at hfirst
      exact Option.some_inj.1 hfirst
    rw [accessOf_concat, ← hp _ hfirst', ← hcol.modifiers]
    rfl

/-- **The accessibility of a type does not depend on the order of its parts**, if all their
    modifiers together spell one, or no part spells another than the implied one.  Its
    modifiers never do. -/
theorem accessibility_of_perm (h : l.Reachable) (h' : l'.Reachable) {place : Place}
    (hs : l.table.get? id = some s) (hs' : l'.table.get? id' = some s')
    (hplace : ∀ d ∈ l.partsOf id, d.place = place)
    (hperm : (l.partsOf id).Perm (l'.partsOf id')) :
    s.modifiers = s'.modifiers ∧
      ((s.modifiers.accessibility? ≠ none ∨
          ∀ d ∈ l.partsOf id, ∀ a ∈ d.modifiers.accessibility?, a = d.implied) →
        s.accessibility = s'.accessibility) := by
  have hcol := h.collected.symbol id s hs
  have hcol' := h'.collected.symbol id' s' hs'
  have hunion : unionOf (l.partsOf id) = unionOf (l'.partsOf id') := unionOf_perm hperm
  obtain ⟨d, hd, -⟩ := hcol.first
  obtain ⟨d', hd', -⟩ := hcol'.first
  have hdm := List.mem_of_mem_head? hd
  have hdm' := hperm.symm.subset (List.mem_of_mem_head? hd')
  rw [hcol.modifiers, hcol'.modifiers, h.accessibility_eq hs d hd, h'.accessibility_eq hs' d' hd']
  refine ⟨hunion, fun hcond => ?_⟩
  cases hu : (unionOf (l.partsOf id)).accessibility? with
  | some a => rw [accessOf_of_spells hu, accessOf_of_spells (hunion ▸ hu)]
  | none =>
    have himplied {e : NewType} (he : e ∈ l.partsOf id) : e.implied = d.implied :=
      NewType.implied_congr ((hplace e he).trans (hplace d hdm).symm)
    have hall : ∀ e ∈ l.partsOf id, ∀ a ∈ e.modifiers.accessibility?, a = d.implied :=
      fun e he a ha => (hcond.resolve_left (not_not.2 hu) e he a ha).trans (himplied he)
    have hf := Modifiers.not_file_of_none hu
    rw [himplied hdm', (accessOf_of_implied d.implied_mem hf hall).2,
      (accessOf_of_implied d.implied_mem (hunion ▸ hf) fun e he => hall e (hperm.symm.subset he)).2]

/-- Two parts in both orders. -/
theorem accessibility_of_perm_demo :
    let part (modifiers : List Modifier) (start : Nat) : NewType :=
      ⟨0, none, "Outer", 0, .class_, .ofList modifiers, .source, ⟨start, ⟨0, 0⟩, ⟨0, 1, 1, 0⟩⟩⟩
    let first := part [.public_, .partial_] 0
    let second := part [.partial_] 1
    let l := (start.call (.declare first)).call (.declare second)
    let l' := (start.call (.declare second)).call (.declare first)
    ∃ s s', l.table.get? (.ofName "Outer") = some s ∧ l'.table.get? (.ofName "Outer") = some s' ∧
      s.modifiers.accessibility? = some .public_ ∧ s.modifiers = s'.modifiers ∧
        s.accessibility = s'.accessibility := by
  intro part first second l l'
  have h : l.Reachable := (Reachable.start.call (.declare first) ⟨by decide, nofun⟩).call
    (.declare second) ⟨by decide +kernel, nofun⟩
  have h' : l'.Reachable := (Reachable.start.call (.declare second) ⟨by decide, nofun⟩).call
    (.declare first) ⟨by decide +kernel, nofun⟩
  obtain ⟨s, hs⟩ : ∃ s, l.table.get? (.ofName "Outer") = some s :=
    Option.isSome_iff_exists.1 (by decide +kernel)
  obtain ⟨s', hs'⟩ : ∃ s', l'.table.get? (.ofName "Outer") = some s' :=
    Option.isSome_iff_exists.1 (by decide +kernel)
  have hparts : l.partsOf (.ofName "Outer") = [first, second] := by decide +kernel
  have hparts' : l'.partsOf (.ofName "Outer") = [second, first] := by decide +kernel
  have hpublic : s.modifiers.accessibility? = some .public_ := by
    rw [(h.collected.symbol _ s hs).modifiers, hparts]
    decide
  have hplace : ∀ d ∈ l.partsOf (.ofName "Outer"), d.place = .namespace_ 0 := by
    rw [hparts]
    simp [first, second, part, NewType.place]
  obtain ⟨hmodifiers, haccess⟩ := accessibility_of_perm h h' hs hs' hplace
    (by rw [hparts, hparts']; exact .swap ..)
  exact ⟨s, s', hs, hs', hpublic, hmodifiers, haccess (.inl (by simp [hpublic]))⟩

/-- The parts of a type were accepted one after the other, so none clashes with those before
    it. -/
theorem Reachable.compatible (h : l.Reachable) (hs : l.table.get? id = some s) :
    Compatible (l.partsOf id) := by
  refine h.symbol_induction (P := fun _ parts => Compatible parts)
    (fun _ _ => ⟨?_, trivial⟩) (fun s parts d hcol hr hp => ?_) (fun _ _ _ _ _ hp => hp) id s hs
  · rintro ⟨a, b, ha, -⟩
    cases ha
  · refine (compatibleFrom_concat _ _ _).2 ⟨hp, ?_⟩
    have hclash := (SymbolTable.refusal?_eq_none.1 hr).2.2.2
    rw [hcol.modifiers, ← Bool.not_eq_true, ← Modifiers.clash_iff] at hclash
    exact hclash

end Ledger

/-! ## Where the order matters -/

section
variable {parts : List NewType} {m : Modifiers} {a : Accessibility} {d : NewType}

theorem Modifiers.union_comm (m m' : Modifiers) : m.union m' = m'.union m :=
  ext_contains fun x => by simp [Bool.or_comm]

/-- Behind keywords that spell nothing together, no part spells anything. -/
theorem accessFrom_garbled (hm : m.Garbled) (hf : ∀ d ∈ parts, d.modifiers.contains .file = false) :
    accessFrom m a parts = a ∧ CompatibleFrom m parts := by
  induction parts generalizing m with
  | nil => exact ⟨rfl, trivial⟩
  | cons d parts ih =>
    obtain ⟨hd, hf⟩ := List.forall_mem_cons.1 hf
    have hu := hm.union hd
    obtain ⟨hacc, hcomp⟩ := ih hu hf
    refine ⟨?_, ?_, hcomp⟩
    · rw [accessFrom, hu.1]
      exact hacc
    · rintro ⟨b, _, hb, -⟩
      cases hm.1.symm.trans hb

/-- If keywords that spell nothing together come from parts that do not clash, one of the parts
    has some of these. -/
theorem exists_garbled (hm : ¬ m.Garbled) (hfm : m.contains .file = false)
    (hf : ∀ d ∈ parts, d.modifiers.contains .file = false) (hc : CompatibleFrom m parts)
    (hu : (parts.foldl (fun m d => m.union d.modifiers) m).Garbled) :
    ∃ d ∈ parts, d.modifiers.Garbled := by
  induction parts generalizing m with
  | nil => exact (hm hu).elim
  | cons d parts ih =>
    obtain ⟨hfd, hf⟩ := List.forall_mem_cons.1 hf
    by_cases hd : d.modifiers.Garbled
    · exact ⟨d, List.mem_cons_self, hd⟩
    · have hfile : (m.union d.modifiers).contains .file = false := by simp [hfm, hfd]
      obtain ⟨e, he, hge⟩ := ih (Modifiers.not_garbled_union hfile hm hd hc.1) hfile hf hc.2 hu
      exact ⟨e, List.mem_cons_of_mem d he, hge⟩

/-- **Where the order matters.**  If all modifiers together spell no accessibility, but those of
    one part do, the parts may come in an order that leads to what this part spells, and in one
    that leads to the implied accessibility. -/
theorem exists_orders (hc : Compatible parts) (hn : (unionOf parts).accessibility? = none)
    (hd : d ∈ parts) (ha : d.modifiers.accessibility? = some a) (implied : Accessibility) :
    ∃ ps ps' : List NewType, ps.Perm parts ∧ ps'.Perm parts ∧ Compatible ps ∧ Compatible ps' ∧
      accessOf implied ps = a ∧ accessOf implied ps' = implied := by
  have hfile := Modifiers.not_file_of_none hn
  have hf : ∀ e ∈ parts, e.modifiers.contains .file = false := fun e he => not_file_of_mem hfile he
  have hu : (unionOf parts).Garbled := by
    refine ⟨hn, fun hnothing => ?_⟩
    have hsub : d.modifiers.SpellsNothing := hnothing.of_subset fun x hx => by
      rw [contains_unionOf, List.any_eq_true]
      exact ⟨d, hd, hx⟩
    cases hsub.accessibility?_eq.symm.trans ha
  have hnone : ¬ Modifiers.none.Garbled := fun h => h.2 (by constructor <;> rfl)
  obtain ⟨r, hr, hgarbled⟩ := exists_garbled hnone (Modifiers.contains_none _) hf hc hu
  -- the part that spells nothing first, or second behind the one that spells `a`
  obtain ⟨front, back, rfl⟩ := List.append_of_mem hd
  have hperm : (d :: (front ++ back)).Perm (front ++ d :: back) := List.perm_middle.symm
  have hrest : r ∈ front ++ back := by
    refine (List.mem_cons.1 (hperm.symm.subset hr)).resolve_left ?_
    rintro rfl
    cases hgarbled.1.symm.trans ha
  obtain ⟨front', back', hsplit⟩ := List.append_of_mem hrest
  have hperm' : (r :: (front' ++ back')).Perm (front ++ back) := hsplit ▸ List.perm_middle.symm
  have hall : (d :: r :: (front' ++ back')).Perm (front ++ d :: back) := (hperm'.cons d).trans hperm
  have hfall : ∀ e ∈ d :: r :: (front' ++ back'), e.modifiers.contains .file = false :=
    fun e he => hf e (hall.subset he)
  obtain ⟨hfd, hfr, hfrest⟩ := by simpa only [List.forall_mem_cons] using hfall
  have hclash (m' : Modifiers) : ¬ Modifiers.none.Clash m' := by
    rintro ⟨_, _, hb, -⟩
    cases hb
  refine ⟨d :: r :: (front' ++ back'), r :: d :: (front' ++ back'), hall,
    (List.Perm.swap ..).trans hall, ?_⟩
  have hboth : (d.modifiers.union r.modifiers).Garbled :=
    Modifiers.union_comm r.modifiers d.modifiers ▸ hgarbled.union hfd
  have hfirst := accessFrom_garbled (a := a) hboth hfrest
  have hsecond := accessFrom_garbled (a := implied) hgarbled (List.forall_mem_cons.2 ⟨hfd, hfrest⟩)
  refine ⟨⟨hclash _, ?_, ?_⟩, ⟨hclash _, ?_⟩, ?_, ?_⟩
  · rw [Modifiers.none_union]
    rintro ⟨_, _, -, hb, -⟩
    cases hgarbled.1.symm.trans hb
  · rw [Modifiers.none_union]
    exact hfirst.2
  · rw [Modifiers.none_union]
    exact hsecond.2
  · rw [accessOf, accessFrom, accessFrom, Modifiers.none_union, ha, hboth.1]
    exact hfirst.1
  · rw [accessOf, accessFrom, Modifiers.none_union, hgarbled.1]
    exact hsecond.1

end

namespace Ledger

variable {l l₀ : Ledger} {id id₀ : TypeId} {s₀ : TypeSymbol} {place : Place} {parts : List NewType}
  {kind : TypeKind} {d e : NewType} {a : Accessibility}

/-- A declaration that is allowed stays so behind another one. -/
theorem Allows.declare (h : l.Allows (.declare e)) : (l.call (.declare d)).Allows (.declare e) := by
  have hspaces := (l.call_extends (.declare d)).namespace_.length_le
  simp only [Namespaces.length_paths] at hspaces
  refine ⟨Nat.lt_of_lt_of_le h.1 hspaces, fun outer ho => ?_⟩
  cases hr : l.table.declare d with
  | error _ =>
    rw [call_declare_error hr]
    exact h.2 outer ho
  | ok r =>
    rw [call_declare_ok hr]
    exact List.mem_append_left _ (h.2 outer ho)

/-- The ledger behind declarations, one after the other. -/
def declareInTurn (l : Ledger) (parts : List NewType) : Ledger :=
  parts.foldl (fun l d => l.call (.declare d)) l

/-- The declarations are partial and belong to one type, which the ledger does not know yet. -/
structure Admits (l : Ledger) (id : TypeId) (place : Place) (parts : List NewType) : Prop where
  unknown : l.table.get? id = none
  allowed : ∀ d ∈ parts, l.Allows (.declare d)
  identity : ∀ d ∈ parts, l.table.idOf d = id
  place_eq : ∀ d ∈ parts, d.place = place
  isPartial : ∀ d ∈ parts, d.modifiers.contains .partial_ = true

theorem Admits.of_subset {parts' : List NewType} (h : l.Admits id place parts)
    (hsub : parts' ⊆ parts) : l.Admits id place parts' where
  unknown := h.unknown
  allowed d hd := h.allowed d (hsub hd)
  identity d hd := h.identity d (hsub hd)
  place_eq d hd := h.place_eq d (hsub hd)
  isPartial d hd := h.isPartial d (hsub hd)

/-- A declaration is one more part of its type, if it joins the parts that are there. -/
theorem Reachable.call_declare (h : l.Reachable) (hd : l.Allows (.declare d))
    (hj : l.partsOf (l.table.idOf d) = [] ∨ d.Joins (l.partsOf (l.table.idOf d))) :
    (l.call (.declare d)).partsOf (l.table.idOf d) = l.partsOf (l.table.idOf d) ++ [d] := by
  have hcol := h.collected
  obtain ⟨t', hr⟩ : ∃ t', l.table.declare d = .ok (l.table.idOf d, t') := by
    cases hs : l.table.get? (l.table.idOf d) with
    | none => exact ⟨_, SymbolTable.declare_eq_of_none hs⟩
    | some s =>
      have hsym := hcol.symbol _ s hs
      have hcases := hsym.refusal?_cases d
      have hsome := SymbolTable.declare_eq_of_some hs
      cases hrefusal : SymbolTable.refusal? s d with
      | none =>
        rw [hrefusal] at hsome
        exact ⟨_, hsome⟩
      | some cause =>
        rw [hrefusal] at hcases
        exact (hcases.not_joins (hj.resolve_left hsym.ne_nil)).elim
  rw [call_declare_ok hr, partsOf_declare hcol (h.holds hd) hr, if_pos rfl]

/-- **Parts that do not clash are all accepted**, in the order in which they come. -/
theorem Reachable.declareInTurn (h : l.Reachable) (ha : l.Admits id place parts)
    (hkind : ∀ d ∈ parts, d.kind = kind) (hc : Compatible parts) :
    (l.declareInTurn parts).Reachable ∧ (l.declareInTurn parts).partsOf id = parts ∧
      l.table.Extends (l.declareInTurn parts).table ∧
      ∀ e, l.Allows (.declare e) → (l.declareInTurn parts).Allows (.declare e) := by
  induction parts using List.reverseRecOn with
  | nil => exact ⟨h, h.collected.unknown id ha.unknown, .refl _, fun _ he => he⟩
  | append_singleton parts d ih =>
    obtain ⟨hcp, hclash⟩ := (compatibleFrom_concat _ _ _).1 hc
    have hmem {e : NewType} (he : e ∈ parts) : e ∈ parts ++ [d] := List.mem_append_left _ he
    have hdm : d ∈ parts ++ [d] := List.mem_append_right _ (List.mem_singleton_self d)
    obtain ⟨hl, hparts, hext, hallows⟩ :=
      ih (ha.of_subset (List.subset_append_left ..)) (fun e he => hkind e (hmem he)) hcp
    have hcall : l.declareInTurn (parts ++ [d]) = (l.declareInTurn parts).call (.declare d) :=
      List.foldl_concat ..
    have hd := hallows d (ha.allowed d hdm)
    have hid : (l.declareInTurn parts).table.idOf d = id :=
      (idOf_of_extends (h.holds (ha.allowed d hdm)) hext).trans (ha.identity d hdm)
    have hjoins : d.Joins parts := by
      refine ⟨fun first hfirst => ?_, fun p hp => ?_, hclash⟩
      · exact ⟨ha.isPartial first (hmem (List.mem_of_mem_head? hfirst)), ha.isPartial d hdm⟩
      · exact (hkind p (hmem hp)).trans (hkind d hdm).symm
    have hlater := hl.call_declare hd (by rw [hid, hparts]; exact .inr hjoins)
    rw [hid, hparts] at hlater
    rw [hcall]
    exact ⟨hl.call _ hd, hlater, hext.trans (call_extends _ _), fun e he => (hallows e he).declare⟩

/-- The accessibility behind all parts. -/
theorem Reachable.declareInTurn_accessibility (h : l.Reachable) (ha : l.Admits id place parts)
    (hkind : ∀ d ∈ parts, d.kind = kind) (hc : Compatible parts) (hd : d ∈ parts) :
    ∃ s, (l.declareInTurn parts).table.get? id = some s ∧
      s.accessibility = accessOf d.implied parts := by
  obtain ⟨hl, hparts, -⟩ := h.declareInTurn ha hkind hc
  cases hs : (l.declareInTurn parts).table.get? id with
  | none =>
    have hnil := hl.collected.unknown id hs
    rw [hparts] at hnil
    cases hnil ▸ hd
  | some s =>
    obtain ⟨first, hfirst, -⟩ := (hl.collected.symbol id s hs).first
    have hacc := hl.accessibility_eq hs first hfirst
    rw [hparts] at hacc hfirst
    have himplied : first.implied = d.implied := NewType.implied_congr
      ((ha.place_eq first (List.mem_of_mem_head? hfirst)).trans (ha.place_eq d hd).symm)
    exact ⟨s, rfl, himplied ▸ hacc⟩

/-- **In all other cases the order matters.**  If the modifiers of all parts together spell no
    accessibility, but those of one part spell another than the implied one, then the same parts
    are accepted in two orders that lead to different accessibilities, wherever the type is not
    known yet. -/
theorem accessibility_depends (h₀ : l₀.Reachable) (hs₀ : l₀.table.get? id₀ = some s₀)
    (hn : s₀.modifiers.accessibility? = none) (hd : d ∈ l₀.partsOf id₀)
    (hda : d.modifiers.accessibility? = some a) (hne : a ≠ d.implied) (h : l.Reachable)
    (ha : l.Admits id place (l₀.partsOf id₀)) :
    ∃ ps ps', ps.Perm (l₀.partsOf id₀) ∧ ps'.Perm (l₀.partsOf id₀) ∧
      (l.declareInTurn ps).Reachable ∧ (l.declareInTurn ps').Reachable ∧
      (l.declareInTurn ps).partsOf id = ps ∧ (l.declareInTurn ps').partsOf id = ps' ∧
      ∃ s s', (l.declareInTurn ps).table.get? id = some s ∧
        (l.declareInTurn ps').table.get? id = some s' ∧ s.accessibility ≠ s'.accessibility := by
  have hcol := h₀.collected.symbol id₀ s₀ hs₀
  obtain ⟨ps, ps', hp, hp', hc, hc', hacc, hacc'⟩ :=
    exists_orders (h₀.compatible hs₀) (hcol.modifiers ▸ hn) hd hda d.implied
  have hkind {qs : List NewType} (hq : qs.Perm (l₀.partsOf id₀)) : ∀ e ∈ qs, e.kind = s₀.kind :=
    fun e he => hcol.kinds e (hq.subset he)
  obtain ⟨hl, hparts, -⟩ := h.declareInTurn (ha.of_subset hp.subset) (hkind hp) hc
  obtain ⟨hl', hparts', -⟩ := h.declareInTurn (ha.of_subset hp'.subset) (hkind hp') hc'
  obtain ⟨s, hs, hsa⟩ := h.declareInTurn_accessibility (ha.of_subset hp.subset) (hkind hp) hc
    (hp.symm.subset hd)
  obtain ⟨s', hs', hsa'⟩ := h.declareInTurn_accessibility (ha.of_subset hp'.subset) (hkind hp') hc'
    (hp'.symm.subset hd)
  refine ⟨ps, ps', hp, hp', hl, hl', hparts, hparts', s, s', hs, hs', ?_⟩
  rw [hsa, hsa', hacc, hacc']
  exact hne

/-- `public` and then `public private` lead to another accessibility than the other way round. -/
example :
    let part (modifiers : List Modifier) : NewType :=
      ⟨0, none, "Outer", 0, .class_, .ofList modifiers, .source, ⟨0, ⟨0, 0⟩, ⟨0, 1, 1, 0⟩⟩⟩
    let first := part [.public_, .partial_]
    let second := part [.public_, .private_, .partial_]
    let accessibility? (parts : List NewType) :=
      ((start.declareInTurn parts).table.get? (.ofName "Outer")).map TypeSymbol.accessibility
    accessibility? [first, second] = some .public_ ∧
      accessibility? [second, first] = some .internal := by
  decide +kernel

end Ledger

end CommandModules

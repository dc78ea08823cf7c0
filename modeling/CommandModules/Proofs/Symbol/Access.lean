/-
  Command modules — accessibility of types with several declarations.

  * `Modifiers.Accords m m'`: the modifiers `m` are among `m'`, and if `m'` spell `public`,
    then `m` spell nothing else;
  * `accords_union`: declarations that are not in conflict accord with their union;
  * `Modifiers.union_eq`: adding modifiers that are there changes nothing.
-/
import CommandModules.Symbol.Table

namespace CommandModules

namespace Modifiers

variable {m m' m'' : Modifiers}

/-- No modifier that spells an accessibility is among them. -/
structure SpellsNothing (m : Modifiers) : Prop where
  public_ : m.contains .public_ = false
  private_ : m.contains .private_ = false
  protected_ : m.contains .protected_ = false
  internal : m.contains .internal = false
  file : m.contains .file = false

theorem SpellsNothing.accessibility?_eq (h : m.SpellsNothing) : m.accessibility? = Option.none := by
  simp [accessibility?, h.public_, h.private_, h.protected_, h.internal, h.file]

/-- The modifiers are among the others, and do not spell anything but `public` if those
    spell `public`. -/
structure Accords (m m' : Modifiers) : Prop where
  subset : ∀ x, m.contains x = true → m'.contains x = true
  access : m'.accessibility? = some .public_ → m.accessibility? = some .public_ ∨ m.SpellsNothing

namespace SpellsNothing

theorem of_subset (h : m'.SpellsNothing) (hs : ∀ x, m.contains x = true → m'.contains x = true) :
    m.SpellsNothing := by
  have hf {x : Modifier} (hx : m'.contains x = false) : m.contains x = false := by
    refine Bool.eq_false_iff.2 fun hm => ?_
    rw [hs x hm] at hx
    cases hx
  exact ⟨hf h.public_, hf h.private_, hf h.protected_, hf h.internal, hf h.file⟩

end SpellsNothing

namespace Accords

theorem refl (m : Modifiers) : m.Accords m :=
  ⟨fun _ h => h, .inl⟩

theorem trans (h : m.Accords m') (h' : m'.Accords m'') : m.Accords m'' where
  subset x hx := h'.subset x (h.subset x hx)
  access hp := by
    rcases h'.access hp with hp | hn
    · exact h.access hp
    · exact .inr (hn.of_subset h.subset)

/-- What accords with modifiers that spell `public` or nothing is not in conflict with
    them. -/
theorem conflict_eq (h : m.Accords m')
    (hp : m'.accessibility? = some .public_ ∨ m'.accessibility? = Option.none) :
    SymbolTable.conflict m' m = false := by
  unfold SymbolTable.conflict
  rcases hp with hp | hp <;> rw [hp]
  rcases h.access hp with h | h
  · simp [h]
  · simp [h.accessibility?_eq]

end Accords

theorem accessibility?_eq_public : m.accessibility? = some .public_ ↔ m.contains .public_ = true ∧
    m.contains .private_ = false ∧ m.contains .protected_ = false ∧ m.contains .internal = false := by
  unfold accessibility?
  split <;> simp_all

/-- Modifiers that spell nothing but `public` or `file`. -/
theorem accessibility?_of_public (hpr : m.contains .private_ = false)
    (hpt : m.contains .protected_ = false) (hi : m.contains .internal = false) :
    m.accessibility? = some .public_ ∨ m.SpellsNothing ∨
      m.accessibility? = some .internal ∧ m.contains .public_ = false := by
  cases hp : m.contains .public_ with
  | true => exact .inl (accessibility?_eq_public.2 ⟨hp, hpr, hpt, hi⟩)
  | false =>
    cases hf : m.contains .file with
    | true => exact .inr (.inr ⟨by simp [accessibility?, hp, hpr, hpt, hi, hf], rfl⟩)
    | false => exact .inr (.inl ⟨hp, hpr, hpt, hi, hf⟩)

/-- If the union spells `public`, then of declarations that are not in conflict each spells
    it or nothing. -/
theorem access_union (hc : SymbolTable.conflict m m' = false)
    (hp : (m.union m').accessibility? = some .public_) :
    (m.accessibility? = some .public_ ∨ m.SpellsNothing) ∧
      (m'.accessibility? = some .public_ ∨ m'.SpellsNothing) := by
  simp only [accessibility?_eq_public, contains_union, Bool.or_eq_true, Bool.or_eq_false_iff] at hp
  obtain ⟨hp, hpr, hpt, hi⟩ := hp
  -- `file` alone spells `internal`, which is in conflict with the one that spells `public`
  have conflict {m m' : Modifiers} (h : m.accessibility? = some .internal)
      (h' : m'.accessibility? = some .public_) : SymbolTable.conflict m m' = true ∧
        SymbolTable.conflict m' m = true := by
    simp [SymbolTable.conflict, h, h']
  rcases accessibility?_of_public hpr.1 hpt.1 hi.1 with h | h | ⟨h, hn⟩ <;>
    rcases accessibility?_of_public hpr.2 hpt.2 hi.2 with h' | h' | ⟨h', hn'⟩
  · exact ⟨.inl h, .inl h'⟩
  · exact ⟨.inl h, .inr h'⟩
  · rw [(conflict h' h).2] at hc
    cases hc
  · exact ⟨.inr h, .inl h'⟩
  · exact ⟨.inr h, .inr h'⟩
  · simp [h.public_, hn'] at hp
  · rw [(conflict h h').1] at hc
    cases hc
  · simp [h'.public_, hn] at hp
  · simp [hn, hn'] at hp

/-- **Declarations that are not in conflict accord with their union.** -/
theorem accords_union (hc : SymbolTable.conflict m m' = false) :
    m.Accords (m.union m') ∧ m'.Accords (m.union m') :=
  ⟨⟨fun x h => by simp [h], fun hp => (access_union hc hp).1⟩,
    ⟨fun x h => by simp [h], fun hp => (access_union hc hp).2⟩⟩

/-- A set is known by its members. -/
theorem ext_contains (h : ∀ x, m.contains x = m'.contains x) : m = m' := by
  have hbit : ∀ i : Fin 25, ∃ x : Modifier, x.bit = i := by
    intro i
    exact ⟨Modifier.all[i], by revert i; decide⟩
  have hbits : m.bits = m'.bits := by
    refine BitVec.eq_of_getLsbD_eq fun i hi => ?_
    obtain ⟨x, hx⟩ := hbit ⟨i, hi⟩
    have := h x
    rwa [contains, contains, hx] at this
  cases m
  cases m'
  exact congrArg Modifiers.mk hbits

/-- Adding modifiers that are there changes nothing. -/
theorem union_eq (h : ∀ x, m'.contains x = true → m.contains x = true) : m.union m' = m := by
  refine ext_contains fun x => ?_
  rw [contains_union]
  have := h x
  cases hm : m'.contains x <;> simp_all

end Modifiers

end CommandModules

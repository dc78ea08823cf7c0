/-
  Command modules — which candidates are registered.

  * `Compilation.IsModule` are the conditions on the type of a candidate,
    `Compilation.Registers` adds that its own declaration has commands;
  * `Compilation.Skips` says which condition fails first;
  * `Options.moduleOf_cases`, `Options.sourceFor_cases`: a candidate has a source just if
    it registers, and is skipped for the first condition that fails;
  * `TypeDeclaration.commands_eq`: the commands of a declaration are its marked methods,
    in order.
-/
import CommandModules.Proofs.Compilation.Accepted
import CommandModules.Proofs.Compilation.Named
import CommandModules.Registration.Generator

namespace CommandModules

/-! ## Commands -/

/-- Does the method carry an attribute that is written like the marker? -/
def Method.IsMarked (marker : String) (m : Method) : Prop :=
  ∃ a ∈ m.allAttributes, a.name.text = marker

instance (marker : String) (m : Method) : Decidable (m.IsMarked marker) :=
  inferInstanceAs (Decidable (∃ a ∈ m.allAttributes, a.name.text = marker))

/-- What is registered for a method: its name, the first argument of the first marker,
    and the types of its parameters, as they are written. -/
def Method.command (marker : String) (m : Method) : Command where
  method := m.name.name
  name? :=
    let attribute? := m.allAttributes.find? fun a => a.name.text == marker
    let argument? := attribute?.bind fun a => a.arguments.head?
    (argument?.bind AttributeArgument.expression?).map ExprSyntax.text
  parameterTypes := m.parameters.map fun p => p.type.text

theorem Command.ofMethod?_eq (marker : String) (m : Method) :
    Command.ofMethod? marker m = if m.IsMarked marker then some (m.command marker) else none := by
  unfold Command.ofMethod? Method.command
  cases h : m.allAttributes.find? fun a => a.name.text == marker with
  | none =>
    have hn : ¬ m.IsMarked marker := by
      rintro ⟨a, ha, hm⟩
      simpa [hm] using List.find?_eq_none.1 h a ha
    rw [if_neg hn]
    rfl
  | some a =>
    have hm : m.IsMarked marker :=
      ⟨a, List.mem_of_find?_eq_some h, by simpa using List.find?_some h⟩
    rw [if_pos hm]
    rfl

/-- **The commands of a declaration are its marked methods**, in order. -/
theorem TypeDeclaration.commands_eq (t : TypeDeclaration) (marker : String) :
    t.commands marker =
      (t.methods.filter fun m => m.IsMarked marker).map (Method.command marker) := by
  unfold commands
  induction t.methods with
  | nil => rfl
  | cons m ms ih =>
    rw [List.filterMap_cons, List.filter_cons, Command.ofMethod?_eq, ih]
    by_cases h : m.IsMarked marker <;> simp [h]

/-! ## Modules -/

/-- Is what is referred to called like the base of modules?  A type that was not found
    has a simple name only. -/
def Options.IsBase (o : Options) (t : SymbolTable) (base : TypeRef) : Prop :=
  match o.baseMatch with
  | .simple => t.simpleName base = o.baseType
  | .qualified => ∃ id, base = .named id ∧ t.qualifiedName id = o.baseType

namespace Compilation

/-- The candidate was accepted as a declaration of `s`, and `s` is a public type that is
    not abstract and derives from the base of modules. -/
structure IsModule (c : Compilation) (o : Options) (k : Candidate) (s : TypeSymbol) : Prop where
  accepted : c.symbols.declared.lookup k.key = some s.id
  symbol : c.table.get? s.id = some s
  concrete : s.isAbstract = false
  isPublic : s.accessibility = .public_
  derives : ∃ base, c.table.Inherits s.id base ∧ base ≠ .named s.id ∧ o.IsBase c.table base

/-- The candidate is a module with commands in its own declaration. -/
def Registers (c : Compilation) (o : Options) (k : Candidate) : Prop :=
  (∃ s, c.IsModule o k s) ∧ ∃ m ∈ k.declaration.methods, m.IsMarked o.marker

/-- The first condition that fails for a candidate. -/
inductive Skips (c : Compilation) (o : Options) (k : Candidate) : SkipReason → Prop
  | notDeclared (h : c.symbols.declared.lookup k.key = none) :
      Skips c o k (.notDeclared k.declaration.name.value)
  | abstract {s : TypeSymbol} (hs : c.symbolOf? k.key = some s) (h : s.isAbstract = true) :
      Skips c o k (.abstract k.declaration.name.value)
  | notPublic {s : TypeSymbol} (hs : c.symbolOf? k.key = some s) (hc : s.isAbstract = false)
      (h : s.accessibility ≠ .public_) : Skips c o k (.notPublic k.declaration.name.value)
  | missingBase {s : TypeSymbol} (hs : c.symbolOf? k.key = some s) (hc : s.isAbstract = false)
      (hp : s.accessibility = .public_)
      (h : ¬ ∃ base, c.table.Inherits s.id base ∧ base ≠ .named s.id ∧ o.IsBase c.table base) :
      Skips c o k (.missingBase k.declaration.name.value o.baseType)
  | noCommands {s : TypeSymbol} (hs : c.IsModule o k s)
      (h : ¬ ∃ m ∈ k.declaration.methods, m.IsMarked o.marker) :
      Skips c o k (.noCommands s.name o.marker)

variable {c : Compilation} {o : Options} {k : Candidate} {s : TypeSymbol} {r : SkipReason}

theorem symbolOf?_eq_some : c.symbolOf? k.key = some s ↔
    c.symbols.declared.lookup k.key = some s.id ∧ c.table.get? s.id = some s := by
  unfold symbolOf?
  constructor
  · intro h
    obtain ⟨id, hid, hs⟩ := Option.bind_eq_some_iff.1 h
    obtain rfl := c.indexed.id id s hs
    exact ⟨hid, hs⟩
  · rintro ⟨hid, hs⟩
    rw [hid]
    exact hs

/-- A module is known by its symbol. -/
theorem IsModule.symbolOf? (h : c.IsModule o k s) : c.symbolOf? k.key = some s :=
  symbolOf?_eq_some.2 ⟨h.accepted, h.symbol⟩

/-- Whether a candidate is a module is asked of its symbol only. -/
theorem IsModule.of_symbolOf? {k' : Candidate} (h : c.IsModule o k s)
    (hs : c.symbolOf? k'.key = some s) : c.IsModule o k' s :=
  { h with accepted := (symbolOf?_eq_some.1 hs).1 }

/-- A candidate has a symbol and a tree if it was accepted, and else it has none. -/
theorem declared?_cases (c : Compilation) (k : Candidate) :
    (c.symbols.declared.lookup k.key = none ∧ c.declared? k = none) ∨
      ∃ s tree, c.symbolOf? k.key = some s ∧ c.declared? k = some (s, tree) := by
  cases h : c.symbols.declared.lookup k.key with
  | none =>
    refine .inl ⟨rfl, ?_⟩
    simp [declared?, treeOf?, symbolOf?, h]
  | some id =>
    obtain ⟨s, tree, hs, ht, -⟩ := declared?_isSome h
    exact .inr ⟨s, tree, hs, by simp [declared?, hs, ht]⟩

end Compilation

namespace Options

variable {c : Compilation} {o : Options} {k : Candidate} {s : TypeSymbol} {r : SkipReason}

theorem matchesBase_iff {t : SymbolTable} {base : TypeRef} :
    o.matchesBase t base = true ↔ o.IsBase t base := by
  unfold matchesBase IsBase
  cases o.baseMatch with
  | simple => exact beq_iff_eq
  | qualified => cases base <;> simp [TypeRef.id?]

theorem baseChain_any_iff : (c.table.baseChain s.id).any (o.matchesBase c.table) = true ↔
    ∃ base, c.table.Inherits s.id base ∧ base ≠ .named s.id ∧ o.IsBase c.table base := by
  simp [List.any_eq_true, SymbolTable.mem_baseChain, matchesBase_iff, and_assoc]

/-- **A candidate is a module, or the first condition that fails is the reason why not.** -/
theorem moduleOf_cases (c : Compilation) (o : Options) (k : Candidate) :
    (∃ s tree, c.IsModule o k s ∧ c.moduleOf o k = .ok ⟨k.declaration, s, tree⟩) ∨
      ((∀ s, ¬ c.IsModule o k s) ∧ ∃ r, c.Skips o k r ∧ c.moduleOf o k = .error r) := by
  unfold Compilation.moduleOf
  dsimp only
  obtain ⟨hn, hd⟩ | ⟨s, tree, hs, hd⟩ := c.declared?_cases k
  · refine .inr ⟨fun s hs => ?_, _, .notDeclared hn, by rw [hd]⟩
    rw [hs.accepted] at hn
    cases hn
  have unique {s' : TypeSymbol} (h : c.IsModule o k s') : s' = s :=
    Option.some_inj.1 (h.symbolOf?.symm.trans hs)
  obtain ⟨hid, hget⟩ := Compilation.symbolOf?_eq_some.1 hs
  rw [hd]
  dsimp only
  by_cases ha : s.isAbstract = true
  · rw [if_pos ha]
    refine .inr ⟨fun s' h => ?_, _, .abstract hs ha, rfl⟩
    obtain rfl := unique h
    exact absurd ha (by simp [h.concrete])
  rw [if_neg ha]
  have ha : s.isAbstract = false := Bool.eq_false_iff.2 ha
  by_cases hp : s.accessibility = .public_
  · rw [if_neg (by simp [hp, Accessibility.isPublic])]
    by_cases hb : (c.table.baseChain s.id).any (o.matchesBase c.table) = true
    · rw [if_neg (by simp [hb])]
      exact .inl ⟨s, tree, ⟨hid, hget, ha, hp, baseChain_any_iff.1 hb⟩, rfl⟩
    · rw [if_pos (by simp [hb])]
      have hb := mt baseChain_any_iff.2 hb
      exact .inr ⟨fun s' h => hb (unique h ▸ h.derives), _, .missingBase hs ha hp hb, rfl⟩
  · rw [if_pos (by simp [hp, Accessibility.isPublic])]
    exact .inr ⟨fun s' h => hp (unique h ▸ h.isPublic), _, .notPublic hs ha hp, rfl⟩

theorem isModule_of_isSome (h : (c.moduleOf o k).toOption.isSome = true) :
    ∃ s, c.IsModule o k s := by
  obtain ⟨s, _, hs, -⟩ | ⟨-, r, -, he⟩ := moduleOf_cases c o k
  · exact ⟨s, hs⟩
  · rw [he] at h
    cases h

/-- The namespace of the type of a candidate, unless it is the global one or fragments
    are not wrapped. -/
def namespaceAround? (o : Options) (c : Compilation) (k : Candidate) : Option String := do
  let name := c.table.namespaces.dotted (← c.symbolOf? k.key).namespace_
  if o.wrapInNamespace && !name.isEmpty then some name else none

/-- The source for a candidate that registers: the fragment with the marked methods of
    its own declaration. -/
def registration (o : Options) (c : Compilation) (k : Candidate) : GeneratedSource where
  hintName := k.declaration.name.value ++ o.fileSuffix ++ ".cs"
  text := k.declaration.fragment
    ((k.declaration.methods.filter fun m => m.IsMarked o.marker).map (Method.command o.marker)) o
    (o.namespaceAround? c k)

/-- **A candidate that registers has a source; any other is skipped for the first
    condition that fails.** -/
theorem sourceFor_cases (c : Compilation) (o : Options) (k : Candidate) :
    (c.Registers o k ∧
      o.sourceFor c k = .ok ((o.registration c k).hintName, (o.registration c k).text)) ∨
    (¬ c.Registers o k ∧ ∃ r, c.Skips o k r ∧ o.sourceFor c k = .error r) := by
  unfold sourceFor
  obtain ⟨s, tree, hm, hok⟩ | ⟨hn, r, hr, herr⟩ := moduleOf_cases c o k
  · rw [hok]
    simp only [TypeDeclaration.commands_eq, bind, Except.bind]
    by_cases hmark : ∃ m ∈ k.declaration.methods, m.IsMarked o.marker
    · refine .inl ⟨⟨⟨s, hm⟩, hmark⟩, ?_⟩
      rw [if_neg (by simpa using hmark)]
      simp [registration, registrationName, namespaceAround?, hm.symbolOf?, wrapping?,
        Compilation.namespaceOf]
    · refine .inr ⟨fun h => hmark h.2, _, .noCommands hm hmark, ?_⟩
      rw [if_pos (by simpa using hmark)]
  · exact .inr ⟨fun h => h.1.elim hn, r, hr, by rw [herr]; rfl⟩

theorem registers_iff : (o.sourceFor c k).toOption.isSome = true ↔ c.Registers o k := by
  obtain ⟨h, he⟩ | ⟨h, r, -, he⟩ := sourceFor_cases c o k <;> simp [he, h, Except.toOption]

instance (c : Compilation) (o : Options) (k : Candidate) : Decidable (c.Registers o k) :=
  decidable_of_iff _ registers_iff

end Options

end CommandModules

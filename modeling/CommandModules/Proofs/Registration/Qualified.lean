/-
  Command modules — bases that are compared by their qualified names.

  The qualified name of a type has dots between all its parts and no arities.

  * `FullName.display` is that name, `SymbolTable.Names.qualifiedName_eq`: it is the one that is
    compared;
  * `FullName.display_injective`: it tells apart names of the same arities, and so of types that
    are nested equally deep;
  * `qualified_base_unique`: of types with the same arities one at most is taken for the base of
    modules, and a class that derives from the others only is no module;
  * `qualified_base_lookalikes`: of types with other arities, or nested less deep, several may be.
-/
import CommandModules.Proofs.Compilation.Lookup
import CommandModules.Proofs.Registration.Run

namespace CommandModules

/-! ## Names without arities -/

/-- One more text is joined behind the others. -/
theorem intercalate_concat {sep word : String} {words : List String} (h : words ≠ []) :
    sep.intercalate (words ++ [word]) = sep.intercalate words ++ sep ++ word := by
  induction words with
  | nil => exact (h rfl).elim
  | cons w words ih =>
    cases words with
    | nil => simp
    | cons v words =>
      have ih := congrArg String.toList (ih (List.cons_ne_nil v words))
      simp only [String.ext_iff, String.toList_intercalate, String.toList_append, List.map_append,
        List.map_cons, List.cons_append, List.intercalate_cons_cons, List.append_assoc] at ih ⊢
      rw [ih]

/-- Parts with the same names and the same arities are the same. -/
theorem NamePart.map_injective {ps qs : List NamePart}
    (hnames : ps.map NamePart.name = qs.map NamePart.name)
    (harities : ps.map NamePart.arity = qs.map NamePart.arity) : ps = qs := by
  induction ps generalizing qs with
  | nil =>
    cases qs with
    | nil => rfl
    | cons => cases hnames
  | cons p ps ih =>
    cases qs with
    | nil => cases hnames
    | cons q qs =>
      obtain ⟨hname, hnames⟩ := List.cons.inj hnames
      obtain ⟨harity, harities⟩ := List.cons.inj harities
      rw [ih hnames harities, show p = q by cases p; cases q; simp_all]

namespace FullName

/-- The name with all namespaces and types around the type, without arities. -/
def display : FullName → String
  | top path part => ".".intercalate (path ++ [part.name])
  | nested outer part => outer.display ++ "." ++ part.name

/-- The arities of the types that the name leads through, the outermost first. -/
def arities (n : FullName) : List Nat :=
  n.parts.map NamePart.arity

/-- The parts of the name, without arities. -/
def words (n : FullName) : List String :=
  n.path ++ n.parts.map NamePart.name

variable {n m : FullName}

theorem words_ne_nil (n : FullName) : n.words ≠ [] := by
  obtain ⟨p, ps, hparts⟩ := n.parts_eq
  simp [words, hparts]

theorem display_eq (n : FullName) : n.display = ".".intercalate n.words := by
  induction n with
  | top path part => rfl
  | nested outer part ih =>
    have hwords : (nested outer part).words = outer.words ++ [part.name] := by
      simp [words, path, parts]
    rw [hwords, intercalate_concat outer.words_ne_nil, ← ih]
    rfl

/-- A name is known by the path of its namespace and by its parts. -/
theorem eq_of_parts (hpath : n.path = m.path) (hparts : n.parts = m.parts) : n = m := by
  have hlast (outer : FullName) (part : NamePart) (q : NamePart) : outer.parts ++ [part] ≠ [q] := by
    obtain ⟨p, ps, h⟩ := outer.parts_eq
    simp [h]
  induction n generalizing m with
  | top path part =>
    cases m with
    | top path' part' =>
      obtain rfl : part = part' := List.singleton_inj.1 hparts
      obtain rfl : path = path' := hpath
      rfl
    | nested outer part' => exact (hlast _ _ _ hparts.symm).elim
  | nested outer part ih =>
    cases m with
    | top path' part' => exact (hlast _ _ _ hparts).elim
    | nested outer' part' =>
      obtain ⟨houter, hpart⟩ := List.append_inj' hparts rfl
      rw [ih (m := outer') hpath houter, List.singleton_inj.1 hpart]

/-- The qualified name is split again into its parts. -/
theorem splitChars_display (h : n.IsWorded) :
    Text.splitChars '.' n.display.toList = n.words.map String.toList := by
  have hdots : ∀ q ∈ n.words.map String.toList, '.' ∉ q := by
    intro q hq
    obtain ⟨w, hw, rfl⟩ := List.mem_map.1 hq
    rcases List.mem_append.1 hw with hw | hw
    · exact (h.path w hw).not_mem isSeparator_dot.continue_ isSeparator_dot.escape
    · obtain ⟨p, hp, rfl⟩ := List.mem_map.1 hw
      exact (h.parts p hp).not_mem isSeparator_dot.continue_ isSeparator_dot.escape
  obtain ⟨w, ws, hws⟩ := List.exists_cons_of_ne_nil n.words_ne_nil
  rw [display_eq, String.toList_intercalate]
  rw [hws, List.map_cons] at hdots ⊢
  exact splitChars_intercalate hdots

/-- **The qualified name tells apart names of the same arities.** -/
theorem display_injective (hn : n.IsWorded) (hm : m.IsWorded) (ha : n.arities = m.arities)
    (h : n.display = m.display) : n = m := by
  have hwords : n.words = m.words := by
    have := (splitChars_display hn).symm.trans (h ▸ splitChars_display hm)
    exact List.map_injective_iff.2 (fun _ _ => String.ext) this
  have hlen : (n.parts.map NamePart.name).length = (m.parts.map NamePart.name).length := by
    simpa [arities] using congrArg List.length ha
  obtain ⟨hpath, hnames⟩ := List.append_inj' hwords hlen
  exact eq_of_parts hpath (NamePart.map_injective hnames ha)

end FullName

/-! ## The names of declared types -/

namespace SymbolTable

variable {t : SymbolTable} {id : TypeId} {s : TypeSymbol} {n : FullName} {depth : Nat}

/-- The identity of a declared type is that of its name. -/
theorem Names.id_eq (h : t.Names id n) (hi : t.Indexed) : id = n.id := by
  induction h with
  | top hs hc =>
    have hid := hi.idAt _ _ hs
    rw [TypeSymbol.place_eq_namespace.2 ⟨hc, rfl⟩] at hid
    exact hid.symm
  | nested hs hc _ ih =>
    have hid := hi.idAt _ _ hs
    rw [TypeSymbol.place_eq_type.2 hc] at hid
    rw [← hid, FullName.id, ← ih]
    rfl

/-- **The qualified name of a declared type** is made of its full name. -/
theorem Names.qualifiedName_eq (h : t.Names id n) (ht : t.Sound) :
    t.qualifiedName id = n.display := by
  obtain ⟨rank, hrank⟩ := ht.rank
  -- the types around the type come before it, so there are fewer of them than types
  have hwithin : ∀ depth, rank id < depth → t.qualifiedNameWithin depth id = n.display := by
    induction h with
    | @top id s hs hc =>
      intro depth hd
      obtain ⟨depth, rfl⟩ : ∃ k, depth = k + 1 := ⟨depth - 1, by omega⟩
      rw [qualifiedNameWithin, hs]
      simp only [hc]
      rfl
    | @nested id outer s n hs hc _ ih =>
      intro depth hd
      obtain ⟨depth, rfl⟩ : ∃ k, depth = k + 1 := ⟨depth - 1, by omega⟩
      have hlt := ((hrank id s hs).2 outer hc).2
      rw [qualifiedNameWithin, hs]
      simp only [hc]
      rw [ih depth (by omega)]
      rfl
  obtain ⟨s, hs⟩ := h.get?
  exact hwithin _ (Nat.lt_succ_of_lt (hrank id s hs).1)

/-- What is not declared has no qualified name. -/
theorem qualifiedName_of_none (h : t.get? id = none) : t.qualifiedName id = "" := by
  rw [qualifiedName, qualifiedNameWithin, h]

end SymbolTable

/-! ## Bases of modules -/

section
variable {c : Compilation} {o : Options} {id : TypeId} {n : FullName}

/-- The qualified name of a declared type is not empty. -/
theorem FullName.IsWorded.display_ne (h : n.IsWorded) : n.display ≠ "" := by
  intro hempty
  have hsplit := FullName.splitChars_display h
  obtain ⟨p, ps, hparts⟩ := n.parts_eq
  have hp := h.parts p (by simp [hparts])
  rw [hempty] at hsplit
  have hmem : p.name.toList ∈ n.words.map String.toList := by simp [FullName.words, hparts]
  rw [← hsplit] at hmem
  exact hp.ne_nil (List.mem_singleton.1 hmem)

/-- **Of types with the same arities one at most is taken for the base of modules**, where
    qualified names are compared; a class that derives, of the types called like it, only from
    others with these arities is no module. -/
theorem Options.qualified_base_unique (h : ∀ tree ∈ c.trees, tree.IsParsed)
    (ho : o.baseMatch = .qualified) (hn : c.table.Names id n)
    (hb : o.matchesBase c.table (.named id) = true) :
    (∀ j m, c.table.Names j m → m.arities = n.arities →
      o.matchesBase c.table (.named j) = true → j = id) ∧
    ∀ k s, c.symbolOf? k.key = some s →
      (∀ j m, .named j ∈ c.table.baseChain s.id → c.table.Names j m →
        j ≠ id ∧ (m.arities = n.arities ∨ m.display ≠ o.baseType)) →
      ∃ r, c.moduleOf o k = .error r := by
  have hmatch {j : TypeId} : o.matchesBase c.table (.named j) = true ↔
      c.table.qualifiedName j = o.baseType := by
    simp [Options.matchesBase, ho, TypeRef.id?]
  have hdisplay : n.display = o.baseType := (hn.qualifiedName_eq c.sound).symm.trans (hmatch.1 hb)
  have hunique : ∀ j m, c.table.Names j m → m.arities = n.arities → m.display = o.baseType →
      j = id := by
    intro j m hm ha hd
    rw [hm.id_eq c.indexed, hn.id_eq c.indexed, FullName.display_injective
      (c.names_isWorded h hm) (c.names_isWorded h hn) ha (hd.trans hdisplay.symm)]
  refine ⟨fun j m hm ha hj => hunique j m hm ha ?_, fun k s hs hchain => ?_⟩
  · rw [← hm.qualifiedName_eq c.sound]
    exact hmatch.1 hj
  obtain ⟨s', tree, hmodule, -⟩ | ⟨-, r, -, herror⟩ := moduleOf_cases c o k
  · -- the type that is taken for the base is declared, and is one of the others
    obtain rfl : s' = s := Option.some_inj.1 (hmodule.symbolOf?.symm.trans hs)
    obtain ⟨base, hinherits, hne, hbase⟩ := hmodule.derives
    rw [IsBase, ho] at hbase
    obtain ⟨j, rfl, hj⟩ := hbase
    obtain ⟨x, hx⟩ : ∃ x, c.table.get? j = some x := by
      refine Option.ne_none_iff_exists'.1 fun hnone => ?_
      rw [SymbolTable.qualifiedName_of_none hnone, ← hdisplay] at hj
      exact (c.names_isWorded h hn).display_ne hj.symm
    obtain ⟨m, hm⟩ := c.sound.names hx
    rw [hm.qualifiedName_eq c.sound] at hj
    obtain ⟨hother, hlike⟩ := hchain j m (SymbolTable.mem_baseChain.2 ⟨hinherits, hne⟩) hm
    exact (hother (hunique j m hm (hlike.resolve_right (not_not.2 hj)) hj)).elim
  · exact ⟨r, herror⟩

/-- A type of the same name in another namespace is not taken for the base of modules. -/
theorem Options.qualified_base_unique_elsewhere :
    let c := Compilation.of [.parse 0 "Demo.cs" ("namespace A \x7b public class Base \x7b \x7d \x7d " ++
      "namespace B \x7b public class Base \x7b \x7d public class M : Base \x7b \x7d \x7d")] [] .empty
    let o := { Options.standard with baseType := "A.Base", baseMatch := .qualified }
    o.matchesBase c.table (.named (.ofName "A.Base")) = true ∧
      ∃ k s r, c.symbolOf? k.key = some s ∧
        c.table.baseChain s.id = [.named (.ofName "B.Base")] ∧ c.moduleOf o k = .error r := by
  intro c o
  let view (id : TypeId) := (c.table.get? id).map fun s =>
    (c.table.namespaces.path s.namespace_, s.containing?, s.name, s.arity)
  have hnames {id : TypeId} {path : List String} (hv : view id = some (path, none, "Base", 0)) :
      c.table.Names id (.top path ⟨"Base", 0⟩) := by
    obtain ⟨s, hs, hv⟩ := Option.map_eq_some_iff.1 hv
    obtain ⟨rfl, hcont, hname, harity⟩ : _ = path ∧ s.containing? = none ∧ _ ∧ _ := by
      simpa only [Prod.mk.injEq] using hv
    have hn := SymbolTable.Names.top hs hcont
    rwa [hname, harity] at hn
  obtain ⟨hA, hB, hb, hk⟩ : view (.ofName "A.Base") = some (["A"], none, "Base", 0) ∧
      view (.ofName "B.Base") = some (["B"], none, "Base", 0) ∧
      o.matchesBase c.table (.named (.ofName "A.Base")) = true ∧
      ((c.classes[2]?).bind fun k => (c.symbolOf? k.key).map fun s => c.table.baseChain s.id) =
        some [.named (.ofName "B.Base")] := by
    decide +kernel
  have hparsed : ∀ tree ∈ c.trees, tree.IsParsed := List.forall_mem_singleton.2 ⟨_, _, _, rfl⟩
  obtain ⟨k, -, hk⟩ := Option.bind_eq_some_iff.1 hk
  obtain ⟨s, hs, hchain⟩ := Option.map_eq_some_iff.1 hk
  have hunique := qualified_base_unique hparsed rfl (hnames hA) hb
  obtain ⟨r, herror⟩ := hunique.2 k s hs fun j m hj hm => by
    rw [hchain, List.mem_singleton] at hj
    obtain rfl := TypeRef.named.inj hj
    obtain rfl := (hnames hB).unique hm
    exact ⟨by decide +kernel, .inl rfl⟩
  exact ⟨hb, k, s, r, hs, hchain, herror⟩

/-- Types that differ in their arities only, or in what is a namespace and what is a type, have
    the same qualified name; each of them is taken for the base of modules. -/
theorem Options.qualified_base_lookalikes :
    let c := Compilation.of [.parse 0 "Demo.cs" ("public class Base \x7b \x7d " ++
      "public class Base<T> \x7b \x7d public class M : Base<int> \x7b \x7d " ++
      "namespace A \x7b public class B \x7b public class C \x7b \x7d \x7d \x7d " ++
      "namespace A.B \x7b public class C \x7b \x7d \x7d")] [] .empty
    let named (name : String) : Options :=
      { Options.standard with baseType := name, baseMatch := .qualified }
    let nested := (TypeId.ofName "A.B").nested "C"
    ((c.table.get? (.ofName "Base")).isSome ∧ (c.table.get? (.ofName "Base\x601")).isSome ∧
      TypeId.ofName "Base" ≠ .ofName "Base\x601" ∧
      (named "Base").matchesBase c.table (.named (.ofName "Base")) ∧
      (named "Base").matchesBase c.table (.named (.ofName "Base\x601"))) ∧
    ((c.table.get? nested).isSome ∧ (c.table.get? (.ofName "A.B.C")).isSome ∧
      nested ≠ .ofName "A.B.C" ∧
      (named "A.B.C").matchesBase c.table (.named nested) ∧
      (named "A.B.C").matchesBase c.table (.named (.ofName "A.B.C"))) ∧
    (c.classes.filterMap fun k => (c.moduleOf (named "Base") k).toOption).map
        (fun m => (m.declaration.name.value, c.table.baseChain m.symbol.id)) =
      [("M", [.named (.ofName "Base\x601")])] := by
  decide +kernel

end

end CommandModules

/-
  Command modules — finding types by their names.

  * `SymbolTable.Names`: the full name of a type, which leads through the types around it;
    each declared type has one, made of words;
  * `Compilation.nestedType?_names`: going down from the namespace along the name leads to
    the type;
  * `found_by_name`: so a type is found by its full metadata name, and by its dotted name
    from the global namespace unless a type hides a namespace on the way.
-/
import CommandModules.Proofs.Compilation.Named
import CommandModules.Proofs.Symbol.MetadataName
import CommandModules.Proofs.Symbol.Sound

namespace CommandModules

namespace SymbolTable

/-- The type has this full name. -/
inductive Names (t : SymbolTable) : TypeId → FullName → Prop
  | top {id : TypeId} {s : TypeSymbol} (hs : t.get? id = some s) (hc : s.containing? = none) :
      Names t id (.top (t.namespaces.path s.namespace_) ⟨s.name, s.arity⟩)
  | nested {id outer : TypeId} {s : TypeSymbol} {n : FullName} (hs : t.get? id = some s)
      (hc : s.containing? = some outer) (hn : Names t outer n) :
      Names t id (.nested n ⟨s.name, s.arity⟩)

/-- A type without type parameters stands beside a namespace on the path and has its name. -/
def Hides (t : SymbolTable) (path : List String) : Prop :=
  ∃ outer name inner id s, path = outer ++ name :: inner ∧ t.get? id = some s ∧
    s.containing? = none ∧ t.namespaces.path? s.namespace_ = some outer ∧
      s.name = name ∧ s.arity = 0

variable {all : List SyntaxTree} {t t' : SymbolTable} {id : TypeId} {s s' : TypeSymbol}
  {n m : FullName}

/-- A type has one full name. -/
theorem Names.unique (h : t.Names id n) (h' : t.Names id m) : n = m := by
  induction h generalizing m with
  | top hs hc =>
    cases h' with
    | top hs' => rw [Option.some_inj.1 (hs.symm.trans hs')]
    | nested hs' hc' =>
      rw [← Option.some_inj.1 (hs.symm.trans hs'), hc] at hc'
      cases hc'
  | nested hs hc _ ih =>
    cases h' with
    | top hs' hc' =>
      rw [← Option.some_inj.1 (hs.symm.trans hs'), hc] at hc'
      cases hc'
    | nested hs' hc' hn' =>
      obtain rfl := Option.some_inj.1 (hs.symm.trans hs')
      obtain rfl := Option.some_inj.1 (hc.symm.trans hc')
      rw [ih hn']

/-- Every declared type has a full name. -/
theorem Sound.names (h : t.Sound) (hs : t.get? id = some s) : ∃ n, t.Names id n := by
  obtain ⟨rank, hrank⟩ := h.rank
  -- the types around a type come before it
  induction hr : rank id using Nat.strong_induction_on generalizing id s with
  | _ k ih =>
    cases hc : s.containing? with
    | none => exact ⟨_, .top hs hc⟩
    | some outer =>
      obtain ⟨hknows, hlt⟩ := (hrank id s hs).2 outer hc
      obtain ⟨o, ho⟩ := Option.isSome_iff_exists.1 hknows
      obtain ⟨n, hn⟩ := ih (rank outer) (hr ▸ hlt) ho rfl
      exact ⟨_, .nested hs hc hn⟩

/-- With a type, each type that its name leads through is there. -/
theorem Names.get? (h : t.Names id n) : ∃ s, t.get? id = some s := by
  cases h with
  | top hs => exact ⟨_, hs⟩
  | nested hs => exact ⟨_, hs⟩

/-! ## Going down -/

/-- What the parts of a name lead to, one part of them after the other. -/
theorem follow?_append (place : Place) (ps qs : List NamePart) :
    t.follow? place (ps ++ qs) = (t.follow? place ps).bind fun p => t.follow? p qs := by
  induction ps generalizing place with
  | nil => rfl
  | cons p ps ih =>
    rw [List.cons_append, follow?, follow?]
    cases t.member? place p with
    | none => rfl
    | some q => exact ih q

/-- **The parts of a full name lead from its namespace to the type**: the first one to a type
    there, the others to types in types. -/
theorem Indexed.follow?_names (h : t.Indexed) (hn : t.Names id n) :
    ∃ k outermost p ps, t.namespaces.path? k = some n.path ∧ n.parts = p :: ps ∧
      t.namespaces.typeIn? k p.metadataName = some outermost ∧
        t.follow? (.type outermost) ps = some (.type id) := by
  induction hn with
  | @top id s hs hc =>
    have hplace := TypeSymbol.place_eq_namespace.2 ⟨hc, rfl⟩
    obtain ⟨path, hpath⟩ := Namespaces.lt_length_iff.1 (hplace ▸ h.place id s hs)
    have hl := h.lookup_namesIn hs
    rw [hplace, lookup_namesIn_namespace] at hl
    refine ⟨s.namespace_, id, ⟨s.name, s.arity⟩, [], ?_, rfl, hl, rfl⟩
    rw [FullName.path, Namespaces.path_eq hpath, hpath]
  | @nested id outer s n hs hc hn ih =>
    obtain ⟨k, outermost, p, ps, hk, hparts, htype, hfollow⟩ := ih
    refine ⟨k, outermost, p, ps ++ [⟨s.name, s.arity⟩], hk, ?_, htype, ?_⟩
    · rw [FullName.parts, hparts, List.cons_append]
    · obtain ⟨o, ho⟩ := hn.get?
      have hl := h.lookup_namesIn hs
      rw [TypeSymbol.place_eq_type.2 hc, lookup_namesIn_type ho] at hl
      rw [follow?_append, hfollow, Option.bind_some, follow?, member?, ho]
      exact congrArg (fun id? => (Option.map Place.type id?).bind fun place => t.follow? place []) hl

/-! ## Through namespaces -/

/-- What hides a namespace is found under its name. -/
theorem Indexed.hides (hi : t.Indexed) {k : Nat} {outer inner : List String} {name : String}
    (hk : t.namespaces.path? k = some outer) (hname : IsWord name (wordKind name))
    (h : t.namespaces.typeIn? k name = some id) : t.Hides (outer ++ name :: inner) := by
  rw [← lookup_namesIn_namespace] at h
  obtain ⟨s, hs, hp, hm⟩ := hi.of_lookup h
  obtain ⟨hc, hn⟩ := TypeSymbol.place_eq_namespace.1 hp
  obtain ⟨hsname, harity⟩ := metadataName_eq_word hname hm
  exact ⟨outer, name, inner, id, s, rfl, hs, hc, hn ▸ hk, hsname, harity⟩

/-- **A path leads to its namespace**, if no type hides a namespace on the way. -/
theorem follow?_path {outer inner : List String} {k m : Nat}
    (hwords : ∀ q ∈ inner, IsWord q (wordKind q)) (hi : t.Indexed)
    (hnodup : t.namespaces.paths.Nodup) (hclosed : t.namespaces.IsClosed)
    (hk : t.namespaces.path? k = some outer) (hm : t.namespaces.path? m = some (outer ++ inner))
    (hides : ¬ t.Hides (outer ++ inner)) :
    t.follow? (.namespace_ k) (inner.map fun name => ⟨name, 0⟩) = some (.namespace_ m) := by
  induction inner generalizing outer k with
  | nil =>
    rw [List.append_nil] at hm
    have hkm := (Namespaces.find?_eq_some_iff hnodup).2 hk
    rw [(Namespaces.find?_eq_some_iff hnodup).2 hm] at hkm
    rw [Option.some_inj.1 hkm]
    rfl
  | cons name inner ih =>
    have hname := hwords name List.mem_cons_self
    have hsplit : outer ++ name :: inner = outer ++ [name] ++ inner := List.append_cons ..
    have hmem : outer ++ [name] ∈ t.namespaces.paths :=
      hclosed.prefix_mem (hsplit ▸ Namespaces.mem_paths_of_path? hm)
    obtain ⟨child, hchild⟩ := Option.isSome_iff_exists.1 (Namespaces.find?_isSome hmem)
    have htype : t.namespaces.typeIn? k (NamePart.metadataName ⟨name, 0⟩) = none := by
      by_contra hne
      obtain ⟨id, hid⟩ := Option.ne_none_iff_exists'.1 hne
      exact hides (hi.hides hk hname hid)
    have hmember : t.member? (.namespace_ k) ⟨name, 0⟩ = some (.namespace_ child) := by
      rw [member?, htype, if_pos rfl, Namespaces.child?_eq hk, hchild]
      rfl
    rw [List.map_cons, follow?, hmember]
    refine ih (fun q hq => hwords q (List.mem_cons_of_mem _ hq)) (Namespaces.find?_path? hchild) ?_ ?_
    · rwa [hsplit] at hm
    · rwa [hsplit] at hides

end SymbolTable

namespace Compilation

variable {c : Compilation} {id : TypeId} {s : TypeSymbol} {n : FullName}

/-- The names of namespaces and types on the way to a type are words. -/
theorem names_isWorded (h : ∀ tree ∈ c.trees, tree.IsParsed) (hn : c.table.Names id n) :
    n.IsWorded := by
  induction hn with
  | @top id s hs hc =>
    refine ⟨fun q hq => ?_, List.forall_mem_singleton.2 (c.name_isWord h hs)⟩
    obtain ⟨tree, -, m, -, hname⟩ := c.named id s hs
    rw [FullName.path, Namespaces.path_eq hname.path] at hq
    exact .of_hasWordChars (c.hasWords h _ (Namespaces.mem_paths_of_path? hname.path) q hq)
  | nested hs hc hn ih =>
    refine ⟨ih.path, List.forall_mem_append.2 ⟨ih.parts, ?_⟩⟩
    exact List.forall_mem_singleton.2 (c.name_isWord h hs)

/-- Going down by metadata names is going down by parts. -/
theorem nestedType?_of_follow? {outer : TypeId} {ps : List NamePart}
    (h : c.table.follow? (.type outer) ps = some (.type id)) :
    c.nestedType? outer (ps.map NamePart.metadataName) = some id := by
  induction ps generalizing outer with
  | nil =>
    obtain rfl := Place.type.inj (Option.some_inj.1 h)
    rfl
  | cons p ps ih =>
    rw [SymbolTable.follow?] at h
    rw [List.map_cons, nestedType?]
    obtain ⟨place, hplace, hrest⟩ := Option.bind_eq_some_iff.1 h
    obtain ⟨s, hs, hmap⟩ := Option.bind_eq_some_iff.1 hplace
    obtain ⟨j, hj, rfl⟩ := Option.map_eq_some_iff.1 hmap
    exact Option.bind_eq_some_iff.2 ⟨s, hs, Option.bind_eq_some_iff.2 ⟨j, hj, ih hrest⟩⟩

/-- **Every declared type is found by its name**: by its full metadata name, and by its dotted
    name from the global namespace, whatever the scope is, if no type hides a namespace on the
    way. -/
theorem found_by_name (h : ∀ tree ∈ c.trees, tree.IsParsed) (hs : c.table.get? id = some s) :
    ∃ n, c.table.Names id n ∧ c.typeNamed? n.metadataName = some s ∧
      (¬ c.table.Hides n.path →
        ∀ scope, c.table.resolveName n.dotted true scope = .found id) := by
  obtain ⟨n, hn⟩ := c.sound.names hs
  have hwords := names_isWorded h hn
  obtain ⟨k, outermost, p, ps, hk, hparts, htype, hfollow⟩ := c.indexed.follow?_names hn
  refine ⟨n, hn, ?_, fun hides scope => ?_⟩
  · have hfind := (Namespaces.find?_eq_some_iff c.nodup_paths).2 hk
    rw [typeNamed?, splitMetadataName_metadataName hwords, hparts]
    simp only [List.map_cons, hfind, htype, nestedType?_of_follow? hfollow,
      Option.bind_eq_bind, Option.bind_some]
    exact hs
  · have hk' : c.table.namespaces.path? k = some ([] ++ n.path) := hk
    have hpath := SymbolTable.follow?_path hwords.path c.indexed c.nodup_paths c.isClosed
      c.sound.root hk' hides
    have hmember : c.table.member? (.namespace_ k) p = some (.type outermost) := by
      rw [SymbolTable.member?, htype]
    have hall : c.table.follow? (.namespace_ Namespaces.root) n.dotted = some (.type id) := by
      rw [FullName.dotted, SymbolTable.follow?_append, hpath, hparts]
      rw [Option.bind_some, SymbolTable.follow?, hmember]
      exact hfollow
    cases hd : n.dotted with
    | nil => simp [FullName.dotted, hparts] at hd
    | cons first rest =>
      rw [SymbolTable.resolveName, if_pos rfl, ← hd, hall]
      rfl

/-- A type with a type parameter in a type in a namespace. -/
theorem found_by_name_nested :
    let c := Compilation.of
      [.parse 0 "Demo.cs" "namespace Demo \x7b class Outer \x7b class Inner<T> \x7b \x7d \x7d \x7d"]
      [] .empty
    let id := (TypeId.ofName "Demo.Outer").nested "Inner\x601"
    ∃ s, c.table.get? id = some s ∧ c.typeNamed? "Demo.Outer+Inner\x601" = some s ∧
      ∀ scope, c.table.resolveName [⟨"Demo", 0⟩, ⟨"Outer", 0⟩, ⟨"Inner", 1⟩] true scope =
        .found id := by
  intro c id
  have hview {t : SymbolTable} {j : TypeId} {v : List String × Option TypeId × String × Nat}
      (hv : (t.get? j).map (fun s =>
        (t.namespaces.path s.namespace_, s.containing?, s.name, s.arity)) = some v) :
      ∃ s, t.get? j = some s ∧ t.namespaces.path s.namespace_ = v.1 ∧
        s.containing? = v.2.1 ∧ s.name = v.2.2.1 ∧ s.arity = v.2.2.2 := by
    obtain ⟨s, hs, rfl⟩ := Option.map_eq_some_iff.1 hv
    exact ⟨s, hs, rfl, rfl, rfl, rfl⟩
  obtain ⟨o, ho, hopath, hocont, honame, hoarity⟩ : ∃ s, _ := hview (t := c.table)
    (j := .ofName "Demo.Outer") (v := (["Demo"], none, "Outer", 0)) (by decide +kernel)
  obtain ⟨s, hs, -, hcont, hname, harity⟩ : ∃ s, _ := hview (t := c.table)
    (j := id) (v := (["Demo"], some (.ofName "Demo.Outer"), "Inner", 1)) (by decide +kernel)
  have hn : c.table.Names id (.nested (.top ["Demo"] ⟨"Outer", 0⟩) ⟨"Inner", 1⟩) := by
    have hn := SymbolTable.Names.nested hs hcont (.top ho hocont)
    rwa [hopath, honame, hoarity, hname, harity] at hn
  have hparsed : ∀ tree ∈ c.trees, tree.IsParsed := List.forall_mem_singleton.2 ⟨_, _, _, rfl⟩
  obtain ⟨n, hn', hmeta, hdotted⟩ := found_by_name hparsed hs
  obtain rfl := hn.unique hn'
  have htext : FullName.metadataName (.nested (.top ["Demo"] ⟨"Outer", 0⟩) ⟨"Inner", 1⟩) =
      "Demo.Outer+Inner\x601" := by decide +kernel
  rw [htext] at hmeta
  refine ⟨s, hs, hmeta, hdotted ?_⟩
  -- no type is called like the namespace
  rintro ⟨outer, name, inner, j, x, hpath, hx, -, -, rfl, -⟩
  have hnames : ∀ x ∈ c.table.symbols, x.name ≠ "Demo" := by decide +kernel
  have hmem : x ∈ c.table.symbols := List.mem_filterMap.2
    ⟨j, c.indexed.mem_order_iff.2 (by rw [hx]; rfl), hx⟩
  have hlast : x.name ∈ ["Demo"] := by
    rw [show ["Demo"] = outer ++ x.name :: inner from hpath]
    simp
  exact hnames x hmem (List.mem_singleton.1 hlast)

end Compilation

end CommandModules

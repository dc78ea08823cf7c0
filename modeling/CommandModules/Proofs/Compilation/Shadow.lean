/-
  Command modules — types of sources and references.

  A type that the sources declare hides the declarations of its name in references, as long as
  these are refused.

  * `SyntaxTree.lineages`: the declarations of a text, each with those around it;
  * `SymbolTable.KeepsOut`: a reference has no declaration that could become one more part of
    the type;
  * `Declaring.Hides`: going through the trees of references leaves such a type as it is, and
    puts no bases aside for it;
  * `Compilation.hides_references`: so its symbol is what the sources alone make of it.
-/
import CommandModules.Proofs.Compilation.Extended
import CommandModules.Proofs.Compilation.Globals
import CommandModules.Proofs.Compilation.Accepted
import CommandModules.Proofs.Symbol.Described

namespace CommandModules

open Relation

/-! ## Declarations in a text -/

/-- A declaration right inside the first of `outers`, if there is one, and else in the
    namespace with this path. -/
def Part.inside (path : List String) (outers : List Part) (part : NamePart) (kind : TypeKind)
    (modifiers : Modifiers) : Part :=
  ⟨.inside path (outers.head?.map Part.name) part, kind, modifiers⟩

/-- The declaration of a type. -/
def TypeDeclaration.asPart (path : List String) (outers : List Part) (t : TypeDeclaration) : Part :=
  .inside path outers t.namePart t.kind t.modifiers.flags

/-- The declaration of a delegate. -/
def Delegate.asPart (path : List String) (outers : List Part) (d : Delegate) : Part :=
  .inside path outers d.namePart .delegate d.modifiers.flags

mutual

/-- A type and what is nested in it, each with the declarations around it. -/
def TypeDeclaration.lineages (path : List String) (outers : List Part) :
    TypeDeclaration → List (List Part)
  | t@⟨_, _, _, _, _, _, _, _, members, _⟩ =>
    let line := t.asPart path outers :: outers
    line :: Member.allLineages path line members

/-- The types and delegates of a member, each with the declarations around it. -/
def Member.lineages (path : List String) (outers : List Part) : Member → List (List Part)
  | .type t => t.lineages path outers
  | .delegate d => [d.asPart path outers :: outers]
  | _ => []

/-- The types and delegates of members, each with the declarations around it. -/
def Member.allLineages (path : List String) (outers : List Part) : List Member → List (List Part)
  | [] => []
  | m :: ms => m.lineages path outers ++ Member.allLineages path outers ms

end

mutual

/-- The types and delegates in a namespace, each with the declarations around it. -/
def NamespaceDeclaration.lineages (path : List String) : NamespaceDeclaration → List (List Part)
  | ⟨name, _, _, members, _⟩ => Declaration.allLineages (path ++ name.path) members

/-- The types and delegates of a declaration, each with the declarations around it. -/
def Declaration.lineages (path : List String) : Declaration → List (List Part)
  | .namespace_ n => n.lineages path
  | .type t => t.lineages path []
  | .delegate d => [[d.asPart path []]]

/-- The types and delegates of declarations, each with the declarations around it. -/
def Declaration.allLineages (path : List String) : List Declaration → List (List Part)
  | [] => []
  | d :: ds => d.lineages path ++ Declaration.allLineages path ds

end

/-- The types and delegates of a text in its order, each with the declarations around it, the
    innermost first. -/
def SyntaxTree.lineages (t : SyntaxTree) : List (List Part) :=
  Declaration.allLineages [] t.root.members

/-! ## What is refused -/

/-- Whatever is spelled, a declaration of this kind with these modifiers is no part of the
    type. -/
def TypeSymbol.KeepsOut (s : TypeSymbol) (p : Part) : Prop :=
  s.isPartial = false ∨ p.modifiers.contains .partial_ = false ∨ s.kind ≠ p.kind

/-- The type cannot have the declaration too. -/
def TypeSymbol.Refuses (s : TypeSymbol) (p : Part) : Prop :=
  s.KeepsOut p ∨ SymbolTable.conflict s.modifiers p.modifiers = true

instance (s : TypeSymbol) (p : Part) : Decidable (s.KeepsOut p) :=
  inferInstanceAs (Decidable (_ ∨ _ ∨ _))

instance (s : TypeSymbol) (p : Part) : Decidable (s.Refuses p) :=
  inferInstanceAs (Decidable (_ ∨ _))

/-- The declaration that `line` starts with cannot become a part of the type with this symbol:
    it is refused, or it stands in one that the table keeps out. -/
def SymbolTable.Bars (t : SymbolTable) (s : TypeSymbol) (line : List Part) : Prop :=
  (∃ p ∈ line.head?, s.Refuses p) ∨
    ∃ p ∈ line.tail, ∃ x ∈ t.get? p.name.id, x.KeepsOut p

instance (t : SymbolTable) (s : TypeSymbol) (line : List Part) : Decidable (t.Bars s line) :=
  inferInstanceAs (Decidable (_ ∨ _))

section
variable {T : SymbolTable} {id i : TypeId} {y x : TypeSymbol} {p : Part} {d : NewType}
  {s s' : Declaring} {w : Surroundings} {path : List String} {outers : List Part}
  {outer? : Option TypeId} {number : Nat} {tree : SyntaxTree} {origin : Origin}

theorem SymbolTable.refusal?_ne_none (hk : p.kind = d.kind) (hm : p.modifiers = d.modifiers) :
    SymbolTable.refusal? y d ≠ none ↔ y.Refuses p := by
  rw [Ne, SymbolTable.refusal?_eq_none, TypeSymbol.Refuses, TypeSymbol.KeepsOut, hk, hm]
  cases y.isPartial <;> cases d.modifiers.contains .partial_ <;>
    cases SymbolTable.conflict y.modifiers d.modifiers <;> simp

/-! ## Through a reference -/

/-- The types of `T` are of the kinds that they had and as partial, the type `id` is as it
    was, and no bases were put aside for it. -/
structure Declaring.Keeps (T : SymbolTable) (id : TypeId) (y : TypeSymbol) (s : Declaring) : Prop where
  stays : ∀ j x, T.get? j = some x →
    ∃ x', s.table.get? j = some x' ∧ x'.kind = x.kind ∧ x'.isPartial = x.isPartial
  symbol : s.table.get? id = some y
  pending : ∀ p ∈ s.found.pending, p.type ≠ id

/-- A declaration changes neither the kind of a type nor whether it is partial. -/
theorem SymbolTable.declare_stays {t t' : SymbolTable} (hd : t.declare d = .ok (i, t')) {j : TypeId}
    (hx : t.get? j = some x) :
    ∃ x', t'.get? j = some x' ∧ x'.kind = x.kind ∧ x'.isPartial = x.isPartial := by
  obtain ⟨rfl, ⟨z, hz, hr, rfl⟩ | ⟨hn, rfl⟩⟩ := SymbolTable.declare_cases hd
  · rw [SymbolTable.get?_modify, hx]
    refine ⟨_, rfl, ?_⟩
    split
    · rename_i hj
      obtain rfl := Option.some_inj.1 (hx.symm.trans (hj ▸ hz))
      refine ⟨rfl, ?_⟩
      have hpartial := (SymbolTable.refusal?_eq_none.1 hr).1
      rw [hpartial]
      show Modifiers.contains (Modifiers.union _ _) .partial_ = true
      rw [Modifiers.contains_union]
      exact Bool.or_eq_true_iff.2 (.inl hpartial)
    · exact ⟨rfl, rfl⟩
  · have hj : j ≠ t.idOf d := fun hj => by rw [hj, hn] at hx; cases hx
    rw [SymbolTable.get?_enter_of_ne hj, hx]
    refine ⟨_, rfl, ?_⟩
    unfold SymbolTable.nest
    split <;> exact ⟨rfl, rfl⟩

/-- A declaration that is no part of a type, and not right inside it, leaves it as it is. -/
theorem SymbolTable.declare_get?_of_ne {t t' : SymbolTable} (hd : t.declare d = .ok (i, t'))
    (hi : id ≠ i) (ho : d.containing? ≠ some id) : t'.get? id = t.get? id := by
  obtain ⟨rfl, ⟨z, -, -, rfl⟩ | ⟨-, rfl⟩⟩ := SymbolTable.declare_cases hd
  · rw [SymbolTable.get?_modify]
    simp only [if_neg hi, Option.map_id']
  · rw [SymbolTable.get?_enter_of_ne hi]
    unfold SymbolTable.nest
    simp only [if_neg ho, Option.map_id']

namespace Declaring.Keeps

theorem declare (h : s.Keeps T id y) (w : Surroundings) (ho : d.containing? ≠ some id)
    (hd : s.table.idOf d = id → SymbolTable.refusal? y d ≠ none) :
    (s.declare w d).2.Keeps T id y ∧ ∀ i, (s.declare w d).1 = some i → i ≠ id := by
  obtain ⟨i, t, hok, heq⟩ | ⟨e, -, hnone, htable, -⟩ := Declaring.declare_cases s w d
  · have hi : i ≠ id := by
      rintro rfl
      obtain ⟨hid, ⟨z, hz, hr, -⟩ | ⟨hn, -⟩⟩ := SymbolTable.declare_cases hok
      · obtain rfl := Option.some_inj.1 (h.symbol.symm.trans hz)
        exact hd hid.symm hr
      · cases h.symbol.symm.trans hn
    rw [heq]
    refine ⟨⟨fun j x hx => ?_, (SymbolTable.declare_get?_of_ne hok hi.symm ho).trans h.symbol,
      h.pending⟩, by rintro _ ⟨⟩; exact hi⟩
    obtain ⟨x', hx', hkind, hpartial⟩ := h.stays j x hx
    obtain ⟨x'', hx'', hkind', hpartial'⟩ := SymbolTable.declare_stays hok hx'
    exact ⟨x'', hx'', hkind'.trans hkind, hpartial'.trans hpartial⟩
  · refine ⟨⟨htable ▸ h.stays, htable ▸ h.symbol, ?_⟩, by rw [hnone]; exact nofun⟩
    rw [(s.declare_found w d).1]
    exact h.pending

/-- What is accepted was not kept out. -/
theorem not_keepsOut (h : s.Keeps T id y) (hd : s.declare w d = (some i, s'))
    (hx : T.get? (s.table.idOf d) = some x) (hk : p.kind = d.kind) (hm : p.modifiers = d.modifiers) :
    ¬ x.KeepsOut p := by
  obtain ⟨x', hx', hkind, hpartial⟩ := h.stays _ x hx
  intro hout
  obtain ⟨_, t, hok, -⟩ | ⟨e, -, hnone, -, -⟩ := Declaring.declare_cases s w d
  · obtain ⟨rfl, ⟨z, hz, hr, -⟩ | ⟨hn, -⟩⟩ := SymbolTable.declare_cases hok
    · obtain rfl := Option.some_inj.1 (hx'.symm.trans hz)
      refine (SymbolTable.refusal?_ne_none hk hm).2 (.inl ?_) hr
      rw [TypeSymbol.KeepsOut] at hout ⊢
      rwa [hpartial, hkind]
    · cases hx'.symm.trans hn
  · rw [hd] at hnone
    cases hnone

theorem putAside (h : s.Keeps T id y) (w : Surroundings) (outer? : Option TypeId) (hi : i ≠ id)
    (t : TypeDeclaration) : (s.putAside w outer? i t).Keeps T id y := by
  unfold Declaring.putAside
  split
  · exact h
  · exact ⟨h.stays, h.symbol,
      List.forall_mem_append.2 ⟨h.pending, List.forall_mem_singleton.2 hi⟩⟩

end Declaring.Keeps

/-- A place in a reference: the type around it is not `id`, and nothing around it is kept
    out. -/
structure SymbolTable.Reaches (T : SymbolTable) (id : TypeId) (outer? : Option TypeId)
    (outers : List Part) : Prop where
  outer : outer? ≠ some id
  outers : ∀ p ∈ outers, ∀ x, T.get? p.name.id = some x → ¬ x.KeepsOut p

/-- No declaration of the type `id` on these lines can become a part of it. -/
def SymbolTable.BarsAll (T : SymbolTable) (id : TypeId) (y : TypeSymbol) (lines : List (List Part)) :
    Prop :=
  ∀ line ∈ lines, ∀ p ∈ line.head?, p.name.id = id → T.Bars y line

instance (T : SymbolTable) (id : TypeId) (y : TypeSymbol) (lines : List (List Part)) :
    Decidable (T.BarsAll id y lines) :=
  inferInstanceAs (Decidable (∀ line ∈ lines, ∀ p ∈ line.head?, _ → _))

theorem SymbolTable.Reaches.refusal?_ne_none (h : T.Reaches id outer? outers)
    (hb : p.name.id = id → T.Bars y (p :: outers)) (hk : p.kind = d.kind)
    (hm : p.modifiers = d.modifiers) (hid : p.name.id = id) : SymbolTable.refusal? y d ≠ none := by
  refine (SymbolTable.refusal?_ne_none hk hm).2 ?_
  obtain ⟨q, hq, href⟩ | ⟨q, hq, x, hx, hout⟩ := hb hid
  · obtain rfl := Option.some_inj.1 hq
    exact href
  · exact absurd hout (h.outers q hq x hx)

/-- A type in a reference, if its members leave the type `id` as it is. -/
theorem declareType_keeps_of_members (h : s.Keeps T id y) (hr : T.Reaches id outer? outers)
    (hw : w.Within path number tree origin s.table)
    (ho : s.table.HoldsOuter path outer? (outers.head?.map Part.name)) {t : TypeDeclaration}
    (ht : Node.type t ∈ tree.nodes)
    (hn : FullName.inside path (outers.head?.map Part.name) t.namePart ∈ tree.fullNames)
    (hb : (t.asPart path outers).name.id = id → T.Bars y (t.asPart path outers :: outers))
    (hms : ∀ {u : Declaring} {i : TypeId}, u.Keeps T id y →
      T.Reaches id (some i) (t.asPart path outers :: outers) →
      w.Within path number tree origin u.table →
      u.table.HoldsOuter path (some i) (some (t.asPart path outers).name) →
      (declareMembers w i u t.members).Keeps T id y) :
    (declareType w outer? s t).Keeps T id y := by
  have hid : s.table.idOf (w.ofType outer? t) = (t.asPart path outers).name.id :=
    SymbolTable.idOf_eq (ho.isNamed hw ..)
  obtain ⟨hkeeps, hne⟩ := h.declare w hr.outer fun heq =>
    hr.refusal?_ne_none (d := w.ofType outer? t) hb rfl rfl (hid.symm.trans heq)
  have hstep := Declaring.declare_step hw ho ht hn
  rw [declareType_eq]
  rcases he : s.declare w (w.ofType outer? t) with ⟨_ | i, u⟩
  · rw [he] at hkeeps
    exact hkeeps
  · rw [he] at hkeeps hstep hne
    obtain ⟨hstep', hin⟩ := Declaring.declare_accepted hw ho ht he
    refine hms (hkeeps.putAside w outer? (hne i rfl) t) ⟨fun hi => hne i rfl (Option.some_inj.1 hi), ?_⟩
      ((hw.mono hstep.extends).mono hstep'.extends) hin
    refine List.forall_mem_cons.2 ⟨fun x hx => ?_, hr.outers⟩
    exact h.not_keepsOut he (hid ▸ hx) rfl rfl

mutual

theorem declareType_keeps {s : Declaring} {outer? : Option TypeId} {outers : List Part}
    (h : s.Keeps T id y) (hr : T.Reaches id outer? outers)
    (hw : w.Within path number tree origin s.table)
    (ho : s.table.HoldsOuter path outer? (outers.head?.map Part.name)) :
    (t : TypeDeclaration) → Node.type t ∈ tree.nodes →
      (∀ n ∈ t.fullNames path (outers.head?.map Part.name), n ∈ tree.fullNames) →
      T.BarsAll id y (t.lineages path outers) → (declareType w outer? s t).Keeps T id y
  | ⟨_, _, _, _, _, _, _, _, members, _⟩, ht, hn, hb =>
    declareType_keeps_of_members h hr hw ho ht (hn _ List.mem_cons_self)
      (hb _ List.mem_cons_self _ rfl) fun h' hr' hw' ho' =>
        declareMembers_keeps h' hr' hw' ho' members (fun _ hm => SyntaxTree.children_mem_nodes ht
          (List.mem_append_right _ (List.mem_map_of_mem hm)))
          (fun n hmem => hn n (List.mem_cons_of_mem _ hmem))
          fun line hmem => hb line (List.mem_cons_of_mem _ hmem)

theorem declareMember_keeps {s : Declaring} {outer : TypeId} {part : Part} {outers : List Part}
    (h : s.Keeps T id y) (hr : T.Reaches id (some outer) (part :: outers))
    (hw : w.Within path number tree origin s.table)
    (ho : s.table.HoldsOuter path (some outer) (some part.name)) :
    (m : Member) → Node.ofMember m ∈ tree.nodes →
      (∀ n ∈ m.fullNames path part.name, n ∈ tree.fullNames) →
      T.BarsAll id y (m.lineages path (part :: outers)) → (declareMember w outer s m).Keeps T id y
  | .type t, hm, hn, hb => declareType_keeps h hr hw ho t hm hn hb
  | .delegate _, _, _, hb =>
    (h.declare w hr.outer fun hid => hr.refusal?_ne_none (hb _ List.mem_cons_self _ rfl) rfl rfl
      ((SymbolTable.idOf_eq (ho.isNamed hw ..)).symm.trans hid)).1
  | .method _, _, _, _ | .constructor _, _, _, _ | .field _, _, _, _ | .property _, _, _, _
  | .event _, _, _, _ | .enumMember _, _, _, _ | .special _, _, _, _ => h

theorem declareMembers_keeps {s : Declaring} {outer : TypeId} {part : Part} {outers : List Part}
    (h : s.Keeps T id y) (hr : T.Reaches id (some outer) (part :: outers))
    (hw : w.Within path number tree origin s.table)
    (ho : s.table.HoldsOuter path (some outer) (some part.name)) :
    (ms : List Member) → (∀ m ∈ ms, Node.ofMember m ∈ tree.nodes) →
      (∀ n ∈ Member.allFullNames path part.name ms, n ∈ tree.fullNames) →
      T.BarsAll id y (Member.allLineages path (part :: outers) ms) →
      (declareMembers w outer s ms).Keeps T id y
  | [], _, _, _ => h
  | m :: ms, hm, hn, hb => by
    obtain ⟨hm₁, hms⟩ := List.forall_mem_cons.1 hm
    obtain ⟨hn₁, hns⟩ := List.forall_mem_append.1 hn
    obtain ⟨hb₁, hbs⟩ := List.forall_mem_append.1 hb
    have he := Declaring.extends_of_steps (declareMember_steps hw ho m hm₁ hn₁)
    exact declareMembers_keeps (declareMember_keeps h hr hw ho m hm₁ hn₁ hb₁) hr (hw.mono he)
      (ho.mono he) ms hms hns hbs

end

mutual

theorem declareNamespace_keeps {path : List String} {s : Declaring} {w : Surroundings}
    (h : s.Keeps T id y) (hw : w.Within path number tree origin s.table) :
    (d : NamespaceDeclaration) → Node.namespace_ d ∈ tree.nodes →
      (∀ n ∈ d.fullNames path, n ∈ tree.fullNames) → T.BarsAll id y (d.lineages path) →
      (declareNamespace w s d).Keeps T id y
  | ⟨name, _, us, members, _⟩, hd, hn, hb => by
    have hin := (Surroundings.within_enter hw name.path).withUsings (.inr ⟨_, hd, rfl⟩ : tree.HasUsings us)
    rw [declareNamespace_eq]
    have h' : ((s.enterNamespace w.namespace_ name.path).1.noteUsings us).Keeps T id y :=
      ⟨h.stays, h.symbol, h.pending⟩
    exact declareAll_keeps h' hin members (fun x hx =>
      SyntaxTree.children_mem_nodes hd (List.mem_append_right _ (List.mem_map_of_mem hx))) hn hb

theorem declareOne_keeps {path : List String} {s : Declaring} {w : Surroundings}
    (h : s.Keeps T id y) (hw : w.Within path number tree origin s.table) :
    (x : Declaration) → Node.ofDeclaration x ∈ tree.nodes →
      (∀ n ∈ x.fullNames path, n ∈ tree.fullNames) → T.BarsAll id y (x.lineages path) →
      (declareOne w s x).Keeps T id y
  | .namespace_ d, hx, hn, hb => declareNamespace_keeps h hw d hx hn hb
  | .type t, hx, hn, hb =>
    have hr : T.Reaches id none [] := ⟨nofun, List.forall_mem_nil _⟩
    declareType_keeps h hr hw .none t hx hn hb
  | .delegate _, _, _, hb =>
    have hr : T.Reaches id none [] := ⟨nofun, List.forall_mem_nil _⟩
    have ho : s.table.HoldsOuter path none none := .none
    (h.declare w hr.outer fun hid => hr.refusal?_ne_none (hb _ List.mem_cons_self _ rfl) rfl rfl
      ((SymbolTable.idOf_eq (ho.isNamed hw ..)).symm.trans hid)).1

theorem declareAll_keeps {path : List String} {s : Declaring} {w : Surroundings}
    (h : s.Keeps T id y) (hw : w.Within path number tree origin s.table) :
    (xs : List Declaration) → (∀ x ∈ xs, Node.ofDeclaration x ∈ tree.nodes) →
      (∀ n ∈ Declaration.allFullNames path xs, n ∈ tree.fullNames) →
      T.BarsAll id y (Declaration.allLineages path xs) → (declareAll w s xs).Keeps T id y
  | [], _, _, _ => h
  | x :: xs, hx, hn, hb => by
    obtain ⟨hx₁, hxs⟩ := List.forall_mem_cons.1 hx
    obtain ⟨hn₁, hns⟩ := List.forall_mem_append.1 hn
    obtain ⟨hb₁, hbs⟩ := List.forall_mem_append.1 hb
    have he := Declaring.extends_of_steps (declareOne_steps hw x hx₁ hn₁)
    exact declareAll_keeps (declareOne_keeps h hw x hx₁ hn₁ hb₁) (hw.mono he) xs hxs hns hbs

end

end

/-- **A tree that bars a type** leaves it as it is, and puts no bases aside for it. -/
theorem declareTree_keeps {T t : SymbolTable} {id : TypeId} {y : TypeSymbol} {tree : SyntaxTree}
    (number : Nat) (origin : Origin) (h : Declaring.Keeps T id y ⟨t, .empty⟩)
    (ht : t.namespaces.path? Namespaces.root = some []) (hb : T.BarsAll id y tree.lineages) :
    Declaring.Keeps T id y
      ⟨(declareTree t number tree origin).1, (declareTree t number tree origin).2⟩ := by
  have hw : Surroundings.Within ⟨number, tree, origin, Namespaces.root, []⟩ [] number tree origin t :=
    ⟨rfl, rfl, rfl, ht, List.forall_mem_nil _⟩
  exact declareAll_keeps (s := (Declaring.mk t .empty).noteUsings tree.root.usings)
    ⟨h.stays, h.symbol, h.pending⟩ (hw.withUsings (.inl rfl)) tree.root.members
    (fun x hx => SyntaxTree.children_mem_nodes tree.root_mem_nodes
      (List.mem_append_right _ (List.mem_map_of_mem hx))) (fun _ h => h) hb

/-- **Trees that bar a type** leave it as it is, and put no bases aside for it. -/
theorem declareTrees_keeps {T t : SymbolTable} {id : TypeId} {y : TypeSymbol} {trees : List SyntaxTree}
    {origin : Origin} (number : Nat) (h : Declaring.Keeps T id y ⟨t, .empty⟩)
    (ht : t.namespaces.path? Namespaces.root = some [])
    (hb : ∀ tree ∈ trees, T.BarsAll id y tree.lineages) :
    let r := declareTrees t number (trees.map (·, origin))
    r.1.get? id = some y ∧ ∀ f ∈ r.2, ∀ p ∈ f.2.pending, p.type ≠ id := by
  induction trees generalizing t number with
  | nil => exact ⟨h.symbol, List.forall_mem_nil _⟩
  | cons tree trees ih =>
    obtain ⟨hb₁, hbs⟩ := List.forall_mem_cons.1 hb
    have hkeeps := declareTree_keeps number origin h ht hb₁
    have hext := Declaring.extends_of_steps (declareTree_steps number tree origin ht)
    obtain ⟨hget, hpending⟩ := ih (number + 1) ⟨hkeeps.stays, hkeeps.symbol, List.forall_mem_nil _⟩
      (hext.path?_root ht) hbs
    exact ⟨hget, List.forall_mem_cons.2 ⟨hkeeps.pending, hpending⟩⟩

/-! ## Bases of one type -/

/-- The symbol with a list of bases added, in a table that knows the kinds of types. -/
def TypeSymbol.withBases (t : SymbolTable) (s : TypeSymbol) (b : BoundBases) : TypeSymbol :=
  { s with
    base? := (b.base? t).or s.base?
    interfaces := appendMissing s.interfaces (b.interfaces t) }

section
variable {t t' : SymbolTable} {id : TypeId}

theorem TypeSymbol.withBases_congr (h : ∀ id, t'.kind? id = t.kind? id) :
    TypeSymbol.withBases t' = TypeSymbol.withBases t := by
  funext s b
  have hbase : b.base? t' = b.base? t := b.base?_congr fun id _ => h id
  simp only [TypeSymbol.withBases, BoundBases.interfaces, hbase]

theorem SymbolTable.kind?_contribute (t : SymbolTable) (b : BoundBases) (id : TypeId) :
    (t.contribute b).kind? id = t.kind? id := by
  rw [kind?, kind?, SymbolTable.contribute, get?_modify, Option.map_map]
  refine congrArg (Option.map · _) (funext fun s => ?_)
  dsimp only [Function.comp]
  split <;> rfl

theorem SymbolTable.kind?_contributions (t : SymbolTable) (bs : List BoundBases) (id : TypeId) :
    (bs.foldl SymbolTable.contribute t).kind? id = t.kind? id := by
  induction bs generalizing t with
  | nil => rfl
  | cons b bs ih => rw [List.foldl_cons, ih, kind?_contribute]

/-- **The bases of a type are those of its own lists**, one list after the other. -/
theorem SymbolTable.get?_contributions (t : SymbolTable) (bs : List BoundBases) (id : TypeId) :
    (bs.foldl SymbolTable.contribute t).get? id =
      (t.get? id).map ((bs.filter (·.type = id)).foldl (TypeSymbol.withBases t)) := by
  induction bs generalizing t with
  | nil => exact Option.map_id'.symm ▸ rfl
  | cons b bs ih =>
    rw [List.foldl_cons, ih, SymbolTable.contribute, get?_modify, Option.map_map,
      ← SymbolTable.contribute, TypeSymbol.withBases_congr (t.kind?_contribute b), List.filter_cons]
    refine congrArg (Option.map · _) (funext fun s => ?_)
    by_cases hb : b.type = id
    · simp only [Function.comp_apply, hb, decide_true, if_true, List.foldl_cons]
      rfl
    · simp only [Function.comp_apply, hb, decide_false, if_false, Ne.symm hb]
      rfl

/-- Adding bases changes nothing else. -/
theorem TypeSymbol.withBases_eq (t : SymbolTable) (s : TypeSymbol) (bs : List BoundBases) :
    let u := bs.foldl (TypeSymbol.withBases t) s
    u = { s with base? := u.base?, interfaces := u.interfaces } := by
  induction bs generalizing s with
  | nil => rfl
  | cons b bs ih => exact ih _

end

namespace Compilation

variable (c : Compilation)

/-- The table in which the bases of the compilation are looked up. -/
def globals : GlobalUsings :=
  .of c.declaring.1 c.globalUsings

/-- The lists of bases that are written in the sources. -/
def sourcePending : List PendingBases :=
  c.sourceFound.flatMap fun f => f.2.pending

/-- The lists of bases that the sources give a type, looked up. -/
def sourceLists (id : TypeId) : List BoundBases :=
  (c.sourcePending.filter (·.type = id)).map (·.bind c.globals)

/-- The symbol of a type behind the sources has become the symbol `u` of the compilation by the
    sources alone: by what their lists of bases add. -/
structure IsOwn (id : TypeId) (s u : TypeSymbol) : Prop where
  sites : ∀ site ∈ u.declarations, ∃ tree, c.sources[site.tree]? = some tree ∧
    site.key.tree = tree.id
  parts : u = { s with base? := u.base?, interfaces := u.interfaces }
  bases : u = (c.sourceLists id).foldl (TypeSymbol.withBases c.table) s

variable {c} {id : TypeId} {s : TypeSymbol}

theorem pending_filter_eq (h : ∀ f ∈ (declareTrees c.sourceTable c.sources.length
      ((c.references.flatMap Reference.trees).map (·, Origin.metadata))).2,
      ∀ p ∈ f.2.pending, p.type ≠ id) :
    c.pending.filter (·.type = id) = c.sourcePending.filter (·.type = id) := by
  rw [pending, declaring_eq, List.flatMap_append, List.filter_append]
  refine (congrArg (_ ++ ·) (List.filter_eq_nil_iff.2 fun p hp => ?_)).trans (List.append_nil _)
  obtain ⟨f, hf, hp⟩ := List.mem_flatMap.1 hp
  simpa using h f hf p hp

/-- **A type of the sources hides what references declare under its name**, if no declaration
    there can become a part of it: its symbol is what the sources alone make of it. -/
theorem hides_references (hs : c.sourceTable.get? id = some s)
    (hrefs : ∀ r ∈ c.references, ∀ tree ∈ r.trees, c.sourceTable.BarsAll id s tree.lineages) :
    ∃ u, c.table.get? id = some u ∧ c.IsOwn id s u := by
  have hstart : Declaring.Keeps c.sourceTable id s ⟨c.sourceTable, .empty⟩ :=
    ⟨fun j x hx => ⟨x, hx, rfl, rfl⟩, hs, List.forall_mem_nil _⟩
  have hbars : ∀ tree ∈ c.references.flatMap Reference.trees,
      c.sourceTable.BarsAll id s tree.lineages := fun tree ht =>
    have ⟨r, hr, ht⟩ := List.mem_flatMap.1 ht
    hrefs r hr tree ht
  obtain ⟨hget, hpending⟩ :
      (declareTrees c.sourceTable c.sources.length
        ((c.references.flatMap Reference.trees).map (·, Origin.metadata))).1.get? id = some s ∧ _ :=
    declareTrees_keeps c.sources.length hstart c.sourceTable_root hbars
  have hglobals (j : TypeId) : c.globals.table.get? j = c.declaring.1.get? j :=
    (GlobalUsings.sameTypes_of _ _).get?_eq j
  have hkinds (j : TypeId) : c.table.kind? j = c.globals.table.kind? j := by
    rw [table_eq]
    exact SymbolTable.kind?_contributions _ _ _
  have htable : c.table.get? id = some ((c.sourceLists id).foldl (TypeSymbol.withBases c.table) s) := by
    rw [TypeSymbol.withBases_congr hkinds, table_eq]
    refine (SymbolTable.get?_contributions _ _ _).trans ?_
    rw [← globals, hglobals, declaring_eq, hget, Option.map_some, List.filter_map]
    exact congrArg (fun ps => some (List.foldl _ s (List.map _ ps))) (pending_filter_eq hpending)
  refine ⟨_, htable, fun site hsite => ?_, TypeSymbol.withBases_eq .., rfl⟩
  rw [TypeSymbol.withBases_eq] at hsite
  have hsites : c.sourceTable.SitesIn c.sources :=
    SymbolTable.induction_of_steps c.sourceTable_steps (List.forall_mem_nil _) fun _ _ h => h.sitesIn
  exact hsites _ (SymbolTable.mem_of_get? hs) site hsite

/-- The reference declares the type of the source as well, but not `partial`; so neither its
    base nor its nested type is taken up, although the nested type is partial. -/
theorem hides_references_demo :
    let c := Compilation.of
      [.parse 0 "A.cs" "public partial class A : B \x7b partial class N \x7b \x7d \x7d"]
      [⟨"Lib", [.parse 1 "Lib.cs" ("public class A : C \x7b public partial class N \x7b \x7d " ++
        "class M \x7b \x7d \x7d public class B \x7b \x7d public class C \x7b \x7d")]⟩] .empty
    ∃ s u, c.sourceTable.get? (.ofName "A") = some s ∧ c.table.get? (.ofName "A") = some u ∧
      c.IsOwn (.ofName "A") s u ∧ u.base? = some (.named (.ofName "B")) := by
  intro c
  obtain ⟨s, hs⟩ : ∃ s, c.sourceTable.get? (.ofName "A") = some s :=
    Option.isSome_iff_exists.1 (by decide +kernel)
  have hbars : ∀ s ∈ c.sourceTable.get? (.ofName "A"), ∀ r ∈ c.references, ∀ tree ∈ r.trees,
      c.sourceTable.BarsAll (.ofName "A") s tree.lineages := by decide +kernel
  obtain ⟨u, hu, hown⟩ := hides_references hs (hbars s hs)
  refine ⟨s, u, hs, hu, hown, ?_⟩
  have hbase : ∀ u ∈ c.table.get? (.ofName "A"), u.base? = some (.named (.ofName "B")) := by
    decide +kernel
  exact hbase u hu

end Compilation

end CommandModules

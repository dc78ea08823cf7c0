/-
  Command modules — trees that are written with the same tokens are declared alike.

  * `Declaring.Respells`: the tables of two runs, and what the runs have found, differ in
    places only; a relation between the keys of declarations tells which are the same;
  * `declareType_respells`, `declareAll_respells`: two trees that are written with the same
    tokens are gone through with the same outcome at each step;
  * `declareTrees_respells`: so are lists of such trees.
-/
import CommandModules.Compilation.Basic
import CommandModules.Proofs.Compilation.Steps
import CommandModules.Proofs.Respelled.Unit
import CommandModules.Proofs.Symbol.Bare

namespace CommandModules

open SymbolTable (Respells)

/-! ## What is found -/

/-- The directives differ in places only, and stand in the same namespace. -/
structure UsingBlock.Respells (b b' : UsingBlock) : Prop where
  namespace_ : b.namespace_ = b'.namespace_
  usings : erase b.usings = erase b'.usings

/-- The lists are written with the same tokens, and belong to the same type at the same
    place. -/
structure PendingBases.Respells (p p' : PendingBases) : Prop where
  type : p.type = p'.type
  kind : p.declaration.kind = p'.declaration.kind
  bases : List.Forall₂ TypeSyntax.Respells p.declaration.bases p'.declaration.bases
  namespace_ : p.namespace_ = p'.namespace_
  containing : p.containing? = p'.containing?
  usings : List.Forall₂ UsingBlock.Respells p.usings p'.usings

/-- The same declarations were accepted, of the same types, and the same was put aside. -/
structure TreeDeclarations.Respells (P : NodeKey → NodeKey → Prop) (f f' : TreeDeclarations) : Prop where
  accepted : List.Forall₂ (fun a a' => P a.1 a'.1 ∧ a.2 = a'.2) f.accepted f'.accepted
  pending : List.Forall₂ PendingBases.Respells f.pending f'.pending
  globalUsings : erase f.globalUsings = erase f'.globalUsings

/-- The tables and what was found differ in places only. -/
structure Declaring.Respells (P : NodeKey → NodeKey → Prop) (s s' : Declaring) : Prop where
  table : s.table.Respells s'.table
  found : s.found.Respells P s'.found

/-- The places are the same in two trees that are written with the same tokens. -/
structure Surroundings.Respells (w w' : Surroundings) : Prop where
  origin : w.origin = w'.origin
  namespace_ : w.namespace_ = w'.namespace_
  usings : List.Forall₂ UsingBlock.Respells w.usings w'.usings

theorem erase_filter {α : Type} [Erase α] {p : α → Bool} (hp : ∀ a, p (erase a) = p a) (as : List α) :
    erase (as.filter p) = (erase as).filter p := by
  rw [show erase as = as.map erase from rfl, List.filter_map, funext hp (f := p ∘ erase)]
  rfl

/-! ## Steps -/

section
variable {P : NodeKey → NodeKey → Prop} {s s' : Declaring} {w w' : Surroundings}

theorem Surroundings.Respells.withUsings (h : w.Respells w') {us us' : List Using}
    (hus : erase us = erase us') : (w.withUsings us).Respells (w'.withUsings us') := by
  have hempty : us.isEmpty = us'.isEmpty := by rw [← isEmpty_erase, hus, isEmpty_erase]
  rw [Surroundings.withUsings, Surroundings.withUsings, hempty]
  split
  · exact h
  · exact ⟨h.origin, h.namespace_, .cons ⟨h.namespace_, hus⟩ h.usings⟩

theorem tree_withUsings (w : Surroundings) (us : List Using) : (w.withUsings us).tree = w.tree := by
  unfold Surroundings.withUsings
  split <;> rfl

namespace Declaring.Respells

theorem noteUsings (h : s.Respells P s') {us us' : List Using} (hus : erase us = erase us') :
    (s.noteUsings us).Respells P (s'.noteUsings us') := by
  refine ⟨h.table, h.found.accepted, h.found.pending, ?_⟩
  rw [Declaring.noteUsings, Declaring.noteUsings]
  rw [erase_append, erase_append, erase_filter fun _ => rfl, erase_filter fun _ => rfl,
    h.found.globalUsings, hus]

theorem enterNamespace (h : s.Respells P s') (n : Nat) (path : List String) :
    (s.enterNamespace n path).1.Respells P (s'.enterNamespace n path).1 ∧
      (s.enterNamespace n path).2 = (s'.enterNamespace n path).2 := by
  have hspaces := SymbolTable.namespaces_eq_of_bare h.table.bare_eq
  obtain ⟨-, htypes, horder⟩ := SymbolTable.mk.inj h.table.bare_eq
  refine ⟨⟨⟨?_, h.table.bases⟩, h.found⟩, ?_⟩
  · simp only [Declaring.enterNamespace, SymbolTable.bare, hspaces, htypes, horder]
  · simp only [Declaring.enterNamespace, hspaces]

/-- The same declarations are accepted. -/
theorem declare (h : s.Respells P s') (hw : w.Respells w') {d e : NewType} (hd : d.bare = e.bare)
    (hP : P d.site.key e.site.key) :
    (s.declare w d).1 = (s'.declare w' e).1 ∧ (s.declare w d).2.Respells P (s'.declare w' e).2 := by
  obtain ⟨id, t, t', ht, ht', htable⟩ | ⟨x, y, hx, hy⟩ := h.table.declare hd
  · simp only [Declaring.declare, ht, ht']
    exact ⟨trivial, htable, List.rel_append h.found.accepted (.cons ⟨hP, rfl⟩ .nil), h.found.pending,
      h.found.globalUsings⟩
  · simp only [Declaring.declare, hx, hy, hw.origin]
    split
    · exact ⟨rfl, h.table, h.found.accepted, h.found.pending, h.found.globalUsings⟩
    · exact ⟨rfl, h⟩

/-- The same lists of bases are put aside. -/
theorem putAside (h : s.Respells P s') (hw : w.Respells w') (outer? : Option TypeId) (id : TypeId)
    {t u : TypeDeclaration} (hkind : t.kind = u.kind)
    (hbases : List.Forall₂ TypeSyntax.Respells t.bases u.bases) :
    (s.putAside w outer? id t).Respells P (s'.putAside w' outer? id u) := by
  have hempty : t.bases.isEmpty = u.bases.isEmpty := by
    rw [Bool.eq_iff_iff, List.isEmpty_iff_length_eq_zero, List.isEmpty_iff_length_eq_zero,
      hbases.length_eq]
  rw [Declaring.putAside, Declaring.putAside, hempty]
  split
  · exact h
  · refine ⟨h.table, h.found.accepted, List.rel_append h.found.pending (.cons ?_ .nil),
      h.found.globalUsings⟩
    exact ⟨rfl, hkind, hbases, hw.namespace_, rfl, hw.usings⟩

end Declaring.Respells

/-! ## Types -/

/-- The relation holds of the keys of declarations that stand at the same place. -/
def KeysRelated (P : NodeKey → NodeKey → Prop) (w w' : Surroundings) (ds es : List Declaration) : Prop :=
  ∀ p ∈ ds.zip es, P (w.tree.key p.1.span) (w'.tree.key p.2.span)

theorem keysRelated_append {ds es fs gs : List Declaration} (h : ds.length = es.length) :
    KeysRelated P w w' (ds ++ fs) (es ++ gs) ↔ KeysRelated P w w' ds es ∧ KeysRelated P w w' fs gs := by
  rw [KeysRelated, List.zip_append h, List.forall_mem_append]
  rfl

theorem keysRelated_cons {d e : Declaration} {ds es : List Declaration} :
    KeysRelated P w w' (d :: ds) (e :: es) ↔
      P (w.tree.key d.span) (w'.tree.key e.span) ∧ KeysRelated P w w' ds es := by
  rw [KeysRelated, List.zip_cons_cons, List.forall_mem_cons]
  rfl

theorem value_eq_of_erase {i j : Ident} (h : erase i = erase j) : i.value = j.value := by
  rw [← value_erase, h, value_erase]

/-- Declarations that differ in places have the same modifiers, kind, name and type
    parameters, up to places. -/
theorem TypeDeclaration.head_of_erase {t u : TypeDeclaration} (h : Erase.erase t = Erase.erase u) :
    Erase.erase t.modifiers = Erase.erase u.modifiers ∧ t.kind = u.kind ∧
      Erase.erase t.name = Erase.erase u.name ∧
      Erase.erase t.typeParameters = Erase.erase u.typeParameters := by
  cases t
  cases u
  simp only [erase_typeDeclaration, TypeDeclaration.mk.injEq] at h
  exact ⟨h.2.1, h.2.2.1, h.2.2.2.1, h.2.2.2.2.1⟩

theorem ofType_bare (hw : w.Respells w') (outer? : Option TypeId) {t u : TypeDeclaration}
    (h : erase t = erase u) : (w.ofType outer? t).bare = (w'.ofType outer? u).bare := by
  obtain ⟨hmodifiers, hkind, hname, hparameters⟩ := t.head_of_erase h
  have harity := congrArg List.length hparameters
  rw [length_erase, length_erase] at harity
  simp only [Surroundings.ofType, Surroundings.newType, NewType.bare, TypeDeclaration.arity, harity,
    hkind, hw.namespace_, hw.origin, value_eq_of_erase hname, (WrittenModifiers.mk.inj hmodifiers).1]

theorem ofDelegate_bare (hw : w.Respells w') (outer? : Option TypeId) {d e : Delegate}
    (h : erase d = erase e) : (w.ofDelegate outer? d).bare = (w'.ofDelegate outer? e).bare := by
  obtain ⟨-, hmodifiers, -, hname, hparameters, -⟩ := Delegate.mk.inj h
  have harity := congrArg List.length hparameters
  rw [length_erase, length_erase] at harity
  simp only [Surroundings.ofDelegate, Surroundings.newType, NewType.bare, harity, hw.namespace_,
    hw.origin, value_eq_of_erase hname, (WrittenModifiers.mk.inj hmodifiers).1]

/-- A member in which nothing is declared changes nothing. -/
theorem declareMember_leaf (w : Surroundings) (outer : TypeId) (s : Declaring) {m : Member}
    (hm : m.IsLeaf) : declareMember w outer s m = s := by
  cases m with
  | type t => exact absurd rfl (hm.not_type t)
  | delegate d => exact absurd rfl (hm.not_delegate d)
  | _ => rfl

variable (hw : w.Respells w')
include hw

theorem declareDelegate_respells (h : s.Respells P s') (outer? : Option TypeId) {d e : Delegate}
    (hd : erase d = erase e) (hP : KeysRelated P w w' [.delegate d] [.delegate e]) :
    (s.declare w (w.ofDelegate outer? d)).2.Respells P (s'.declare w' (w'.ofDelegate outer? e)).2 :=
  (h.declare hw (ofDelegate_bare hw outer? hd) (keysRelated_cons.1 hP).1).2

/-- A type, if its members are declared with the same outcome. -/
theorem declareType_respells_of_members (h : s.Respells P s') (outer? : Option TypeId)
    {t u : TypeDeclaration} (he : erase t = erase u)
    (hbases : List.Forall₂ TypeSyntax.Respells t.bases u.bases)
    (hP : P (w.tree.key t.span) (w'.tree.key u.span))
    (hmembers : ∀ {s s' : Declaring} (id : TypeId), s.Respells P s' →
      (declareMembers w id s t.members).Respells P (declareMembers w' id s' u.members)) :
    (declareType w outer? s t).Respells P (declareType w' outer? s' u) := by
  obtain ⟨hid, hs⟩ := h.declare hw (ofType_bare hw outer? he) hP
  rw [declareType_eq, declareType_eq]
  revert hid hs
  rcases s.declare w (w.ofType outer? t) with ⟨_ | i, v⟩ <;>
    rcases s'.declare w' (w'.ofType outer? u) with ⟨_ | i', v'⟩ <;> rintro ⟨⟩ hs
  · exact hs
  · exact hmembers i (hs.putAside hw outer? i (t.head_of_erase he).2.1 hbases)

end

mutual

/-- **Types that are written with the same tokens** are declared with the same outcome. -/
theorem declareType_respells {P : NodeKey → NodeKey → Prop} {s s' : Declaring} (h : s.Respells P s')
    {w w' : Surroundings} (hw : w.Respells w') (outer? : Option TypeId) {t u : TypeDeclaration} :
    t.Respells u → KeysRelated P w w' t.declared u.declared →
      (declareType w outer? s t).Respells P (declareType w' outer? s' u)
  | .intro he hbases hmembers, hP => by
    rw [TypeDeclaration.declared_eq, TypeDeclaration.declared_eq, keysRelated_cons] at hP
    exact declareType_respells_of_members hw h outer? he hbases hP.1 fun id hs =>
      declareMembers_respells hs hw id hmembers hP.2

theorem declareMember_respells {P : NodeKey → NodeKey → Prop} {s s' : Declaring} (h : s.Respells P s')
    {w w' : Surroundings} (hw : w.Respells w') (outer : TypeId) {m n : Member} :
    m.Respells n → KeysRelated P w w' m.declared n.declared →
      (declareMember w outer s m).Respells P (declareMember w' outer s' n)
  | .type ht, hP => declareType_respells h hw (some outer) ht hP
  | .method _, _ => h
  | .delegate hd, hP => declareDelegate_respells hw h (some outer) hd hP
  | .leaf hm hn, _ => by
    rw [declareMember_leaf w outer s hm, declareMember_leaf w' outer s' hn]
    exact h

theorem declareMembers_respells {P : NodeKey → NodeKey → Prop} {s s' : Declaring} (h : s.Respells P s')
    {w w' : Surroundings} (hw : w.Respells w') (outer : TypeId) {ms ns : List Member} :
    Member.AllRespell ms ns → KeysRelated P w w' (Member.allDeclared ms) (Member.allDeclared ns) →
      (declareMembers w outer s ms).Respells P (declareMembers w' outer s' ns)
  | .nil, _ => h
  | .cons hm hms, hP =>
    have hP := (keysRelated_append hm.declared.length_eq).1 hP
    declareMembers_respells (declareMember_respells h hw outer hm hP.1) hw outer hms hP.2

end

/-! ## Trees -/

mutual

/-- **Declarations that are written with the same tokens** are declared with the same
    outcome. -/
theorem declareOne_respells {P : NodeKey → NodeKey → Prop} {s s' : Declaring} (h : s.Respells P s')
    {w w' : Surroundings} (hw : w.Respells w') {d e : Declaration} : d.Respells e →
      KeysRelated P w w' d.declared e.declared →
        (declareOne w s d).Respells P (declareOne w' s' e)
  | .namespace_ (n := n) (m := m) hname husings hmembers, hP => by
    rw [declareOne, declareOne, declareNamespace_eq, declareNamespace_eq]
    have hpath : n.name.path = m.name.path := by rw [← path_erase, hname, path_erase]
    obtain ⟨hs, hinner⟩ := h.enterNamespace w.namespace_ n.name.path
    have hP : KeysRelated P w w' n.declared m.declared := hP
    rw [NamespaceDeclaration.declared_eq, NamespaceDeclaration.declared_eq] at hP
    rw [← hpath, ← hw.namespace_, ← hinner]
    refine declareAll_respells (hs.noteUsings husings) (Surroundings.Respells.withUsings ?_ husings)
      hmembers ?_
    · exact ⟨hw.origin, rfl, hw.usings⟩
    · rwa [KeysRelated, tree_withUsings, tree_withUsings]
  | .type ht, hP => declareType_respells h hw none ht hP
  | .delegate hd, hP => declareDelegate_respells hw h none hd hP

theorem declareAll_respells {P : NodeKey → NodeKey → Prop} {s s' : Declaring} (h : s.Respells P s')
    {w w' : Surroundings} (hw : w.Respells w') {ds es : List Declaration} :
      Declaration.AllRespell ds es →
        KeysRelated P w w' (Declaration.allDeclared ds) (Declaration.allDeclared es) →
          (declareAll w s ds).Respells P (declareAll w' s' es)
  | .nil, _ => h
  | .cons hd hds, hP =>
    have hP := (keysRelated_append hd.declared.length_eq).1 hP
    declareAll_respells (declareOne_respells h hw hd hP.1) hw hds hP.2

end

/-- The keys are those of declarations that stand at the same place in the trees. -/
def SyntaxTree.SameKeys (t u : SyntaxTree) (k k' : NodeKey) : Prop :=
  ∃ p ∈ t.root.declared.zip u.root.declared, k = t.key p.1.span ∧ k' = u.key p.2.span

/-- **Trees that are written with the same tokens** are declared with the same outcome. -/
theorem declareTree_respells {table table' : SymbolTable} (h : table.Respells table')
    {t u : SyntaxTree} (hr : t.root.Respells u.root) (n n' : Nat) (origin : Origin)
    {P : NodeKey → NodeKey → Prop} (hP : ∀ k k', t.SameKeys u k k' → P k k') :
    (declareTree table n t origin).1.Respells (declareTree table' n' u origin).1 ∧
      (declareTree table n t origin).2.Respells P (declareTree table' n' u origin).2 := by
  have hstart : Declaring.Respells P (.mk table .empty) (.mk table' .empty) := ⟨h, .nil, .nil, rfl⟩
  have houtside : Surroundings.Respells ⟨n, t, origin, Namespaces.root, []⟩
      ⟨n', u, origin, Namespaces.root, []⟩ := ⟨rfl, rfl, .nil⟩
  have hs := declareAll_respells (hstart.noteUsings hr.usings) (houtside.withUsings hr.usings)
    hr.members (by
      rw [KeysRelated, tree_withUsings, tree_withUsings]
      exact fun p hp => hP _ _ ⟨p, hp, rfl, rfl⟩)
  exact ⟨hs.table, hs.found⟩

/-- So are lists of such trees. -/
theorem declareTrees_respells {P : NodeKey → NodeKey → Prop} {ts us : List (SyntaxTree × Origin)}
    (hts : List.Forall₂ (fun t u => t.2 = u.2 ∧ t.1.root.Respells u.1.root ∧
      ∀ k k', t.1.SameKeys u.1 k k' → P k k') ts us)
    {table table' : SymbolTable} (h : table.Respells table') (n n' : Nat) :
    (declareTrees table n ts).1.Respells (declareTrees table' n' us).1 ∧
      List.Forall₂ (fun f f' => f.1 = f'.1 ∧ f.2.Respells P f'.2) (declareTrees table n ts).2
        (declareTrees table' n' us).2 := by
  induction hts generalizing table table' n n' with
  | nil => exact ⟨h, .nil⟩
  | @cons t u ts us htu _ ih =>
    obtain ⟨t, origin⟩ := t
    obtain ⟨u, origin'⟩ := u
    obtain ⟨rfl, hr, hP⟩ : origin = origin' ∧ _ := htu
    obtain ⟨htable, hfound⟩ := declareTree_respells h hr n n' origin hP
    obtain ⟨htables, hfounds⟩ := ih htable (n + 1) (n' + 1)
    exact ⟨htables, .cons ⟨rfl, hfound⟩ hfounds⟩

end CommandModules

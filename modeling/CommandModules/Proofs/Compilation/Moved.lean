/-
  Command modules — syntax in another place is declared alike.

  * `Declaring.Restates`: the tables of two runs, and what the runs have found, are the same but
    for the places of declarations; unlike `Declaring.Respells` it keeps the texts of bases and
    the diagnostics;
  * `declareAll_moved`: declarations in another place are declared with the same outcome.
-/
import CommandModules.Proofs.Compilation.Rebound
import CommandModules.Proofs.Joined.Shift

namespace CommandModules

/-! ## What is found, places aside -/

/-- The diagnostic without its place in the file. -/
def Diagnostic.unplaced (d : Diagnostic) : Diagnostic :=
  { d with location? := d.location?.map fun l => { l with span := default } }

/-- What is written where a type is named: its form, and its text. -/
def TypeSyntax.wording (t : TypeSyntax) : TypeSyntax × String :=
  (Erase.erase t, t.text)

theorem wording_shift (d : Distance) (t : TypeSyntax) : (shift d t).wording = t.wording := by
  cases t
  rw [TypeSyntax.wording, TypeSyntax.erase_shift, shift_typeSyntax, TypeSyntax.wording]

/-- The lists are the same but for their places. -/
structure PendingBases.Restates (p p' : PendingBases) : Prop where
  path : p.path = p'.path
  type : p.type = p'.type
  kind : p.declaration.kind = p'.declaration.kind
  bases : p.declaration.bases.map TypeSyntax.wording = p'.declaration.bases.map TypeSyntax.wording
  namespace_ : p.namespace_ = p'.namespace_
  containing : p.containing? = p'.containing?
  usings : List.Forall₂ UsingBlock.Respells p.usings p'.usings

/-- What was found is the same but for places. -/
structure TreeDeclarations.Restates (f f' : TreeDeclarations) : Prop where
  accepted : f.accepted.map Prod.snd = f'.accepted.map Prod.snd
  pending : List.Forall₂ PendingBases.Restates f.pending f'.pending
  globalUsings : erase f.globalUsings = erase f'.globalUsings
  diagnostics : f.diagnostics.map Diagnostic.unplaced = f'.diagnostics.map Diagnostic.unplaced

/-- The tables, and what was found, are the same but for places. -/
structure Declaring.Restates (s s' : Declaring) : Prop where
  table : s.table.bare = s'.table.bare
  found : s.found.Restates s'.found

/-- The surroundings are the same but for places, in files of the same path. -/
structure Surroundings.Restates (w w' : Surroundings) : Prop where
  respells : w.Respells w'
  path : w.tree.path = w'.tree.path

/-! ## Like an equality -/

theorem UsingBlock.Respells.refl (b : UsingBlock) : b.Respells b :=
  ⟨rfl, rfl⟩

theorem UsingBlock.Respells.symm {b b' : UsingBlock} (h : b.Respells b') : b'.Respells b :=
  ⟨h.namespace_.symm, h.usings.symm⟩

theorem UsingBlock.Respells.trans {b b' b'' : UsingBlock} (h : b.Respells b')
    (h' : b'.Respells b'') : b.Respells b'' :=
  ⟨h.namespace_.trans h'.namespace_, h.usings.trans h'.usings⟩

section
variable {α : Type} {R : α → α → Prop} {as bs cs : List α}

theorem forall₂_symm (hR : ∀ {a b}, R a b → R b a) (h : List.Forall₂ R as bs) :
    List.Forall₂ R bs as :=
  (h.imp fun _ _ hab => hR hab : List.Forall₂ (flip R) as bs).flip

theorem forall₂_trans (hR : ∀ {a b c}, R a b → R b c → R a c) (h : List.Forall₂ R as bs)
    (h' : List.Forall₂ R bs cs) : List.Forall₂ R as cs := by
  induction h generalizing cs with
  | nil => exact h'
  | cons hab _ ih =>
    cases h' with
    | cons hbc h' => exact .cons (hR hab hbc) (ih h')

end

namespace PendingBases.Restates

variable {p p' p'' : PendingBases}

theorem refl (p : PendingBases) : p.Restates p :=
  ⟨rfl, rfl, rfl, rfl, rfl, rfl, List.forall₂_same.2 fun b _ => .refl b⟩

theorem symm (h : p.Restates p') : p'.Restates p :=
  ⟨h.path.symm, h.type.symm, h.kind.symm, h.bases.symm, h.namespace_.symm, h.containing.symm,
    forall₂_symm UsingBlock.Respells.symm h.usings⟩

theorem trans (h : p.Restates p') (h' : p'.Restates p'') : p.Restates p'' :=
  ⟨h.path.trans h'.path, h.type.trans h'.type, h.kind.trans h'.kind, h.bases.trans h'.bases,
    h.namespace_.trans h'.namespace_, h.containing.trans h'.containing,
    forall₂_trans UsingBlock.Respells.trans h.usings h'.usings⟩

end PendingBases.Restates

namespace TreeDeclarations.Restates

variable {f f' f'' : TreeDeclarations}

theorem refl (f : TreeDeclarations) : f.Restates f :=
  ⟨rfl, List.forall₂_same.2 fun p _ => .refl p, rfl, rfl⟩

theorem symm (h : f.Restates f') : f'.Restates f :=
  ⟨h.accepted.symm, forall₂_symm PendingBases.Restates.symm h.pending, h.globalUsings.symm,
    h.diagnostics.symm⟩

theorem trans (h : f.Restates f') (h' : f'.Restates f'') : f.Restates f'' :=
  ⟨h.accepted.trans h'.accepted, forall₂_trans PendingBases.Restates.trans h.pending h'.pending,
    h.globalUsings.trans h'.globalUsings, h.diagnostics.trans h'.diagnostics⟩

end TreeDeclarations.Restates

section
variable {s s' s'' : Declaring} {w w' : Surroundings}

theorem Surroundings.Restates.refl (w : Surroundings) : w.Restates w :=
  ⟨⟨rfl, rfl, List.forall₂_same.2 fun b _ => .refl b⟩, rfl⟩

namespace Declaring.Restates

theorem refl (s : Declaring) : s.Restates s :=
  ⟨rfl, .refl _⟩

theorem symm (h : s.Restates s') : s'.Restates s :=
  ⟨h.table.symm, h.found.symm⟩

theorem trans (h : s.Restates s') (h' : s'.Restates s'') : s.Restates s'' :=
  ⟨h.table.trans h'.table, h.found.trans h'.found⟩

end Declaring.Restates

/-! ## Steps -/

theorem Surroundings.Restates.withUsings (h : w.Restates w') {us us' : List Using}
    (hus : erase us = erase us') : (w.withUsings us).Restates (w'.withUsings us') :=
  ⟨h.respells.withUsings hus, by rw [tree_withUsings, tree_withUsings, h.path]⟩

namespace Declaring.Restates

theorem noteUsings (h : s.Restates s') {us us' : List Using} (hus : erase us = erase us') :
    (s.noteUsings us).Restates (s'.noteUsings us') := by
  refine ⟨h.table, h.found.accepted, h.found.pending, ?_, h.found.diagnostics⟩
  rw [Declaring.noteUsings, Declaring.noteUsings]
  rw [erase_append, erase_append, erase_filter fun _ => rfl, erase_filter fun _ => rfl,
    h.found.globalUsings, hus]

theorem enterNamespace (h : s.Restates s') (n : Nat) (path : List String) :
    (s.enterNamespace n path).1.Restates (s'.enterNamespace n path).1 ∧
      (s.enterNamespace n path).2 = (s'.enterNamespace n path).2 := by
  have hspaces := SymbolTable.namespaces_eq_of_bare h.table
  obtain ⟨-, htypes, horder⟩ := SymbolTable.mk.inj h.table
  refine ⟨⟨?_, h.found⟩, ?_⟩
  · simp only [Declaring.enterNamespace, SymbolTable.bare, hspaces, htypes, horder]
  · simp only [Declaring.enterNamespace, hspaces]

/-- The same declarations are accepted, and the others refused with the same message. -/
theorem declare (h : s.Restates s') (hw : w.Restates w') {d e : NewType} (hd : d.bare = e.bare) :
    (s.declare w d).1 = (s'.declare w' e).1 ∧ (s.declare w d).2.Restates (s'.declare w' e).2 := by
  obtain ⟨id, t, t', ht, ht', htable⟩ | ⟨x, y, hx, hy, hm⟩ := SymbolTable.declare_bare h.table hd
  · simp only [Declaring.declare, ht, ht']
    refine ⟨trivial, htable, ?_, h.found.pending, h.found.globalUsings, h.found.diagnostics⟩
    rw [List.map_append, List.map_append, h.found.accepted]
    rfl
  · simp only [Declaring.declare, hx, hy, hw.respells.origin]
    split
    · refine ⟨rfl, h.table, h.found.accepted, h.found.pending, h.found.globalUsings, ?_⟩
      rw [List.map_append, List.map_append, h.found.diagnostics, SymbolError.diagnostic,
        SymbolError.diagnostic, hm, hw.path]
      rfl
    · exact ⟨rfl, h⟩

/-- The same lists of bases are put aside. -/
theorem putAside (h : s.Restates s') (hw : w.Restates w') (outer? : Option TypeId) (id : TypeId)
    {t u : TypeDeclaration} (hkind : t.kind = u.kind)
    (hbases : t.bases.map TypeSyntax.wording = u.bases.map TypeSyntax.wording) :
    (s.putAside w outer? id t).Restates (s'.putAside w' outer? id u) := by
  have hempty : t.bases.isEmpty = u.bases.isEmpty := by
    rw [← List.isEmpty_map (f := TypeSyntax.wording), hbases, List.isEmpty_map]
  rw [Declaring.putAside, Declaring.putAside, hempty]
  split
  · exact h
  · refine ⟨h.table, h.found.accepted, List.rel_append h.found.pending (.cons ?_ .nil),
      h.found.globalUsings, h.found.diagnostics⟩
    exact ⟨hw.path, rfl, hkind, hbases, hw.respells.namespace_, rfl, hw.respells.usings⟩

end Declaring.Restates

end

/-! ## Types in another place -/

section
variable {s s' : Declaring} {w w' : Surroundings} (d : Distance)

theorem bases_shift (t : TypeDeclaration) :
    (shift d t).bases.map TypeSyntax.wording = t.bases.map TypeSyntax.wording := by
  obtain ⟨_, _, _, _, _, _, bases, _, _, _⟩ := t
  rw [shift_typeDeclaration]
  exact List.map_map.trans (List.map_congr_left fun b _ => wording_shift d b)

theorem kind_shift_type (t : TypeDeclaration) : (shift d t).kind = t.kind := by
  cases t
  rw [shift_typeDeclaration]

theorem members_shift (t : TypeDeclaration) : (shift d t).members = shift d t.members := by
  cases t
  rw [shift_typeDeclaration]

variable (hw : w.Restates w')
include hw

theorem ofType_shift (outer? : Option TypeId) (t : TypeDeclaration) :
    (w.ofType outer? t).bare = (w'.ofType outer? (shift d t)).bare := by
  cases t
  simp only [shift_typeDeclaration, Surroundings.ofType, Surroundings.newType, NewType.bare,
    TypeDeclaration.arity, length_shift, hw.respells.namespace_, hw.respells.origin]
  rfl

theorem ofDelegate_shift (outer? : Option TypeId) (x : Delegate) :
    (w.ofDelegate outer? x).bare = (w'.ofDelegate outer? (shift d x)).bare := by
  have harity : (shift d x).typeParameters.length = x.typeParameters.length := length_shift _
  simp only [Surroundings.ofDelegate, Surroundings.newType, NewType.bare, harity,
    hw.respells.namespace_, hw.respells.origin]
  rfl

/-- A type, if its members are declared with the same outcome. -/
theorem declareType_moved_of_members (h : s.Restates s') (outer? : Option TypeId)
    (t : TypeDeclaration)
    (hmembers : ∀ {s s' : Declaring} (id : TypeId), s.Restates s' →
      (declareMembers w id s t.members).Restates (declareMembers w' id s' (shift d t.members))) :
    (declareType w outer? s t).Restates (declareType w' outer? s' (shift d t)) := by
  obtain ⟨hid, hs⟩ := h.declare hw (ofType_shift d hw outer? t)
  rw [declareType_eq, declareType_eq, members_shift]
  revert hid hs
  rcases s.declare w (w.ofType outer? t) with ⟨_ | i, v⟩ <;>
    rcases s'.declare w' (w'.ofType outer? (shift d t)) with ⟨_ | i', v'⟩ <;> rintro ⟨⟩ hs
  · exact hs
  · exact hmembers i (hs.putAside hw outer? i (kind_shift_type d t).symm (bases_shift d t).symm)

end

mutual

/-- **A type in another place** is declared with the same outcome. -/
theorem declareType_moved (d : Distance) {s s' : Declaring} (h : s.Restates s')
    {w w' : Surroundings} (hw : w.Restates w') (outer? : Option TypeId) : (t : TypeDeclaration) →
      (declareType w outer? s t).Restates (declareType w' outer? s' (shift d t))
  | ⟨_, _, _, _, _, _, _, _, members, _⟩ =>
    declareType_moved_of_members d hw h outer? _ fun id hs =>
      declareMembers_moved d hs hw id members

theorem declareMember_moved (d : Distance) {s s' : Declaring} (h : s.Restates s')
    {w w' : Surroundings} (hw : w.Restates w') (outer : TypeId) : (m : Member) →
      (declareMember w outer s m).Restates (declareMember w' outer s' (shift d m))
  | .type t => by
    rw [shift_memberType]
    exact declareType_moved d h hw (some outer) t
  | .delegate x => by
    rw [shift_memberDelegate]
    exact (h.declare hw (ofDelegate_shift d hw (some outer) x)).2
  | .method _ => by rw [shift_memberMethod]; exact h
  | .constructor _ => by rw [shift_memberConstructor]; exact h
  | .field _ => by rw [shift_memberField]; exact h
  | .property _ => by rw [shift_memberProperty]; exact h
  | .event _ => by rw [shift_memberEvent]; exact h
  | .enumMember _ => by rw [shift_memberEnumMember]; exact h
  | .special _ => by rw [shift_memberSpecial]; exact h

theorem declareMembers_moved (d : Distance) {s s' : Declaring} (h : s.Restates s')
    {w w' : Surroundings} (hw : w.Restates w') (outer : TypeId) : (ms : List Member) →
      (declareMembers w outer s ms).Restates (declareMembers w' outer s' (shift d ms))
  | [] => h
  | m :: ms => declareMembers_moved d (declareMember_moved d h hw outer m) hw outer ms

end

/-! ## Namespaces in another place -/

mutual

theorem declareNamespace_moved (d : Distance) {s s' : Declaring} (h : s.Restates s')
    {w w' : Surroundings} (hw : w.Restates w') : (n : NamespaceDeclaration) →
      (declareNamespace w s n).Restates (declareNamespace w' s' (shift d n))
  | ⟨name, _, us, members, _⟩ => by
    have hpath : (shift d name).path = name.path := by
      rw [← path_erase, name.erase_shift, path_erase]
    obtain ⟨hs, hinner⟩ := h.enterNamespace w.namespace_ name.path
    rw [shift_namespaceDeclaration, declareNamespace_eq, declareNamespace_eq]
    dsimp only
    rw [hpath, ← hw.respells.namespace_, ← hinner]
    refine declareAll_moved d (hs.noteUsings (erase_shift_usings d us).symm)
      (Surroundings.Restates.withUsings ?_ (erase_shift_usings d us).symm) members
    exact ⟨⟨hw.respells.origin, rfl, hw.respells.usings⟩, hw.path⟩

theorem declareOne_moved (d : Distance) {s s' : Declaring} (h : s.Restates s')
    {w w' : Surroundings} (hw : w.Restates w') : (x : Declaration) →
      (declareOne w s x).Restates (declareOne w' s' (shift d x))
  | .namespace_ n => by
    rw [shift_declarationNamespace]
    exact declareNamespace_moved d h hw n
  | .type t => by
    rw [shift_declarationType]
    exact declareType_moved d h hw none t
  | .delegate x => by
    rw [shift_declarationDelegate]
    exact (h.declare hw (ofDelegate_shift d hw none x)).2

/-- **Declarations in another place** are declared with the same outcome. -/
theorem declareAll_moved (d : Distance) {s s' : Declaring} (h : s.Restates s')
    {w w' : Surroundings} (hw : w.Restates w') : (xs : List Declaration) →
      (declareAll w s xs).Restates (declareAll w' s' (shift d xs))
  | [] => h
  | x :: xs => declareAll_moved d (declareOne_moved d h hw x) hw xs

end

end CommandModules

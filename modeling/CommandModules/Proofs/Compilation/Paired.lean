/-
  Command modules — one tree with two tables.

  A tree is declared twice, behind different trees.

  * `PendingBases.Agrees`: two lists of bases were written at the same place, whatever the
    numbers of the namespaces are;
  * `Declaring.Paired`: two runs have entered the same in their tables, and put the same bases
    aside;
  * `declareTree_paired`: so it is behind a source in which nothing is refused;
  * `declareTree_paired_of_describes`: so it is behind a tree of a reference, if both tables had
    the same entries before it.
-/
import CommandModules.Proofs.Compilation.Simulation
import CommandModules.Proofs.Symbol.Agree

namespace CommandModules

open Namespaces

/-! ## What is put aside -/

/-- The same using directives, in the same namespace. -/
structure UsingBlock.Agrees (s s' : Namespaces) (b b' : UsingBlock) : Prop where
  namespace_ : Same s s' b.namespace_ b'.namespace_
  usings : b'.usings = b.usings

/-- The same bases, written at the same place. -/
structure PendingBases.Agrees (s s' : Namespaces) (p p' : PendingBases) : Prop where
  type : p'.type = p.type
  declaration : p'.declaration = p.declaration
  namespace_ : Same s s' p.namespace_ p'.namespace_
  containing : p'.containing? = p.containing?
  usings : List.Forall₂ (UsingBlock.Agrees s s') p.usings p'.usings

section
variable {s s' u u' : Namespaces} {b b' : UsingBlock} {p p' : PendingBases}

theorem UsingBlock.Agrees.of_prefix (h : b.Agrees s s' b') (hs : s.paths <+: u.paths)
    (hs' : s'.paths <+: u'.paths) : b.Agrees u u' b' :=
  ⟨h.namespace_.of_prefix hs hs', h.usings⟩

theorem PendingBases.Agrees.of_prefix (h : p.Agrees s s' p') (hs : s.paths <+: u.paths)
    (hs' : s'.paths <+: u'.paths) : p.Agrees u u' p' :=
  ⟨h.type, h.declaration, h.namespace_.of_prefix hs hs', h.containing,
    h.usings.imp fun _ _ hb => hb.of_prefix hs hs'⟩

end

/-! ## Two runs -/

/-- Both runs have entered the same in the tables with which they have started, and found the
    same. -/
structure Declaring.Paired (t₀ t₀' : SymbolTable) (s s' : Declaring) : Prop where
  takes : ∃ es, t₀.Takes es s.table ∧ t₀'.Takes es s'.table
  pending : List.Forall₂ (PendingBases.Agrees s.table.namespaces s'.table.namespaces)
    s.found.pending s'.found.pending
  globalUsings : s'.found.globalUsings = s.found.globalUsings

namespace Declaring.Paired

variable {t₀ t₀' t t' u u' : SymbolTable} {s s' : Declaring} {w w' : Surroundings}
  {path names : List String} {tree : SyntaxTree} {origin : Origin} {number number' : Nat}
  {d d' : NewType} {n : FullName} {id id' : TypeId} {found : TreeDeclarations}

theorem start (t t' : SymbolTable) : Paired t t' ⟨t, .empty⟩ ⟨t', .empty⟩ :=
  ⟨⟨[], .refl t, .refl t'⟩, .nil, rfl⟩

theorem pending_mono (h : s.Paired t₀ t₀' s') (ht : s.table.Extends u) (ht' : s'.table.Extends u') :
    List.Forall₂ (PendingBases.Agrees u.namespaces u'.namespaces) s.found.pending s'.found.pending :=
  h.pending.imp fun _ _ hp => hp.of_prefix ht.namespace_ ht'.namespace_

/-- What both tables accept is one more part on both sides. -/
theorem declare (h : s.Paired t₀ t₀' s') (hname : d.IsNamed s.table n) (hname' : d'.IsNamed s'.table n)
    (hkind : d'.kind = d.kind) (hmodifiers : d'.modifiers = d.modifiers)
    (hd : s.table.declare d = .ok (id, u)) (hd' : s'.table.declare d' = .ok (id', u')) :
    (s'.declare w' d').1 = (s.declare w d).1 ∧
      (s.declare w d).2.Paired t₀ t₀' (s'.declare w' d').2 := by
  obtain ⟨es, hes, hes'⟩ := h.takes
  have hid : id' = id := by
    rw [(SymbolTable.declare_cases hd).1, (SymbolTable.declare_cases hd').1, SymbolTable.idOf_eq hname,
      SymbolTable.idOf_eq hname']
  have htakes' := hes'.declare hname' hd'
  rw [hkind, hmodifiers] at htakes'
  unfold Declaring.declare
  rw [hd, hd']
  exact ⟨congrArg some hid, ⟨_, hes.declare hname hd, htakes'⟩,
    h.pending_mono (.declare hd) (.declare hd'), h.globalUsings⟩

theorem putAside (h : s.Paired t₀ t₀' s') (hw : w.Within path number tree origin s.table)
    (hw' : w'.Within path number' tree origin s'.table)
    (husings : List.Forall₂ (UsingBlock.Agrees s.table.namespaces s'.table.namespaces) w.usings w'.usings)
    (outer? : Option TypeId) (id : TypeId) (t : TypeDeclaration) :
    (s.putAside w outer? id t).Paired t₀ t₀' (s'.putAside w' outer? id t) := by
  unfold Declaring.putAside
  split
  · exact h
  · refine ⟨h.takes, List.rel_append h.pending (.cons ?_ .nil), h.globalUsings⟩
    exact ⟨rfl, rfl, ⟨path, hw.namespace_, hw'.namespace_⟩, rfl, husings⟩

theorem enterNamespace (h : s.Paired t₀ t₀' s') (hw : w.Within path number tree origin s.table)
    (hw' : w'.Within path number' tree origin s'.table) (names : List String) :
    (s.enterNamespace w.namespace_ names).1.Paired t₀ t₀' (s'.enterNamespace w'.namespace_ names).1 := by
  obtain ⟨es, hes, hes'⟩ := h.takes
  exact ⟨⟨_, hes.createPath hw.namespace_ names, hes'.createPath hw'.namespace_ names⟩,
    h.pending_mono (enterNamespace_extends ..) (enterNamespace_extends ..), h.globalUsings⟩

/-! ## Through a tree -/

/-- Two runs from the tables `t₀` and `t₀'` through a tree. -/
def simulation (t₀ t₀' : SymbolTable) (tree : SyntaxTree) (origin : Origin) (number number' : Nat)
    (Ok : Declaring → Prop) : Simulation tree origin where
  number := number
  number' := number'
  State := Paired t₀ t₀'
  Around t t' w w' := List.Forall₂ (UsingBlock.Agrees t.namespaces t'.namespaces) w.usings w'.usings
  Ok := Ok

/-- In runs that count both tables accept a declaration, or none does and nothing is found. -/
def Together (t₀ t₀' : SymbolTable) (origin : Origin) (Ok : Declaring → Prop) : Prop :=
  ∀ {s s' : Declaring} {w w' : Surroundings} {d d' : NewType} {n : FullName}, s.Paired t₀ t₀' s' →
    w.origin = origin → w'.origin = origin → d.IsNamed s.table n → d'.IsNamed s'.table n →
    d'.kind = d.kind → d'.modifiers = d.modifiers →
    Ok (s.declare w d).2 → Ok (s'.declare w' d').2 →
    (∃ r r', s.table.declare d = .ok r ∧ s'.table.declare d' = .ok r') ∨
      s.declare w d = (none, s) ∧ s'.declare w' d' = (none, s')

theorem simulation_isKept {Ok : Declaring → Prop} (number number' : Nat)
    (hok : ∀ {number s s'}, Step number tree origin s s' → Ok s' → Ok s)
    (htogether : Together t₀ t₀' origin Ok) :
    (simulation t₀ t₀' tree origin number number' Ok).IsKept where
  ok := hok
  mono h ht ht' := List.Forall₂.imp (fun _ _ hb => hb.of_prefix ht.namespace_ ht'.namespace_) h
  declare {path s s' w w' outer? name?} h ho kind i arity modifiers span _ hOk hOk' := by
    have hname := ho.left.isNamed h.left kind i arity modifiers span
    have hname' := ho.right.isNamed h.right kind i arity modifiers span
    have hstate : s.Paired t₀ t₀' s' := h.state
    obtain ⟨⟨id, u⟩, ⟨id', u'⟩, hd, hd'⟩ | ⟨hd, hd'⟩ :=
      htogether hstate h.left.origin h.right.origin hname hname' rfl rfl hOk hOk'
    · exact hstate.declare hname hname' rfl rfl hd hd'
    · rw [hd, hd']
      exact ⟨rfl, hstate⟩
  putAside h := Declaring.Paired.putAside h.state h.left h.right h.around
  noteUsings h us := ⟨h.takes, h.pending, congrArg (· ++ _) h.globalUsings⟩
  withUsings {path s s' w w'} h us := by
    unfold Surroundings.withUsings
    split
    · exact h.around
    · exact .cons ⟨⟨path, h.left.namespace_, h.right.namespace_⟩, rfl⟩ h.around
  enterNamespace h names :=
    ⟨Declaring.Paired.enterNamespace h.state h.left h.right names, List.Forall₂.imp (fun _ _ hb =>
      hb.of_prefix (enterNamespace_extends ..).namespace_ (enterNamespace_extends ..).namespace_) h.around⟩

/-- Nothing is refused of two runs without diagnostics. -/
theorem together_source :
    Together t₀ t₀' .source fun s => s.found.diagnostics = [] := by
  have accepted {s : Declaring} {w : Surroundings} {d : NewType} (hw : w.origin = .source)
      (h : (s.declare w d).2.found.diagnostics = []) : ∃ r, s.table.declare d = .ok r := by
    unfold Declaring.declare at h
    split at h
    · exact ⟨_, ‹_›⟩
    · rw [hw] at h
      exact absurd h (by simp)
  intro s s' w w' d d' n _ hw hw' _ _ _ _ hOk hOk'
  obtain ⟨r, hr⟩ := accepted hw hOk
  obtain ⟨r', hr'⟩ := accepted hw' hOk'
  exact .inl ⟨r, r', hr, hr'⟩

/-- Tables with the same entries accept the same declarations. -/
theorem declare_iff {es : List Entry} (h : SymbolTable.Describes es t) (h' : SymbolTable.Describes es t')
    (hname : d.IsNamed t n) (hname' : d'.IsNamed t' n) (hkind : d'.kind = d.kind)
    (hmodifiers : d'.modifiers = d.modifiers) :
    (∃ r r', t.declare d = .ok r ∧ t'.declare d' = .ok r') ∨
      ∃ e e', t.declare d = .error e ∧ t'.declare d' = .error e' := by
  have hid : t'.idOf d' = t.idOf d :=
    (SymbolTable.idOf_eq hname').trans (SymbolTable.idOf_eq hname).symm
  cases hs : t.get? (t.idOf d) with
  | none =>
    have hs' := h.get?_eq_none h' hs
    rw [← hid] at hs'
    exact .inl ⟨_, _, SymbolTable.declare_eq_of_none hs, SymbolTable.declare_eq_of_none hs'⟩
  | some x =>
    obtain ⟨x', hs'⟩ : ∃ x', t'.get? (t.idOf d) = some x' := by
      refine Option.ne_none_iff_exists'.1 fun hn => ?_
      cases hs.symm.trans (h'.get?_eq_none h hn)
    obtain ⟨hk, hm⟩ := h.symbol_eq h' hs hs'
    have hrefusal : SymbolTable.refusal? x' d' = SymbolTable.refusal? x d := by
      unfold SymbolTable.refusal? TypeSymbol.isPartial
      rw [hk, hm, hkind, hmodifiers]
    rw [← hid] at hs'
    rw [SymbolTable.declare_eq_of_some hs, SymbolTable.declare_eq_of_some hs', hrefusal]
    cases SymbolTable.refusal? x d with
    | none => exact .inl ⟨_, _, rfl, rfl⟩
    | some cause => exact .inr ⟨_, _, rfl, rfl⟩

theorem together_metadata {es : List Entry} (h : SymbolTable.Describes es t₀)
    (h' : SymbolTable.Describes es t₀') : Together t₀ t₀' .metadata fun _ => True := by
  intro s s' w w' d d' n hs hw hw' hname hname' hkind hmodifiers _ _
  obtain ⟨fs, hfs, hfs'⟩ := hs.takes
  refine (declare_iff (hfs _ h) (hfs' _ h') hname hname' hkind hmodifiers).imp_right ?_
  rintro ⟨e, e', he, he'⟩
  unfold Declaring.declare
  rw [he, he', hw, hw']
  exact ⟨rfl, rfl⟩

end Declaring.Paired

section
variable {t t' : SymbolTable} {tree : SyntaxTree} {number number' : Nat}

/-- Diagnostics stay. -/
theorem Declaring.Step.diagnostics_eq_nil {origin : Origin} {s s' : Declaring}
    (h : Declaring.Step number tree origin s s') (hs' : s'.found.diagnostics = []) :
    s.found.diagnostics = [] := by
  cases h with
  | declare =>
    unfold Declaring.declare at hs'
    split at hs'
    · exact hs'
    · split at hs'
      · exact (List.append_eq_nil_iff.1 hs').1
      · exact hs'
  | putAside =>
    unfold Declaring.putAside at hs'
    split at hs' <;> exact hs'
  | noteUsings => exact hs'
  | enterNamespace => exact hs'

/-- **A source in which nothing is refused** enters the same in any two tables. -/
theorem declareTree_paired (ht : t.namespaces.path? Namespaces.root = some [])
    (ht' : t'.namespaces.path? Namespaces.root = some [])
    (hd : (declareTree t number tree .source).2.diagnostics = [])
    (hd' : (declareTree t' number' tree .source).2.diagnostics = []) :
    Declaring.Paired t t'
      ⟨(declareTree t number tree .source).1, (declareTree t number tree .source).2⟩
      ⟨(declareTree t' number' tree .source).1, (declareTree t' number' tree .source).2⟩ :=
  (Declaring.Paired.simulation_isKept number number'
    (fun h => h.diagnostics_eq_nil) Declaring.Paired.together_source).tree_kept ht ht'
    (.start t t') .nil hd hd'

/-- **A tree of a reference** enters the same in two tables with the same entries. -/
theorem declareTree_paired_of_describes {es : List Entry} (number number' : Nat) (tree : SyntaxTree)
    (h : SymbolTable.Describes es t) (h' : SymbolTable.Describes es t')
    (ht : t.namespaces.path? Namespaces.root = some [])
    (ht' : t'.namespaces.path? Namespaces.root = some []) :
    Declaring.Paired t t'
      ⟨(declareTree t number tree .metadata).1, (declareTree t number tree .metadata).2⟩
      ⟨(declareTree t' number' tree .metadata).1, (declareTree t' number' tree .metadata).2⟩ :=
  (Declaring.Paired.simulation_isKept number number'
    (fun _ _ => trivial) (Declaring.Paired.together_metadata h h')).tree_kept ht ht'
    (.start t t') .nil trivial trivial

end

end CommandModules

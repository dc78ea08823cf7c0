/-
  Command modules — what namespaces stand around declarations.

  * `Wraps`: directives and declarations are those of a body, inside namespaces that together
    have a given path;
  * `Wraps.declare`: they are declared as the body is, in the namespace with this path, however
    many declarations of namespaces spell it;
  * `SyntaxTree.Restates.of_wraps`: so two trees that hold the same body in the same namespace
    are declared with the same outcome, behind any other declarations.
-/
import CommandModules.Proofs.Compilation.Moved

namespace CommandModules

variable {us : List Using} {ms xs ys : List Declaration} {path : List String}

/-! ## A body in namespaces -/

/-- The directives `us'` and the declarations `xs` are the body `us` and `ms`, perhaps in
    another place, inside namespaces that together have this path. -/
inductive Wraps (us : List Using) (ms : List Declaration) :
    List String → List Using → List Declaration → Prop
  | body : Wraps us ms [] us ms
  | inside {path : List String} {us' : List Using} {xs : List Declaration}
      {n : NamespaceDeclaration} (d : Distance) : Wraps us ms path us' xs →
        n.usings = shift d us' → n.members = shift d xs →
          Wraps us ms (n.name.path ++ path) [] [.namespace_ n]

/-- Declare a body in the namespace with this path. -/
def declareInside (w : Surroundings) (s : Declaring) (path : List String) (us : List Using)
    (ms : List Declaration) : Declaring :=
  let (s, inner) := s.enterNamespace w.namespace_ path
  declareAll ({ w with namespace_ := inner }.withUsings us) (s.noteUsings us) ms

theorem Namespaces.createPath_append (s : Namespaces) (n : Nat) (p q : List String) :
    s.createPath n (p ++ q) = (s.createPath n p).1.createPath (s.createPath n p).2 q := by
  induction p generalizing s n with
  | nil => rfl
  | cons name p ih => exact ih _ _

theorem declareInside_append (w : Surroundings) (s : Declaring) (p q : List String) :
    declareInside w s (p ++ q) us ms =
      declareInside { w with namespace_ := (s.enterNamespace w.namespace_ p).2 }
        (s.enterNamespace w.namespace_ p).1 q us ms := by
  simp only [declareInside, Declaring.enterNamespace, Namespaces.createPath_append]

theorem Declaring.noteUsings_nil (s : Declaring) : s.noteUsings [] = s := by
  rw [noteUsings, List.filter_nil, List.append_nil]

/-- The same declarations lead to the same outcome, wherever their trees stand. -/
theorem declareAll_restates {s s' : Declaring} (h : s.Restates s') {w w' : Surroundings}
    (hw : w.Restates w') (xs : List Declaration) :
    (declareAll w s xs).Restates (declareAll w' s' xs) := by
  have hmoved := declareAll_moved .zero h hw xs
  rwa [shift_zero] at hmoved

/-- **A body is declared alike however its namespace is spelled.** -/
theorem Wraps.declare {us' : List Using} (h : Wraps us ms path us' xs) {s s' : Declaring}
    (hs : s.Restates s') {w w' : Surroundings} (hw : w.Restates w') :
    (declareInside w s path us ms).Restates
      (declareAll (w'.withUsings us') (s'.noteUsings us') xs) := by
  induction h generalizing s s' w w' with
  | body => exact declareAll_restates (hs.noteUsings rfl) (hw.withUsings rfl) ms
  | @inside path us' xs n d _ hus hxs ih =>
    obtain ⟨hs₁, hinner⟩ := hs.enterNamespace w.namespace_ n.name.path
    have hw₁ : Surroundings.Restates
        { w with namespace_ := (s.enterNamespace w.namespace_ n.name.path).2 }
        { w' with namespace_ := (s'.enterNamespace w'.namespace_ n.name.path).2 } :=
      ⟨⟨hw.respells.origin, by rw [hinner, hw.respells.namespace_], hw.respells.usings⟩, hw.path⟩
    rw [hw.respells.namespace_] at hs₁
    have hdeclare : declareAll (w'.withUsings []) (s'.noteUsings []) [.namespace_ n] =
        declareNamespace w' s' n := by
      rw [Declaring.noteUsings_nil]
      rfl
    rw [declareInside_append, hdeclare, declareNamespace_eq, hus, hxs, hw.respells.namespace_]
    rw [hw.respells.namespace_] at hw₁
    -- the body is first declared where it stands alone, and then where the namespace has it
    refine (ih hs₁ hw₁).trans (declareAll_moved d ?_ ?_ xs)
    · exact (Declaring.Restates.refl _).noteUsings (erase_shift_usings d us').symm
    · exact (Surroundings.Restates.refl _).withUsings (erase_shift_usings d us').symm

theorem declareAll_append (w : Surroundings) (s : Declaring) (xs ys : List Declaration) :
    declareAll w s (xs ++ ys) = declareAll w (declareAll w s xs) ys := by
  induction xs generalizing s with
  | nil => rfl
  | cons x xs ih => exact ih _

/-! ## Trees -/

/-- The trees are declared with the same outcome, whatever is declared before. -/
def SyntaxTree.Restates (t u : SyntaxTree) : Prop :=
  ∀ (table table' : SymbolTable) (n n' : Nat) (origin : Origin), table.bare = table'.bare →
    (declareTree table n t origin).1.bare = (declareTree table' n' u origin).1.bare ∧
      (declareTree table n t origin).2.Restates (declareTree table' n' u origin).2

theorem SyntaxTree.Restates.refl (t : SyntaxTree) : t.Restates t := by
  intro table table' n n' origin h
  have hstart : Declaring.Restates ⟨table, .empty⟩ ⟨table', .empty⟩ := ⟨h, .refl _⟩
  have houtside : Surroundings.Restates ⟨n, t, origin, Namespaces.root, []⟩
      ⟨n', t, origin, Namespaces.root, []⟩ := ⟨⟨rfl, rfl, .nil⟩, rfl⟩
  have hus : erase t.root.usings = erase t.root.usings := rfl
  have hs := declareAll_restates (hstart.noteUsings hus) (houtside.withUsings hus) t.root.members
  exact ⟨hs.table, hs.found⟩

/-- The body is declared in its namespace, also where the declarations are moved. -/
theorem Wraps.declare_moved (h : Wraps us ms path [] xs) (d : Distance) {s s' : Declaring}
    (hs : s.Restates s') {w w' : Surroundings} (hw : w.Restates w') :
    (declareInside w s path us ms).Restates (declareAll w' s' (shift d xs)) := by
  have hxs := h.declare (.refl s) (.refl w)
  rw [Declaring.noteUsings_nil] at hxs
  exact hxs.trans (declareAll_moved d hs hw xs)

/-- **Trees that hold the same body in the same namespace**, behind the same directives and
    declarations, are declared with the same outcome. -/
theorem SyntaxTree.Restates.of_wraps {t u : SyntaxTree} {vs : List Using}
    {before xs ys : List Declaration} (d e : Distance) (hpath : t.path = u.path)
    (ht : t.root.usings = vs ∧ t.root.members = before ++ shift d xs)
    (hu : u.root.usings = vs ∧ u.root.members = before ++ shift e ys)
    (hxs : Wraps us ms path [] xs) (hys : Wraps us ms path [] ys) : t.Restates u := by
  intro table table' n n' origin h
  have hvs : erase vs = erase vs := rfl
  have hstart : Declaring.Restates ⟨table, .empty⟩ ⟨table', .empty⟩ := ⟨h, .refl _⟩
  have houtside : Surroundings.Restates ⟨n, t, origin, Namespaces.root, []⟩
      ⟨n', u, origin, Namespaces.root, []⟩ := ⟨⟨rfl, rfl, .nil⟩, hpath⟩
  have hw := houtside.withUsings hvs
  have hbefore := declareAll_restates (hstart.noteUsings hvs) hw before
  have hs := (hxs.declare_moved d (.refl _) (.refl _)).symm.trans (hys.declare_moved e hbefore hw)
  rw [← declareAll_append, ← declareAll_append, ← ht.2, ← hu.2] at hs
  rw [declareTree, declareTree, ht.1, hu.1]
  exact ⟨hs.table, hs.found⟩

end CommandModules

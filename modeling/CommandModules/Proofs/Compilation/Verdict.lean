/-
  Command modules — what becomes of the declarations of a compilation.

  On the way through a tree each declaration of a type or delegate is accepted or refused, or it is
  passed over, if it stands in a type that was refused.  A tree that is given several times is gone
  through each time, and the outcomes can differ.

  * `SyntaxTree.verdicts`: the declarations of a tree, each with what becomes of it;
  * `Declaring.Decides`: each declaration has its verdict, what stands in a refused type is passed
    over and nothing else is, and the keys of those that were accepted are noted;
  * `declareTree_decides`: so it is on the way through any tree;
  * `Compilation.tree_of_declaration`: a declaration leads to its tree if it was accepted at least
    once, and to none otherwise.
-/
import CommandModules.Proofs.Compilation.Accepted
import CommandModules.Proofs.Compilation.Path
import CommandModules.Proofs.Located.Declared
import Mathlib.Data.List.Nodup

namespace CommandModules

/-! ## Verdicts -/

/-- What becomes of a declaration of a type or delegate. -/
inductive Verdict where
  | accepted
  | refused
  /-- a type around it was refused -/
  | passedOver
deriving DecidableEq, Repr

/-- The declaration that introduces `d` is accepted if the table takes it up. -/
def Declaring.verdict (s : Declaring) (d : NewType) : Verdict :=
  match s.table.declare d with
  | .ok _ => .accepted
  | .error _ => .refused

mutual

/-- What becomes of a type and of what is nested in it. -/
def TypeDeclaration.verdicts (w : Surroundings) (outer? : Option TypeId) (s : Declaring) :
    TypeDeclaration → List (Declaration × Verdict)
  | t@⟨_, _, _, _, _, _, _, _, members, _⟩ =>
    match s.declare w (w.ofType outer? t) with
    | (some id, s') => (.type t, s.verdict (w.ofType outer? t)) ::
        Member.allVerdicts w id (s'.putAside w outer? id t) members
    | (none, _) => (.type t, s.verdict (w.ofType outer? t)) ::
        (Member.allDeclared members).map (·, .passedOver)

/-- What becomes of a nested type or delegate. -/
def Member.verdicts (w : Surroundings) (outer : TypeId) (s : Declaring) :
    Member → List (Declaration × Verdict)
  | .type t => t.verdicts w (some outer) s
  | .delegate d => [(.delegate d, s.verdict (w.ofDelegate (some outer) d))]
  | _ => []

/-- What becomes of the nested types and delegates of a type, one after the other. -/
def Member.allVerdicts (w : Surroundings) (outer : TypeId) (s : Declaring) :
    List Member → List (Declaration × Verdict)
  | [] => []
  | m :: ms => m.verdicts w outer s ++ Member.allVerdicts w outer (declareMember w outer s m) ms

end

mutual

/-- What becomes of what a namespace holds. -/
def NamespaceDeclaration.verdicts (w : Surroundings) (s : Declaring) :
    NamespaceDeclaration → List (Declaration × Verdict)
  | ⟨name, _, usings, members, _⟩ =>
    let (s, inner) := s.enterNamespace w.namespace_ name.path
    let w := { w with namespace_ := inner }
    Declaration.allVerdicts (w.withUsings usings) (s.noteUsings usings) members

/-- What becomes of a declaration and of what stands in it. -/
def Declaration.verdicts (w : Surroundings) (s : Declaring) :
    Declaration → List (Declaration × Verdict)
  | .namespace_ n => n.verdicts w s
  | .type t => t.verdicts w none s
  | .delegate d => [(.delegate d, s.verdict (w.ofDelegate none d))]

/-- What becomes of declarations, one after the other. -/
def Declaration.allVerdicts (w : Surroundings) (s : Declaring) :
    List Declaration → List (Declaration × Verdict)
  | [] => []
  | d :: ds => d.verdicts w s ++ Declaration.allVerdicts w (declareOne w s d) ds

end

/-- What becomes of the declarations of a tree, the one numbered `number` in the compilation. -/
def SyntaxTree.verdicts (table : SymbolTable) (number : Nat) (tree : SyntaxTree) (origin : Origin) :
    List (Declaration × Verdict) :=
  let outside : Surroundings := ⟨number, tree, origin, Namespaces.root, []⟩
  let usings := tree.root.usings
  Declaration.allVerdicts (outside.withUsings usings)
    ((Declaring.mk table .empty).noteUsings usings) tree.root.members

/-- What becomes of the declarations of trees, of which the first has the given number. -/
def verdictsOf (table : SymbolTable) (number : Nat) :
    List (SyntaxTree × Origin) → List (List (Declaration × Verdict))
  | [] => []
  | (tree, origin) :: trees =>
    tree.verdicts table number origin ::
      verdictsOf (declareTree table number tree origin).1 (number + 1) trees

/-- What becomes of the declarations of a compilation, tree by tree. -/
def Compilation.verdicts (c : Compilation) : List (List (Declaration × Verdict)) :=
  verdictsOf .empty 0 (numberedTrees c.sources c.references)

theorem TypeDeclaration.verdicts_eq (w : Surroundings) (outer? : Option TypeId) (s : Declaring)
    (t : TypeDeclaration) : t.verdicts w outer? s =
      match s.declare w (w.ofType outer? t) with
      | (some id, s') => (.type t, s.verdict (w.ofType outer? t)) ::
          Member.allVerdicts w id (s'.putAside w outer? id t) t.members
      | (none, _) => (.type t, s.verdict (w.ofType outer? t)) ::
          (Member.allDeclared t.members).map (·, .passedOver) := by
  cases t
  rfl

/-! ## What is noted of verdicts -/

/-- The keys of the declarations that were accepted. -/
def acceptedKeys (tree : SyntaxTree) (vs : List (Declaration × Verdict)) : List NodeKey :=
  (vs.filter fun v => v.2 = .accepted).map fun v => tree.key v.1.span

theorem mem_acceptedKeys {tree : SyntaxTree} {vs : List (Declaration × Verdict)} {key : NodeKey} :
    key ∈ acceptedKeys tree vs ↔ ∃ x, (x, .accepted) ∈ vs ∧ tree.key x.span = key := by
  simp only [acceptedKeys, List.mem_map, List.mem_filter, decide_eq_true_eq, Prod.exists]
  constructor
  · rintro ⟨x, v, ⟨hx, rfl⟩, hkey⟩
    exact ⟨x, hx, hkey⟩
  · rintro ⟨x, hx, hkey⟩
    exact ⟨x, .accepted, ⟨hx, rfl⟩, hkey⟩

/-- The declarations have these verdicts; those are passed over that stand in a refused type. -/
structure Covers (xs : List Declaration) (vs : List (Declaration × Verdict)) : Prop where
  declarations : vs.map Prod.fst = xs
  around : ∀ x, (x, .passedOver) ∈ vs → ∃ t, (.type t, .refused) ∈ vs ∧
    x ∈ Member.allDeclared t.members
  below : ∀ t, (.type t, .refused) ∈ vs → ∀ x ∈ Member.allDeclared t.members,
    (x, .passedOver) ∈ vs

theorem Covers.append {xs ys : List Declaration} {us vs : List (Declaration × Verdict)}
    (hx : Covers xs us) (hy : Covers ys vs) : Covers (xs ++ ys) (us ++ vs) where
  declarations := by rw [List.map_append, hx.declarations, hy.declarations]
  around x h := by
    rcases List.mem_append.1 h with h | h
    · obtain ⟨t, ht, hmem⟩ := hx.around x h
      exact ⟨t, List.mem_append_left _ ht, hmem⟩
    · obtain ⟨t, ht, hmem⟩ := hy.around x h
      exact ⟨t, List.mem_append_right _ ht, hmem⟩
  below t h x hmem := by
    rcases List.mem_append.1 h with h | h
    · exact List.mem_append_left _ (hx.below t h x hmem)
    · exact List.mem_append_right _ (hy.below t h x hmem)

/-- On the way from `s` to `s'` through a stretch of the tree, its declarations `xs` have got the
    verdicts `vs`, and those that were accepted have been noted. -/
structure Declaring.Decides (tree : SyntaxTree) (s s' : Declaring) (xs : List Declaration)
    (vs : List (Declaration × Verdict)) : Prop where
  covers : Covers xs vs
  accepted : s'.found.accepted.map Prod.fst =
    s.found.accepted.map Prod.fst ++ acceptedKeys tree vs

namespace Declaring

variable {tree : SyntaxTree} {s s' s'' : Declaring} {w : Surroundings} {outer? : Option TypeId}
  {outer id : TypeId} {d : NewType} {t : TypeDeclaration}
  {xs ys : List Declaration} {us vs : List (Declaration × Verdict)}

/-- Where nothing is accepted and no declaration stands. -/
theorem Decides.of_same (h : s'.found.accepted = s.found.accepted) : Decides tree s s' [] [] :=
  ⟨⟨rfl, nofun, nofun⟩, by rw [h]; exact (List.append_nil _).symm⟩

theorem Decides.trans (h : Decides tree s s' xs us) (h' : Decides tree s' s'' ys vs) :
    Decides tree s s'' (xs ++ ys) (us ++ vs) where
  covers := h.covers.append h'.covers
  accepted := by
    rw [h'.accepted, h.accepted, acceptedKeys, acceptedKeys, acceptedKeys, List.filter_append,
      List.map_append, List.append_assoc]

theorem Decides.start (h : Decides tree s' s'' xs vs)
    (hs : s'.found.accepted = s.found.accepted) : Decides tree s s'' xs vs := by
  have hstart : Decides tree s s' [] [] := .of_same hs
  exact hstart.trans h

/-- The verdict is that of the table, and an accepted declaration is noted under its key. -/
theorem declare_verdict (s : Declaring) (w : Surroundings) (d : NewType) :
    ((s.declare w d).1.isSome ∧ s.verdict d = .accepted ∧
      (s.declare w d).2.found.accepted.map Prod.fst =
        s.found.accepted.map Prod.fst ++ [d.site.key]) ∨
    ((s.declare w d).1 = none ∧ s.verdict d = .refused ∧
      (s.declare w d).2.found.accepted = s.found.accepted) := by
  obtain ⟨id, table, hok, heq⟩ | ⟨e, herr, hnone, -, hsame⟩ := declare_cases s w d
  · refine .inl ⟨by rw [heq]; rfl, by rw [verdict, hok], ?_⟩
    rw [heq, List.map_append]
    rfl
  · exact .inr ⟨hnone, by rw [verdict, herr], hsame⟩

/-- A declaration in which no other one stands. -/
theorem declare_decides {x : Declaration} (hkey : d.site.key = tree.key x.span)
    (hx : ∀ t, x ≠ .type t) :
    Decides tree s (s.declare w d).2 [x] [(x, s.verdict d)] := by
  obtain ⟨-, hv, haccepted⟩ | ⟨-, hv, hsame⟩ := declare_verdict s w d <;> rw [hv]
  · refine ⟨⟨rfl, fun y h => ?_, fun t h => ?_⟩, by rw [haccepted, hkey]; rfl⟩
    · cases List.mem_singleton.1 h
    · cases List.mem_singleton.1 h
  · refine ⟨⟨rfl, fun y h => ?_, fun t h => ?_⟩, by rw [hsame]; exact (List.append_nil _).symm⟩
    · cases List.mem_singleton.1 h
    · exact absurd (Prod.mk.inj (List.mem_singleton.1 h)).1.symm (hx t)

theorem putAside_accepted (s : Declaring) (w : Surroundings) (outer? : Option TypeId) (id : TypeId)
    (t : TypeDeclaration) : (s.putAside w outer? id t).found.accepted = s.found.accepted := by
  unfold putAside
  split <;> rfl

/-- A type gets its verdict, and what is nested in it too if its members do. -/
theorem type_decides_of_members (hw : w.tree = tree)
    (hms : ∀ (id : TypeId) (s : Declaring), Decides tree s (declareMembers w id s t.members)
      (Member.allDeclared t.members) (Member.allVerdicts w id s t.members)) :
    Decides tree s (declareType w outer? s t) t.declared (t.verdicts w outer? s) := by
  have hkey : (w.ofType outer? t).site.key = tree.key t.span := hw ▸ rfl
  rw [declareType_eq, t.declared_eq, t.verdicts_eq]
  have hcases := declare_verdict s w (w.ofType outer? t)
  rcases he : s.declare w (w.ofType outer? t) with ⟨_ | id, s'⟩ <;> rw [he] at hcases
  · obtain ⟨-, hv, hsame⟩ := hcases.resolve_left fun h => by cases h.1
    rw [hv]
    refine ⟨⟨?_, fun x h => ?_, fun u h x hx => ?_⟩, ?_⟩
    · rw [List.map_cons, List.map_map, Function.comp_def]
      exact congrArg _ (List.map_id' _)
    · rcases List.mem_cons.1 h with h | h
      · cases h
      · obtain ⟨y, hy, heq⟩ := List.mem_map.1 h
        obtain ⟨rfl, -⟩ := Prod.mk.inj heq
        exact ⟨t, List.mem_cons_self, hy⟩
    · rcases List.mem_cons.1 h with h | h
      · obtain rfl := Declaration.type.inj (Prod.mk.inj h).1
        exact List.mem_cons_of_mem _ (List.mem_map_of_mem hx)
      · obtain ⟨y, -, heq⟩ := List.mem_map.1 h
        cases heq
    · have hnone : acceptedKeys tree ((Declaration.type t, .refused) ::
          (Member.allDeclared t.members).map (·, .passedOver)) = [] := by
        simp [acceptedKeys, List.filter_map]
      rw [hsame, hnone, List.append_nil]
  · obtain ⟨-, hv, haccepted⟩ := hcases.resolve_right fun h => by cases h.1
    rw [hv]
    have hself : Decides tree s s' [.type t] [(.type t, .accepted)] := by
      refine ⟨⟨rfl, fun y h => ?_, fun u h => ?_⟩, by rw [haccepted, hkey]; rfl⟩
      · cases List.mem_singleton.1 h
      · cases List.mem_singleton.1 h
    exact hself.trans ((hms id _).start (putAside_accepted s' w outer? id t))

/-! ## On the way through a tree -/

mutual

theorem type_decides (hw : w.tree = tree) (outer? : Option TypeId) (s : Declaring) :
    (t : TypeDeclaration) →
      Decides tree s (declareType w outer? s t) t.declared (t.verdicts w outer? s)
  | ⟨_, _, _, _, _, _, _, _, members, _⟩ =>
    type_decides_of_members hw fun id s => members_decide hw id s members

theorem member_decides (hw : w.tree = tree) (outer : TypeId) (s : Declaring) : (m : Member) →
    Decides tree s (declareMember w outer s m) m.declared (m.verdicts w outer s)
  | .type t => type_decides hw (some outer) s t
  | .delegate d => declare_decides (x := .delegate d) (hw ▸ rfl) nofun
  | .method _ | .constructor _ | .field _ | .property _ | .event _ | .enumMember _ | .special _ =>
    .of_same rfl

theorem members_decide (hw : w.tree = tree) (outer : TypeId) (s : Declaring) : (ms : List Member) →
    Decides tree s (declareMembers w outer s ms) (Member.allDeclared ms)
      (Member.allVerdicts w outer s ms)
  | [] => .of_same rfl
  | m :: ms => (member_decides hw outer s m).trans (members_decide hw outer _ ms)

end

mutual

theorem namespace_decides {w : Surroundings} (hw : w.tree = tree) (s : Declaring) :
    (n : NamespaceDeclaration) →
      Decides tree s (declareNamespace w s n) n.declared (n.verdicts w s)
  | ⟨_, _, usings, members, _⟩ =>
    have hin : ({ w with namespace_ := _ }.withUsings usings).tree = tree := by
      rw [← hw, Surroundings.withUsings]
      split <;> rfl
    (all_decide hin _ members).start rfl

theorem one_decides {w : Surroundings} (hw : w.tree = tree) (s : Declaring) : (d : Declaration) →
    Decides tree s (declareOne w s d) d.declared (d.verdicts w s)
  | .namespace_ n => namespace_decides hw s n
  | .type t => type_decides hw none s t
  | .delegate d => declare_decides (x := .delegate d) (hw ▸ rfl) nofun

theorem all_decide {w : Surroundings} (hw : w.tree = tree) (s : Declaring) :
    (ds : List Declaration) →
      Decides tree s (declareAll w s ds) (Declaration.allDeclared ds)
        (Declaration.allVerdicts w s ds)
  | [] => .of_same rfl
  | d :: ds => (one_decides hw s d).trans (all_decide hw _ ds)

end

end Declaring

section
variable {table : SymbolTable} {number : Nat} {trees : List (SyntaxTree × Origin)}

/-- **Each declaration of a tree gets its verdict**, and those that are accepted are noted. -/
theorem declareTree_decides (table : SymbolTable) (number : Nat) (tree : SyntaxTree)
    (origin : Origin) :
    Covers tree.root.declared (tree.verdicts table number origin) ∧
      (declareTree table number tree origin).2.accepted.map Prod.fst =
        acceptedKeys tree (tree.verdicts table number origin) := by
  have hw : (Surroundings.withUsings ⟨number, tree, origin, Namespaces.root, []⟩
      tree.root.usings).tree = tree := by
    rw [Surroundings.withUsings]
    split <;> rfl
  have h := Declaring.all_decide hw ((Declaring.mk table .empty).noteUsings tree.root.usings)
    tree.root.members
  exact ⟨h.covers, h.accepted⟩

/-- So does each declaration of a list of trees. -/
theorem verdictsOf_covers {i : Nat} {e : SyntaxTree × Origin} (h : trees[i]? = some e) :
    ∃ vs, (verdictsOf table number trees)[i]? = some vs ∧ Covers e.1.root.declared vs := by
  induction trees generalizing table number i with
  | nil => cases h
  | cons e' trees ih =>
    cases i with
    | zero =>
      obtain rfl := Option.some_inj.1 h
      exact ⟨_, rfl, (declareTree_decides table number e'.1 e'.2).1⟩
    | succ i => exact ih h

/-- What was accepted in trees are the declarations with this verdict. -/
theorem declareTrees_accepted_eq :
    ((declareTrees table number trees).2.flatMap fun f => f.2.accepted).map Prod.fst =
      (trees.zip (verdictsOf table number trees)).flatMap fun e => acceptedKeys e.1.1 e.2 := by
  induction trees generalizing table number with
  | nil => rfl
  | cons e trees ih =>
    rw [declareTrees, verdictsOf, List.zip_cons_cons, List.flatMap_cons, List.flatMap_cons,
      List.map_append, ih, (declareTree_decides table number e.1 e.2).2]

end

/-! ## In a compilation -/

/-- The type stands in the other one, at any depth. -/
def TypeDeclaration.Encloses (t u : TypeDeclaration) : Prop :=
  ∃ v, .type v ∈ t.members ∧ (Declaration.type v).Holds u

theorem TypeDeclaration.encloses_iff {t u : TypeDeclaration} :
    t.Encloses u ↔ .type u ∈ Member.allDeclared t.members := by
  rw [Member.mem_allDeclared]
  constructor
  · rintro ⟨v, hv, hholds⟩
    exact ⟨_, hv, hholds.mem_declared⟩
  · rintro ⟨m, hm, hu⟩
    cases m with
    | type v => exact ⟨v, hm, Node.holds_of_mem_declared (.type v) _ rfl u hu⟩
    | delegate => simp [Member.declared] at hu
    | _ => cases hu

namespace Compilation

variable {c : Compilation} {n : Nat} {t u : SyntaxTree} {d : TypeDeclaration} {v v' : Verdict}
  {key : NodeKey} {id : TypeId}

/-- In the tree numbered `n`, this becomes of the type. -/
def Judges (c : Compilation) (n : Nat) (d : TypeDeclaration) (v : Verdict) : Prop :=
  ∃ vs, c.verdicts[n]? = some vs ∧ (.type d, v) ∈ vs

theorem covers_of_tree (h : c.tree? n = some t) :
    ∃ vs, c.verdicts[n]? = some vs ∧ Covers t.root.declared vs := by
  rw [tree?, trees_eq, List.getElem?_map] at h
  obtain ⟨e, he, rfl⟩ := Option.map_eq_some_iff.1 h
  exact verdictsOf_covers he

/-- A key is noted if a declaration that has it was accepted in its tree. -/
theorem mem_declared_keys : key ∈ c.symbols.declared.map Prod.fst ↔ ∃ n t vs x,
    c.tree? n = some t ∧ c.verdicts[n]? = some vs ∧ (x, .accepted) ∈ vs ∧ t.key x.span = key := by
  have hdeclared : c.symbols.declared.map Prod.fst =
      ((numberedTrees c.sources c.references).zip c.verdicts).flatMap fun e =>
        acceptedKeys e.1.1 e.2 := by
    rw [c.symbols_eq]
    exact declareTrees_accepted_eq
  simp only [hdeclared, List.mem_flatMap, mem_acceptedKeys, tree?, trees_eq, List.getElem?_map]
  constructor
  · rintro ⟨⟨e, vs⟩, he, x, hx, hkey⟩
    obtain ⟨n, hn⟩ := List.mem_iff_getElem?.1 he
    obtain ⟨htree, hvs⟩ := List.getElem?_zip_eq_some.1 hn
    exact ⟨n, e.1, vs, x, by rw [htree]; rfl, hvs, hx, hkey⟩
  · rintro ⟨n, t, vs, x, htree, hvs, hx, hkey⟩
    obtain ⟨e, he, rfl⟩ := Option.map_eq_some_iff.1 htree
    exact ⟨(e, vs), List.mem_of_getElem? (List.getElem?_zip_eq_some.2 ⟨he, hvs⟩), x, hx, hkey⟩

/-- Declarations of a text are told apart by their keys. -/
theorem key_inj (ht : t.IsParsed) {x y : Declaration} (hx : x ∈ t.root.declared)
    (hy : y ∈ t.root.declared) (h : t.key x.span = t.key y.span) : x = y := by
  obtain ⟨i, path, text, rfl⟩ := ht
  have hnodup := (SyntaxTree.declared_ordered i path text).imp fun hlt => Nat.ne_of_lt hlt
  refine List.inj_on_of_nodup_map hnodup hx hy ?_
  have hoffset (d : Declaration) : d.offset = d.span.offset := by cases d <;> rfl
  rw [hoffset, hoffset]
  exact congrArg NodeKey.offset h

/-- Only one thing becomes of a type in a tree. -/
theorem Judges.unique (ht : t.IsParsed) (hn : c.tree? n = some t) (h : c.Judges n d v)
    (h' : c.Judges n d v') : v = v' := by
  obtain ⟨vs, hvs, hcovers⟩ := covers_of_tree hn
  obtain ⟨us, hus, hmem⟩ := h
  obtain rfl := Option.some_inj.1 (hvs.symm.trans hus)
  obtain ⟨us, hus, hmem'⟩ := h'
  obtain rfl := Option.some_inj.1 (hvs.symm.trans hus)
  obtain ⟨i, path, text, rfl⟩ := ht
  have hnodup : (vs.map Prod.fst).Nodup := by
    rw [hcovers.declarations]
    exact List.Nodup.of_map Declaration.offset
      ((SyntaxTree.declared_ordered i path text).imp fun hlt => Nat.ne_of_lt hlt)
  exact congrArg Prod.snd (List.inj_on_of_nodup_map hnodup hmem hmem' rfl)

/-- Something becomes of each type of a tree. -/
theorem exists_judges (hn : c.tree? n = some t) (hd : .type d ∈ t.root.declared) :
    ∃ v, c.Judges n d v := by
  obtain ⟨vs, hvs, hcovers⟩ := covers_of_tree hn
  rw [← hcovers.declarations] at hd
  obtain ⟨⟨x, v⟩, hmem, rfl⟩ := List.mem_map.1 hd
  exact ⟨v, vs, hvs, hmem⟩

/-- A type is passed over just if a type around it was refused. -/
theorem judges_passedOver_iff (hn : c.tree? n = some t) :
    c.Judges n d .passedOver ↔ ∃ u : TypeDeclaration, c.Judges n u .refused ∧ u.Encloses d := by
  obtain ⟨vs, hvs, hcovers⟩ := covers_of_tree hn
  simp only [Judges, hvs, Option.some_inj, exists_eq_left', TypeDeclaration.encloses_iff]
  constructor
  · exact hcovers.around _
  · rintro ⟨u, hu, hd⟩
    exact hcovers.below u hu _ hd

/-- A type is noted just if it was accepted at one of the places of its tree. -/
theorem mem_declared_keys_iff (ht : t.IsParsed) (hids : ∀ u ∈ c.trees, u.id = t.id → u = t)
    (hd : .type d ∈ t.root.declared) : t.key d.span ∈ c.symbols.declared.map Prod.fst ↔
      ∃ n, c.tree? n = some t ∧ c.Judges n d .accepted := by
  rw [mem_declared_keys]
  constructor
  · rintro ⟨n, u, vs, x, hn, hvs, hx, hkey⟩
    obtain rfl := hids u (List.mem_of_getElem? hn) (congrArg NodeKey.tree hkey)
    obtain ⟨us, hus, hcovers⟩ := covers_of_tree hn
    obtain rfl := Option.some_inj.1 (hvs.symm.trans hus)
    have hxd : x ∈ u.root.declared := hcovers.declarations ▸ List.mem_map_of_mem hx
    obtain rfl : x = .type d := key_inj ht hxd hd hkey
    exact ⟨n, hn, vs, hvs, hx⟩
  · rintro ⟨n, hn, vs, hvs, hx⟩
    exact ⟨n, t, vs, .type d, hn, hvs, hx, rfl⟩

theorem mem_of_lookup (h : c.symbols.declared.lookup key = some id) :
    (key, id) ∈ c.symbols.declared := by
  obtain ⟨as, bs, heq, -⟩ := List.lookup_eq_some_iff.1 h
  simp [heq]

/-- **Each entry of a declaration leads to its tree**: its symbol has a part with this key, and
    the first one that has it is numbered as a tree with this id. -/
theorem tree_of_entry (h : (key, id) ∈ c.symbols.declared) : ∃ s site u, c.table.get? id = some s ∧
    s.declarations.find? (fun p => p.key == key) = some site ∧ c.tree? site.tree = some u ∧
      u.id = key.tree := by
  obtain ⟨n, tree, -, x, d, name, s, hx, hk, -, hget, hhas⟩ := declaredBy h
  obtain ⟨site, hsite⟩ := Option.isSome_iff_exists.1 (List.find?_isSome
    (p := fun p : DeclarationSite => p.key == key) |>.2 ⟨d.site, hhas.site, by simp [hx.site, hk]⟩)
  obtain ⟨u, hu, hid⟩ :=
    c.sitesIn _ (SymbolTable.mem_of_get? hget) site (List.mem_of_find?_eq_some hsite)
  have hkey : site.key = key := by simpa using List.find?_some hsite
  exact ⟨s, site, u, hget, hsite, hu, by rw [← hid, hkey]⟩

/-- A key leads to a tree of its id if it is noted, and to none otherwise. -/
theorem treeOf?_cases (c : Compilation) (key : NodeKey) :
    (∃ u ∈ c.trees, c.treeOf? key = some u ∧ u.id = key.tree ∧
      key ∈ c.symbols.declared.map Prod.fst) ∨
    (c.treeOf? key = none ∧ key ∉ c.symbols.declared.map Prod.fst) := by
  cases hl : c.symbols.declared.lookup key with
  | none =>
    refine .inr ⟨by rw [treeOf?, symbolOf?, hl]; rfl, fun hmem => ?_⟩
    obtain ⟨e, he, rfl⟩ := List.mem_map.1 hmem
    have hsome := List.lookup_isSome_iff.2 ⟨e, he, beq_self_eq_true e.1⟩
    rw [hl] at hsome
    cases hsome
  | some id =>
    obtain ⟨s, site, u, hget, hsite, hu, hid⟩ := tree_of_entry (mem_of_lookup hl)
    refine .inl ⟨u, List.mem_of_getElem? hu, ?_, hid, List.mem_map_of_mem (mem_of_lookup hl)⟩
    simp only [treeOf?, symbolOf?, hl, Option.bind_eq_bind, Option.bind_some, hget, hsite, hu]

/-- **A type leads to its tree just if it was accepted**, at least once if the tree is given several
    times; it leads to none if each time it was refused or a type around it was, and so it is if
    the tree is not given at all.  Each time the tree is gone through, exactly one thing becomes of
    the type, and it is passed over just if a type around it was refused.  It does not matter
    which of the symbols is taken that are noted for the type. -/
theorem tree_of_declaration (ht : t.IsParsed) (hids : ∀ u ∈ c.trees, u.id = t.id → u = t)
    (hd : d ∈ t.typeDeclarations) :
    (c.treeOf? (t.key d.span) = some t ↔ ∃ n, c.tree? n = some t ∧ c.Judges n d .accepted) ∧
    (c.treeOf? (t.key d.span) = none ↔ ∀ n, c.tree? n = some t → c.Judges n d .refused ∨
      ∃ u : TypeDeclaration, c.Judges n u .refused ∧ u.Encloses d) ∧
    (∀ n, c.tree? n = some t → (∃! v, c.Judges n d v) ∧ (c.Judges n d .passedOver ↔
      ∃ u : TypeDeclaration, c.Judges n u .refused ∧ u.Encloses d)) ∧
    ∀ id, (t.key d.span, id) ∈ c.symbols.declared → ∃ s site, c.table.get? id = some s ∧
      s.declarations.find? (fun p => p.key == t.key d.span) = some site ∧
        c.tree? site.tree = some t := by
  have hdeclared : .type d ∈ t.root.declared := by
    obtain ⟨x, hx, hxd⟩ := List.mem_filterMap.1 (t.typeDeclarations_eq ▸ hd : d ∈ t.root.types)
    cases x with
    | type => exact Option.some_inj.1 hxd ▸ hx
    | _ => cases hxd
  have hnoted := mem_declared_keys_iff ht hids hdeclared
  have hsome : c.treeOf? (t.key d.span) = some t ↔
      ∃ n, c.tree? n = some t ∧ c.Judges n d .accepted := by
    rw [← hnoted]
    rcases c.treeOf?_cases (t.key d.span) with ⟨u, hu, htree, hid, hmem⟩ | ⟨hnone, hmem⟩
    · rw [htree, hids u hu hid]
      exact ⟨fun _ => hmem, fun _ => rfl⟩
    · rw [hnone]
      exact ⟨nofun, fun h => absurd h hmem⟩
  refine ⟨hsome, ?_, fun n hn => ⟨?_, judges_passedOver_iff hn⟩, fun id h => ?_⟩
  · have hnone : c.treeOf? (t.key d.span) = none ↔
        ¬ ∃ n, c.tree? n = some t ∧ c.Judges n d .accepted := by
      rw [← hnoted]
      rcases c.treeOf?_cases (t.key d.span) with ⟨u, -, htree, -, hmem⟩ | ⟨hnone, hmem⟩
      · rw [htree]
        exact ⟨nofun, fun h => absurd hmem h⟩
      · exact ⟨fun _ => hmem, fun _ => hnone⟩
    rw [hnone, not_exists]
    refine forall_congr' fun n => ?_
    rw [not_and]
    refine forall_congr' fun hn => ?_
    rw [← judges_passedOver_iff hn]
    obtain ⟨v, hv⟩ := exists_judges hn hdeclared
    constructor
    · intro hnot
      cases v with
      | accepted => exact absurd hv hnot
      | refused => exact .inl hv
      | passedOver => exact .inr hv
    · rintro (h | h) haccepted
      · cases h.unique ht hn haccepted
      · cases h.unique ht hn haccepted
  · obtain ⟨v, hv⟩ := exists_judges hn hdeclared
    exact ⟨v, hv, fun v' hv' => hv'.unique ht hn hv⟩
  · obtain ⟨s, site, u, hget, hsite, hu, hid⟩ := tree_of_entry h
    exact ⟨s, site, hget, hsite, hids u (List.mem_of_getElem? hu) hid ▸ hu⟩

/-- The first tree is given twice, and its nested type is refused the second time; that of the
    second tree stands in a type that is refused. -/
theorem tree_of_declaration_repeated :
    let a := SyntaxTree.parse 0 "A.cs" "partial class P\x7bclass N\x7b\x7d\x7d"
    let b := SyntaxTree.parse 1 "B.cs" "class P\x7bclass M\x7b\x7d\x7d"
    let c := Compilation.of [a, b] [⟨"Lib", [a]⟩] .empty
    (∃ d ∈ a.typeDeclarations, d.name.value = "N" ∧ c.Judges 0 d .accepted ∧
      c.Judges 2 d .refused ∧ c.treeOf? (a.key d.span) = some a) ∧
    ∃ d ∈ b.typeDeclarations, d.name.value = "M" ∧ c.Judges 1 d .passedOver ∧
      c.treeOf? (b.key d.span) = none := by
  intro a b c
  have ha : a.IsParsed := ⟨0, "A.cs", _, rfl⟩
  have hb : b.IsParsed := ⟨1, "B.cs", _, rfl⟩
  have htrees : c.trees = [a, b, a] := rfl
  have hid (id : Nat) (path text : String) : (SyntaxTree.parse id path text).id = id := rfl
  have hne : a.id ≠ b.id := by
    rw [hid, hid]
    decide
  have hverdicts : c.verdicts.map (·.map fun v => (v.1.offset, v.2)) =
      [[(0, .accepted), (16, .accepted)], [(0, .refused), (8, .passedOver)],
        [(0, .accepted), (16, .refused)]] := by
    decide +kernel
  have hnested : a.typeDeclarations[1]?.map (fun d => (d.name.value, d.span.offset)) =
      some ("N", 16) ∧ b.typeDeclarations[1]?.map (fun d => (d.name.value, d.span.offset)) =
        some ("M", 8) := by
    decide +kernel
  -- the texts are not looked into from here on
  clear_value c b a
  obtain ⟨d, hd, hdname⟩ := Option.map_eq_some_iff.1 hnested.1
  obtain ⟨e, he, hename⟩ := Option.map_eq_some_iff.1 hnested.2
  obtain ⟨hdname, hdoffset⟩ := Prod.mk.inj hdname
  obtain ⟨hename, heoffset⟩ := Prod.mk.inj hename
  have hd := List.mem_of_getElem? hd
  have he := List.mem_of_getElem? he
  have hdspec := tree_of_declaration (c := c) ha (by simp [htrees, hne.symm]) hd
  have hespec := tree_of_declaration (c := c) hb (by simp [htrees, hne]) he
  have htree (n : Nat) : c.tree? n = [a, b, a][n]? := by rw [tree?, htrees]
  have hjudges {n : Nat} {d : TypeDeclaration} {v : Verdict} {vs : List (Nat × Verdict)}
      (h : ∃! v, c.Judges n d v)
      (hn : (c.verdicts.map (·.map fun v => (v.1.offset, v.2)))[n]? = some vs)
      (hv : ∀ w, (d.span.offset, w) ∈ vs → w = v) : c.Judges n d v := by
    obtain ⟨w, ⟨us, hus, hmem⟩, -⟩ := h
    rw [List.getElem?_map, hus] at hn
    obtain rfl := Option.some_inj.1 hn
    exact hv w (List.mem_map_of_mem hmem) ▸ ⟨us, hus, hmem⟩
  rw [hverdicts] at hjudges
  have hfirst : c.Judges 0 d .accepted :=
    hjudges (hdspec.2.2.1 0 (htree 0)).1 rfl (by simp [hdoffset])
  have hsecond : c.Judges 2 d .refused :=
    hjudges (hdspec.2.2.1 2 (htree 2)).1 rfl (by simp [hdoffset])
  have hpassed : c.Judges 1 e .passedOver :=
    hjudges (hespec.2.2.1 1 (htree 1)).1 rfl (by simp [heoffset])
  refine ⟨⟨d, hd, hdname, hfirst, hsecond, hdspec.1.2 ⟨0, htree 0, hfirst⟩⟩,
    e, he, hename, hpassed, hespec.2.1.2 fun n hn => ?_⟩
  obtain rfl : n = 1 := by
    rw [htree] at hn
    rcases n with _ | _ | _ | n
    · exact absurd (congrArg SyntaxTree.id (Option.some_inj.1 hn)) hne
    · rfl
    · exact absurd (congrArg SyntaxTree.id (Option.some_inj.1 hn)) hne
    · cases hn
  exact .inr ((hespec.2.2.1 1 hn).2.1 hpassed)

end Compilation

end CommandModules

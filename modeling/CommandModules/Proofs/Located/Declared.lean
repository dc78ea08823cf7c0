/-
  Command modules — the order of declarations.

  A declaration begins at a token, what is nested in it at later ones, and what comes after it
  behind both, whatever errors a text has.

  * `Declaration.Holds d t`: the type is the declaration, or is nested in it at any depth;
  * `Node.Stands.members_behind`: the members of a type begin behind it;
  * `Node.Stands.declared_ordered`: what a node declares begins at offsets that grow;
  * `SyntaxTree.typeDeclarations_ordered`: the types of a tree are listed once each, an enclosing
    one before those nested in it.
-/
import CommandModules.Proofs.Located.Order

namespace CommandModules

/-- The offset at which a declaration begins. -/
def Declaration.offset : Declaration → Nat
  | .namespace_ n => n.span.offset
  | .type t => t.span.offset
  | .delegate d => d.span.offset

/-! ## What a declaration holds -/

/-- The type is the declaration or stands in it, in namespaces and other types at any depth. -/
inductive Declaration.Holds : Declaration → TypeDeclaration → Prop
  | self (t : TypeDeclaration) : Holds (.type t) t
  | namespace_ {n d t} : d ∈ n.members → Holds d t → Holds (.namespace_ n) t
  | nested {t u v} : .type u ∈ t.members → Holds (.type u) v → Holds (.type t) v

theorem Declaration.Holds.trans {d : Declaration} {t u : TypeDeclaration} (h : d.Holds t)
    (h' : (Declaration.type t).Holds u) : d.Holds u := by
  induction h with
  | self t => exact h'
  | namespace_ hd _ ih => exact .namespace_ hd (ih h')
  | nested hu _ ih => exact .nested hu (ih h')

theorem Member.mem_allDeclared {ms : List Member} {d : Declaration} :
    d ∈ Member.allDeclared ms ↔ ∃ m ∈ ms, d ∈ m.declared := by
  induction ms with
  | nil => simp [allDeclared]
  | cons m ms ih => simp [allDeclared, ih]

theorem Declaration.mem_allDeclared {ds : List Declaration} {d : Declaration} :
    d ∈ Declaration.allDeclared ds ↔ ∃ e ∈ ds, d ∈ e.declared := by
  induction ds with
  | nil => simp [allDeclared]
  | cons e ds ih => simp [allDeclared, ih]

/-- What a declaration holds is declared in it. -/
theorem Declaration.Holds.mem_declared {d : Declaration} {t : TypeDeclaration} (h : d.Holds t) :
    .type t ∈ d.declared := by
  induction h with
  | self t =>
    rw [declared, TypeDeclaration.declared_eq]
    exact List.mem_cons_self
  | namespace_ hd _ ih =>
    rw [declared, NamespaceDeclaration.declared_eq]
    exact mem_allDeclared.2 ⟨_, hd, ih⟩
  | nested hu _ ih =>
    rw [declared, TypeDeclaration.declared_eq]
    exact List.mem_cons_of_mem _ (Member.mem_allDeclared.2 ⟨_, hu, ih⟩)

/-- The declaration that a node is, a namespace included. -/
def Node.declaration? : Node → Option Declaration
  | .namespace_ n => some (.namespace_ n)
  | .type t => some (.type t)
  | .delegate d => some (.delegate d)
  | _ => none

/-- A type that is declared in a declaration is held by it. -/
theorem Node.holds_of_mem_declared (n : Node) : ∀ d, n.declaration? = some d →
    ∀ t, .type t ∈ d.declared → d.Holds t := by
  induction n using descent with
  | step n ih =>
    intro d hd t ht
    cases n with
    | namespace_ n =>
      obtain rfl := Option.some_inj.1 hd
      rw [Declaration.declared, NamespaceDeclaration.declared_eq] at ht
      obtain ⟨e, he, ht⟩ := Declaration.mem_allDeclared.1 ht
      have hchild : ofDeclaration e ∈ children (.namespace_ n) :=
        List.mem_append_right _ (List.mem_map_of_mem he)
      exact .namespace_ he (ih _ hchild e (by cases e <;> rfl) t ht)
    | type u =>
      obtain rfl := Option.some_inj.1 hd
      rw [Declaration.declared, TypeDeclaration.declared_eq] at ht
      rcases List.mem_cons.1 ht with heq | ht
      · obtain rfl := Declaration.type.inj heq
        exact .self t
      · obtain ⟨m, hm, ht⟩ := Member.mem_allDeclared.1 ht
        have hchild : ofMember m ∈ children (.type u) :=
          List.mem_append_right _ (List.mem_map_of_mem hm)
        cases m with
        | type v => exact .nested hm (ih _ hchild (.type v) rfl t ht)
        | delegate e => simp [Member.declared] at ht
        | _ => cases ht
    | delegate e =>
      obtain rfl := Option.some_inj.1 hd
      simp [Declaration.declared] at ht
    | _ => cases hd

/-- The types of a unit are those that its declarations hold. -/
theorem SourceUnit.mem_types {u : SourceUnit} {t : TypeDeclaration} :
    t ∈ u.types ↔ ∃ d ∈ u.members, d.Holds t := by
  have htype : t ∈ u.types ↔ .type t ∈ u.declared := by
    rw [types, List.mem_filterMap]
    constructor
    · rintro ⟨d, hd, hdt⟩
      cases d with
      | type v =>
        obtain rfl := Option.some_inj.1 hdt
        exact hd
      | _ => cases hdt
    · intro ht
      exact ⟨_, ht, rfl⟩
  rw [htype, declared, Declaration.mem_allDeclared]
  refine exists_congr fun d => and_congr_right fun _ => ⟨fun ht => ?_, fun ht => ht.mem_declared⟩
  exact Node.holds_of_mem_declared (.ofDeclaration d) d (by cases d <;> rfl) t ht

/-! ## Where declarations begin -/

namespace Node

theorem offset_of_declares? {n : Node} {d : Declaration} (h : n.declares? = some d) :
    n.span.offset = d.offset := by
  cases n with
  | type t => exact Option.some_inj.1 h ▸ rfl
  | delegate e => exact Option.some_inj.1 h ▸ rfl
  | _ => cases h

/-- What a node declares is a node below it. -/
theorem exists_of_mem_declared {n : Node} {d : Declaration} (h : d ∈ n.declared) :
    ∃ m ∈ n.descendants, m.span.offset = d.offset := by
  have hvisit := visit_declared [n]
  rw [List.flatMap_singleton] at hvisit
  rw [← hvisit] at h
  obtain ⟨m, hm, hd⟩ := List.mem_filterMap.1 h
  exact ⟨m, hm, offset_of_declares? hd⟩

namespace Stands

variable {source : List Char} {ts : List Token} {i j : Nat} {n m : Node}

/-- What is below a node does not begin before it. -/
theorem offset_le (h : n.Stands source ts i j) (hp : Positions source ts) (hm : m ∈ n.descendants) :
    n.span.offset ≤ m.span.offset := by
  obtain ⟨a, b, ha, -, hm⟩ := h.descendant hm
  obtain ⟨-, t, -, -, -, ht, -, hn, -⟩ := h.extent
  obtain ⟨-, u, -, -, -, hu, -, hm, -⟩ := hm.extent
  rw [hn, hm]
  exact (hp.le ht hu ha).1

/-- The members of a type begin behind it. -/
theorem members_behind {t : TypeDeclaration} (h : (type t).Stands source ts i j)
    (hp : Positions source ts) : ∀ m ∈ t.members, t.span.offset < (ofMember m).span.offset := by
  intro m hm
  obtain ⟨-, u, -, -, -, hu, -, hoffset, -⟩ := h.extent
  cases h with
  | plain _ _ hnests =>
    obtain ⟨a, v, ha, hv, hmember⟩ := hnests m hm
    rw [hmember, show t.span.offset = u.span.offset from hoffset]
    exact (hp.lt hu hv ha).2
  | mixed hholds => cases hholds

/-- What is declared below a node is declared in children that stand one behind the other. -/
theorem exists_declaring (h : n.Stands source ts i j) : ∃ cs : List Node, (∀ c ∈ cs, c ∈ n.children) ∧
    cs.Pairwise (Before source ts) ∧ n.children.flatMap declared = cs.flatMap declared := by
  cases h with
  | missing => exact ⟨[], List.forall_mem_nil _, .nil, rfl⟩
  | plain _ _ _ hc => exact ⟨n.children, fun _ hc => hc, hc.before, rfl⟩
  | @mixed _ _ _ es hholds _ _ hes hlists =>
    cases n with
    | unit u =>
      refine ⟨u.members.map ofDeclaration, fun c hc => List.mem_append_right _ hc,
        hes.before.sublist (hlists _ (by simp [childLists])), ?_⟩
      simp only [children, List.flatMap_append]
      rw [flatMap_declared using_ fun _ => rfl, flatMap_declared attributeSection fun _ => rfl]
      rfl
    | namespace_ n =>
      refine ⟨n.members.map ofDeclaration, fun c hc => List.mem_append_right _ hc,
        hes.before.sublist (hlists _ (by simp [childLists])), ?_⟩
      simp only [children, List.flatMap_append]
      rw [flatMap_declared using_ fun _ => rfl]
      rfl
    | _ => cases hholds

/-- A type begins before what is declared in it; no other node declares itself and more. -/
theorem offset_lt_declared (h : n.Stands source ts i j) (hp : Positions source ts) {d : Declaration}
    (hd : n.declares? = some d) : ∀ e ∈ n.children.flatMap declared, d.offset < e.offset := by
  intro e he
  cases n with
  | type t =>
    obtain rfl := Option.some_inj.1 hd
    have hbelow : (children (type t)).flatMap declared = Member.allDeclared t.members := by
      have := declared_eq (type t)
      rw [show declared (type t) = t.declared from rfl, TypeDeclaration.declared_eq] at this
      exact (List.cons.inj this).2.symm
    rw [hbelow, Member.allDeclared_eq] at he
    obtain ⟨c, hc, he⟩ := List.mem_flatMap.1 he
    obtain ⟨m, hm, rfl⟩ := List.mem_map.1 hc
    obtain ⟨_, _, -, -, hstands⟩ := h.child (List.mem_append_right _ (List.mem_map_of_mem hm))
    obtain ⟨x, hx, hoffset⟩ := exists_of_mem_declared he
    calc t.span.offset < (ofMember m).span.offset := h.members_behind hp m hm
      _ ≤ x.span.offset := hstands.offset_le hp hx
      _ = e.offset := hoffset
  | delegate u =>
    have hbelow : [] = (children (delegate u)).flatMap declared :=
      (List.cons.inj (declared_eq (delegate u))).2
    rw [← hbelow] at he
    cases he
  | _ => cases hd

/-- **What a node declares begins at offsets that grow.** -/
theorem declared_ordered (h : n.Stands source ts i j) (hp : Positions source ts) :
    n.declared.Pairwise fun d e => d.offset < e.offset := by
  induction n using descent generalizing i j with
  | step n ih =>
    obtain ⟨cs, hcs, hbefore, hdeclared⟩ := h.exists_declaring
    have hbelow : (n.children.flatMap declared).Pairwise fun d e => d.offset < e.offset := by
      rw [hdeclared, List.pairwise_flatMap]
      refine ⟨fun c hc => ?_, hbefore.imp fun hcc d hd e he => ?_⟩
      · obtain ⟨_, _, -, -, hstands⟩ := h.child (hcs c hc)
        exact ih c (hcs c hc) hstands
      · obtain ⟨x, hx, hxd⟩ := exists_of_mem_declared hd
        obtain ⟨y, hy, hye⟩ := exists_of_mem_declared he
        rw [← hxd, ← hye]
        exact (hcc.descendants x hx y hy).offset_lt hp
    rw [declared_eq]
    cases hd : n.declares? with
    | none => exact hbelow
    | some d => exact List.pairwise_cons.2 ⟨h.offset_lt_declared hp hd, hbelow⟩

end Stands

end Node

namespace SyntaxTree

/-- What a text declares begins at offsets that grow. -/
theorem declared_ordered (id : Nat) (path text : String) :
    ((parse id path text).root.declared.map Declaration.offset).Pairwise (· < ·) := by
  obtain ⟨_, _, h⟩ := nodes_stand id path text _ (root_mem_nodes _)
  exact List.pairwise_map.2 (h.declared_ordered (positions id path text))

/-- The types of a text begin at offsets that grow. -/
theorem types_ordered (id : Nat) (path text : String) :
    (parse id path text).root.types.Pairwise fun t u => t.span.offset < u.span.offset := by
  refine List.Pairwise.filterMap _ ?_ (List.pairwise_map.1 (declared_ordered id path text))
  intro d e hde t ht u hu
  cases d with
  | type t' =>
    cases e with
    | type u' =>
      obtain rfl := Option.some_inj.1 ht
      obtain rfl := Option.some_inj.1 hu
      exact hde
    | _ => cases hu
  | _ => cases ht

/-- A type begins before those nested in it. -/
theorem offset_lt_of_holds {id : Nat} {path text : String} {t u : TypeDeclaration}
    (ht : t ∈ (parse id path text).root.types) (hu : (Declaration.type t).Holds u) (hne : u ≠ t) :
    t.span.offset < u.span.offset := by
  rw [← typeDeclarations_eq, typeDeclarations] at ht
  obtain ⟨n, hn, hnt⟩ := List.mem_filterMap.1 ht
  obtain rfl : n = .type t := by
    cases n with
    | type _ => exact congrArg _ (Option.some_inj.1 hnt)
    | _ => cases hnt
  obtain ⟨_, _, h⟩ := nodes_stand id path text _ hn
  have hordered : t.declared.Pairwise fun d e => d.offset < e.offset :=
    h.declared_ordered (positions id path text)
  have hmem : .type u ∈ t.declared := hu.mem_declared
  rw [TypeDeclaration.declared_eq] at hordered hmem
  rcases List.mem_cons.1 hmem with heq | hmem
  · exact absurd (Declaration.type.inj heq) hne
  · exact (List.pairwise_cons.1 hordered).1 _ hmem

/-- **The types of a tree are listed once each, in the order of the text**, whatever errors the
    text has: the list is that of the recursion on the unit and holds the types that stand in its
    declarations at any depth; offsets grow along it, and a type comes before those nested in it.
    The walk with a stack, of which it is taken, lists below any node what the recursion on its
    children does. -/
theorem typeDeclarations_ordered (id : Nat) (path text : String) :
    (parse id path text).typeDeclarations = (parse id path text).root.types ∧
    (∀ t, t ∈ (parse id path text).typeDeclarations ↔
      ∃ d ∈ (parse id path text).root.members, d.Holds t) ∧
    ((parse id path text).typeDeclarations.Pairwise fun t u => t.span.offset < u.span.offset) ∧
    (∀ t ∈ (parse id path text).typeDeclarations, ∀ u, (Declaration.type t).Holds u → u ≠ t →
      [t, u].Sublist (parse id path text).typeDeclarations) ∧
    ∀ n : Node, n.descendants = n.preorder ∧ n.preorder = n :: n.children.flatMap Node.preorder := by
  have hordered := types_ordered id path text
  rw [typeDeclarations_eq]
  refine ⟨rfl, fun t => SourceUnit.mem_types, hordered, fun t ht u hu hne => ?_, fun n => ?_⟩
  · obtain ⟨d, hd, hdt⟩ := SourceUnit.mem_types.1 ht
    have hmem : u ∈ (parse id path text).root.types := SourceUnit.mem_types.2 ⟨d, hd, hdt.trans hu⟩
    have hlt := offset_lt_of_holds ht hu hne
    obtain ⟨as, bs, hsplit⟩ := List.append_of_mem ht
    rw [hsplit] at hordered hmem ⊢
    obtain ⟨-, hbehind, hacross⟩ := List.pairwise_append.1 hordered
    rcases List.mem_append.1 hmem with hu | hu
    · exact absurd (hacross u hu t List.mem_cons_self) (Nat.lt_asymm hlt)
    · rcases List.mem_cons.1 hu with rfl | hu
      · exact absurd rfl hne
      · exact (List.Sublist.cons_cons t (List.singleton_sublist.2 hu)).trans
          (List.sublist_append_right as _)
  · refine ⟨Node.descendants_eq_preorder n, ?_⟩
    rw [Node.preorder]
    simp

end SyntaxTree

end CommandModules

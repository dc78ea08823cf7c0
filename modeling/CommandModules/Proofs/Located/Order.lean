/-
  Command modules — walks in the order of the text.

  A walk meets parents before children, and children list by list.  The lists of a unit or a
  namespace are filled from entries that may come in any order; those of all other nodes are in
  the order of the text.

  * `Node.ListsOrdered`: the lists of children of a node are in the order of the text;
  * `SyntaxTree.walk_ordered`: a walk is in the order of the text exactly if so are the
    lists of the unit and the namespaces that it meets.
-/
import CommandModules.Proofs.Located.Tree
import Mathlib.Data.List.Pairwise

namespace CommandModules

/-! ## Lists in order -/

namespace Node

/-- What comes in an earlier list begins no later than what comes in a later one. -/
def ListsOrdered (n : Node) : Prop :=
  n.childLists.Pairwise fun l l' => ∀ m ∈ l, ∀ k ∈ l', m.span.offset ≤ k.span.offset

instance : DecidablePred ListsOrdered := fun n =>
  inferInstanceAs (Decidable (n.childLists.Pairwise fun l l' =>
    ∀ m ∈ l, ∀ k ∈ l', m.span.offset ≤ k.span.offset))

/-- The lists of entries have different kinds of nodes. -/
theorem childLists_ne {n : Node} (h : n.HoldsEntries) :
    n.childLists.Pairwise fun l l' => ∀ m ∈ l, ∀ k ∈ l', m ≠ k := by
  have hdeclaration (d : Declaration) : (∀ u, using_ u ≠ ofDeclaration d) ∧
      ∀ a, attributeSection a ≠ ofDeclaration d := by
    cases d <;> exact ⟨nofun, nofun⟩
  cases n with
  | unit u => simp [childLists, hdeclaration]
  | namespace_ n => simp [childLists, hdeclaration]
  | _ => cases h

/-- What is below a node stands where the node does. -/
theorem Stands.descendant {source : List Char} {ts : List Token} {i j : Nat} {n m : Node}
    (h : n.Stands source ts i j) (hm : m ∈ n.descendants) :
    ∃ a b, i ≤ a ∧ b ≤ j ∧ m.Stands source ts a b := by
  refine visit_forall (P := fun m => ∃ a b, i ≤ a ∧ b ≤ j ∧ m.Stands source ts a b)
    (fun k hk l hl => ?_) (List.forall_mem_singleton.2 ⟨i, j, Nat.le_refl i, Nat.le_refl j, h⟩) m hm
  obtain ⟨a, b, ha, hb, hk⟩ := hk
  obtain ⟨c, d, hc, hd, hl⟩ := hk.child hl
  exact ⟨c, d, ha.trans hc, hd.trans hb, hl⟩

/-- The one node stands before the other. -/
def Before (source : List Char) (ts : List Token) (n m : Node) : Prop :=
  ∃ a b c d, n.Stands source ts a b ∧ b ≤ c ∧ m.Stands source ts c d

namespace Before

variable {source : List Char} {ts : List Token} {n m : Node}

theorem offset_lt (h : Before source ts n m) (hp : Positions source ts) :
    n.span.offset < m.span.offset := by
  obtain ⟨_, _, _, _, hn, hle, hm⟩ := h
  exact (hn.before hm hp hle).2

/-- What is below a node stands before what is below a later one. -/
theorem descendants (h : Before source ts n m) :
    ∀ x ∈ n.descendants, ∀ y ∈ m.descendants, Before source ts x y := by
  intro x hx y hy
  obtain ⟨_, _, _, _, hn, hle, hm⟩ := h
  obtain ⟨a, b, -, hb, hstands⟩ := hn.descendant hx
  obtain ⟨c, d, hc, -, hstands'⟩ := hm.descendant hy
  exact ⟨a, b, c, d, hstands, hb.trans (hle.trans hc), hstands'⟩

end Before

end Node

namespace InTurn

variable {source : List Char} {ts : List Token} {i j : Nat} {ns : List Node} {n m : Node}

theorem before (h : InTurn (Node.Stands source ts) i j ns) : ns.Pairwise (Node.Before source ts) :=
  h.pairwise Node.Stands.le fun a b c d _ _ hx hb hy => ⟨a, b, c, d, hx, hb, hy⟩

/-- Of two different nodes one stands before the other. -/
theorem before_or_after (h : InTurn (Node.Stands source ts) i j ns) (hn : n ∈ ns) (hm : m ∈ ns)
    (hne : n ≠ m) : Node.Before source ts n m ∨ Node.Before source ts m n := by
  have : Std.Symm fun n m => Node.Before source ts n m ∨ Node.Before source ts m n :=
    ⟨fun _ _ => Or.symm⟩
  have heither : ns.Pairwise fun n m => Node.Before source ts n m ∨ Node.Before source ts m n :=
    h.before.imp Or.inl
  exact heither.forall hn hm hne

end InTurn

namespace Node

namespace Stands

variable {source : List Char} {ts : List Token} {i j : Nat} {n : Node}

/-- The walks below the children are in order, one after another, exactly if the lists of entries
    are. -/
theorem children_ordered (h : n.Stands source ts i j) (hp : Positions source ts) :
    (n.children.Pairwise fun c d =>
      ∀ x ∈ c.descendants, ∀ y ∈ d.descendants, x.span.offset ≤ y.span.offset) ↔
      (n.HoldsEntries → n.ListsOrdered) := by
  have pairwise {ns : List Node} (h : InTurn (Node.Stands source ts) i j ns) : ns.Pairwise fun c d =>
      ∀ x ∈ c.descendants, ∀ y ∈ d.descendants, x.span.offset ≤ y.span.offset :=
    h.before.imp fun hcd x hx y hy => ((hcd.descendants x hx y hy).offset_lt hp).le
  have ordered (h : n.childLists.flatten.Pairwise fun c d =>
      ∀ x ∈ c.descendants, ∀ y ∈ d.descendants, x.span.offset ≤ y.span.offset) : n.ListsOrdered :=
    (List.pairwise_flatten.1 h).2.imp fun hl m hm k hk =>
      hl m hm k hk m (self_mem_descendants m) k (self_mem_descendants k)
  cases h with
  | missing => exact iff_of_true .nil nofun
  | plain _ _ _ hc =>
    exact iff_of_true (pairwise hc) fun _ => ordered (flatten_childLists n ▸ pairwise hc)
  | mixed hholds _ _ hes hlists =>
    rw [← flatten_childLists]
    refine ⟨fun h _ => ordered h, fun h => List.pairwise_flatten.2 ⟨fun l hl =>
      (pairwise hes).sublist (hlists l hl), ?_⟩⟩
    refine (List.Pairwise.and (h hholds) (childLists_ne hholds)).imp_of_mem ?_
    intro l l' hl hl' hboth c hc d hd x hx y hy
    obtain ⟨hle, hne⟩ := hboth
    rcases hes.before_or_after ((hlists l hl).mem hc) ((hlists l' hl').mem hd) (hne c hc d hd) with
      hcd | hdc
    · exact ((hcd.descendants x hx y hy).offset_lt hp).le
    · exact absurd (hle c hc d hd) (Nat.not_le.2 (hdc.offset_lt hp))

/-- **A walk is in the order of the text exactly if the lists of entries are** that it meets. -/
theorem descendants_ordered (h : n.Stands source ts i j) (hp : Positions source ts) :
    (n.descendants.Pairwise fun m k => m.span.offset ≤ k.span.offset) ↔
      ∀ m ∈ n.descendants, m.HoldsEntries → m.ListsOrdered := by
  induction n using descent generalizing i j with
  | step n ih =>
    have hfirst : ∀ c ∈ n.children, ∀ m ∈ c.descendants, n.span.offset ≤ m.span.offset := by
      intro c hc m hm
      obtain ⟨a, b, ha, hb, hstands⟩ := h.child hc
      obtain ⟨a', b', ha', hb', hstands'⟩ := hstands.descendant hm
      exact (h.within hstands' hp (ha.trans ha') (hb'.trans hb) (List.ne_nil_of_mem hc)).1
    have hbelow : (∀ c ∈ n.children, c.descendants.Pairwise fun m k => m.span.offset ≤ k.span.offset) ↔
        ∀ c ∈ n.children, ∀ m ∈ c.descendants, m.HoldsEntries → m.ListsOrdered :=
      forall₂_congr fun c hc => by
        obtain ⟨_, _, -, -, hc'⟩ := h.child hc
        exact ih c hc hc'
    rw [descendants_eq, List.pairwise_cons, List.forall_mem_cons, List.pairwise_flatMap,
      List.forall_mem_flatMap, List.forall_mem_flatMap, hbelow, children_ordered h hp]
    exact ⟨fun ⟨_, hb, hl⟩ => ⟨hl, hb⟩, fun ⟨hl, hb⟩ => ⟨hfirst, hb, hl⟩⟩

end Stands

end Node

/-- **A walk through a tree, or through a part of it, is in the order of the text exactly if it
    meets no unit or namespace whose lists are out of order**: in each of them the using
    directives come first, then the attributes, then the declarations.  Elsewhere no child begins
    before those of the lists before its own. -/
theorem SyntaxTree.walk_ordered (id : Nat) (path text : String) :
    ∀ n ∈ (parse id path text).nodes,
      (n.descendants.Pairwise fun m k => m.span.offset ≤ k.span.offset) ↔
        ∀ m ∈ n.descendants, m.HoldsEntries → m.ListsOrdered := by
  intro n hn
  obtain ⟨i, j, h⟩ := nodes_stand id path text n hn
  exact h.descendants_ordered (positions id path text)

/-- A directive behind a type is no error, and is met before it. -/
theorem SyntaxTree.walk_unordered :
    (parse 0 "Sample.cs" "class A { } using System;").errors = [] ∧
      ¬ (parse 0 "Sample.cs" "class A { } using System;").nodes.Pairwise fun m k =>
        m.span.offset ≤ k.span.offset := by
  refine ⟨by decide +kernel, fun h => ?_⟩
  have hlists := (walk_ordered 0 "Sample.cs" "class A { } using System;" _ (root_mem_nodes _)).1 h
    _ (Node.self_mem_descendants _) ⟨⟩
  exact absurd hlists (by decide +kernel)

end CommandModules

/-
  Command modules — spans in a tree.

  Where a node stands among the tokens decides where its span lies in the text.

  * `Positions source ts`: the tokens lie in the text, each behind the one before;
  * `Node.Stands.inside`, `Node.Stands.within`, `Node.Stands.before`: so a node lies in the text,
    a child in its parent, and a node behind those that stand before it;
  * `SyntaxTree.nodes_located`: the spans and texts of all nodes of a tree are faithful.
-/
import CommandModules.Proofs.Located.Unit

namespace CommandModules

open Text

/-- The tokens lie in the text, each of them behind the one before, and only the last one may be
    empty. -/
structure Positions (source : List Char) (ts : List Token) : Prop where
  inside : ∀ t ∈ ts, t.span.Inside source
  ordered : ts.Pairwise fun t u => t.span.stop ≤ u.span.offset
  filled : ∀ t ∈ ts.dropLast, t.span.offset < t.span.stop

theorem SyntaxTree.positions (id : Nat) (path text : String) :
    Positions text.toList (parse id path text).tokens where
  inside _ := (ParserState.ofText_good text).inside
  ordered := (ParserState.ofText_good text).ordered
  filled t ht := by
    have htokens : (parse id path text).tokens =
        (ParserState.ofText text).after ++ [(ParserState.ofText text).eof] := rfl
    rw [htokens, List.dropLast_concat] at ht
    exact ParserState.ofText_filled ht

namespace Positions

variable {source : List Char} {ts : List Token} {i j : Nat} {t u : Token}

/-- A token before the last one is not empty. -/
theorem offset_lt (h : Positions source ts) (ht : ts[i]? = some t) (hi : i + 1 < ts.length) :
    t.span.offset < t.span.stop := by
  refine h.filled t (List.mem_of_getElem? (i := i) ?_)
  rw [List.getElem?_dropLast, if_pos (Nat.lt_sub_of_add_lt hi), ht]

theorem lt (h : Positions source ts) (ht : ts[i]? = some t) (hu : ts[j]? = some u) (hij : i < j) :
    t.span.stop ≤ u.span.offset ∧ t.span.offset < u.span.offset := by
  obtain ⟨hj, rfl⟩ := List.getElem?_eq_some_iff.1 hu
  have hfilled := h.offset_lt ht (by omega)
  obtain ⟨hi, rfl⟩ := List.getElem?_eq_some_iff.1 ht
  have hle := List.pairwise_iff_getElem.1 h.ordered i j hi hj hij
  exact ⟨hle, hfilled.trans_le hle⟩

theorem le (h : Positions source ts) (ht : ts[i]? = some t) (hu : ts[j]? = some u) (hij : i ≤ j) :
    t.span.offset ≤ u.span.offset ∧ t.span.stop ≤ u.span.stop :=
  offset_le_of_ordered h.ordered ht hu hij

end Positions

namespace Node.Stands

variable {source : List Char} {ts : List Token} {i j a b : Nat} {n m : Node}

theorem inside (h : n.Stands source ts i j) (hp : Positions source ts) : n.span.Inside source := by
  obtain ⟨k, t, u, -, -, ht, hu, ho, hs⟩ := h.extent
  have ht := hp.inside t (List.mem_of_getElem? ht)
  have hu := hp.inside u (List.mem_of_getElem? hu)
  refine ⟨ho ▸ ht.1, ?_⟩
  rcases hs with hs | ⟨-, hs⟩
  · exact hs ▸ hu.2
  · exact hs ▸ ht.1

/-- What stands in a part of the tokens of a node lies in the node. -/
theorem within (h : n.Stands source ts i j) (hm : m.Stands source ts a b) (hp : Positions source ts)
    (ha : i ≤ a) (hb : b ≤ j) (hne : n.children ≠ []) :
    n.span.offset ≤ m.span.offset ∧ m.span.stop ≤ n.span.stop := by
  obtain ⟨k, t, u, -, rfl, ht, hu, ho, hs⟩ := h.extent
  obtain ⟨k', t', u', hk', rfl, ht', hu', ho', hs'⟩ := hm.extent
  have hs := hs.resolve_right fun h => hne h.1
  have := hp.le ht ht' ha
  have := hp.le hu' hu (Nat.le_of_succ_le_succ hb)
  have hle : t'.span.offset ≤ u'.span.stop := (hp.le ht' hu' hk').1.trans (Nat.le_add_right _ _)
  refine ⟨by omega, ?_⟩
  rcases hs' with hs' | ⟨-, hs'⟩ <;> omega

/-- A node that stands behind another one lies behind it. -/
theorem before (h : n.Stands source ts i j) (hm : m.Stands source ts a b) (hp : Positions source ts)
    (hj : j ≤ a) : n.span.stop ≤ m.span.offset ∧ n.span.offset < m.span.offset := by
  obtain ⟨k, t, u, hk, rfl, ht, hu, ho, hs⟩ := h.extent
  obtain ⟨-, t', -, -, -, ht', -, ho', -⟩ := hm.extent
  have hlast := hp.lt hu ht' hj
  have hfirst := hp.lt ht ht' (by omega)
  refine ⟨?_, by omega⟩
  rcases hs with hs | ⟨-, hs⟩ <;> omega

/-- Each list of children is in the order of the text. -/
theorem childLists_pairwise (h : n.Stands source ts i j) (hp : Positions source ts) :
    ∀ l ∈ n.childLists, l.Pairwise fun m k =>
      m.span.stop ≤ k.span.offset ∧ m.span.offset < k.span.offset := by
  intro l hl
  have hsub : l.Sublist n.children := flatten_childLists n ▸ List.sublist_flatten_of_mem hl
  have pairwise {ns : List Node} (h : InTurn (Node.Stands source ts) i j ns) :=
    h.pairwise Node.Stands.le fun _ _ _ _ _ _ hx hb hy => hx.before hy hp hb
  cases h with
  | missing => cases hl
  | plain _ _ _ hc => exact (pairwise hc).sublist hsub
  | mixed _ _ _ hes hlists => exact (pairwise hes).sublist (hlists l hl)

/-- What a node carries is cut from the text. -/
theorem quotes (h : n.Stands source ts i j) : n.Quotes source ts := by
  cases h with
  | @missing _ _ a _ ha =>
    have hnone : (attributeArgument a).excerpts = [] := by simp [excerpts, ExprSyntax.excerpts?, ha]
    exact (hnone ▸ .nil : AllCut source ts (attributeArgument a).excerpts)
  | plain _ hq => exact hq
  | mixed _ _ hq => exact hq

end Node.Stands

theorem Excerpt.IsCut.slice? {text : String} {ts : List Token} {e : Excerpt}
    (h : e.IsCut text.toList ts) : e.span.slice? text = some e.text := by
  obtain ⟨i, j, -, -, h⟩ := h
  rw [Span.slice?, h, Option.map_some, String.ofList_toList]

/-- A clause has its text behind the colon, any other node those that it carries. -/
theorem Node.Quotes.cut {source : List Char} {ts : List Token} {n : Node} (h : n.Quotes source ts) :
    AllCut source ts n.excerpts ∧ ∀ c, n = .constraintClause c → c.IsCut source ts := by
  cases n with
  | constraintClause c =>
    refine ⟨.nil, ?_⟩
    rintro _ ⟨⟩
    exact h
  | _ => exact ⟨h, nofun⟩

/-- **Spans and texts are faithful**, whether or not the text was read without errors.  Each node
    lies in the text, between two characters, and in its parent; the nodes of one list of children
    follow one another without an overlap; types, names and expressions carry the text that their
    spans cover, and constraint clauses what stands behind their colons. -/
theorem SyntaxTree.nodes_located (id : Nat) (path text : String) :
    ∀ n ∈ (parse id path text).nodes,
      n.span.Inside text.toList ∧
      (∀ m ∈ n.children, n.span.offset ≤ m.span.offset ∧ m.span.stop ≤ n.span.stop) ∧
      (∀ l ∈ n.childLists, l.Pairwise fun m k =>
        m.span.stop ≤ k.span.offset ∧ m.span.offset < k.span.offset) ∧
      (∀ e ∈ n.excerpts, e.span.slice? text = some e.text) ∧
      ∀ c, n = .constraintClause c → c.IsCut text.toList (parse id path text).tokens := by
  intro n hn
  obtain ⟨i, j, h⟩ := nodes_stand id path text n hn
  have hp := positions id path text
  obtain ⟨hexcerpts, hclause⟩ := h.quotes.cut
  refine ⟨h.inside hp, fun m hm => ?_, h.childLists_pairwise hp, fun e he => (hexcerpts e he).slice?,
    hclause⟩
  obtain ⟨a, b, ha, hb, hm'⟩ := h.child hm
  exact h.within hm' hp ha hb (List.ne_nil_of_mem hm)

/-- The two types of a text lie in its unit, which covers all of it. -/
theorem SyntaxTree.nodes_located_sample :
    let t := parse 0 "Sample.cs" "class A { } class B<T> where T : A { }"
    Node.unit t.root ∈ t.nodes ∧ t.root.span.stop = 38 ∧ (Node.unit t.root).children.length = 2 ∧
      ∀ m ∈ (Node.unit t.root).children, 0 ≤ m.span.offset ∧ m.span.stop ≤ 38 := by
  have hstop : (Node.unit (parse 0 "Sample.cs" "class A { } class B<T> where T : A { }").root).span.stop =
      38 := by decide +kernel
  refine ⟨root_mem_nodes _, hstop, by decide +kernel, fun m hm => ?_⟩
  have hlocated := nodes_located 0 "Sample.cs" "class A { } class B<T> where T : A { }" _ (root_mem_nodes _)
  exact ⟨Nat.zero_le _, hstop ▸ (hlocated.2.1 m hm).2⟩

end CommandModules

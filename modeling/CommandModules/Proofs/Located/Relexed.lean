/-
  Command modules — texts that are read again.

  A text that is cut from a source at the ends of tokens is read as these tokens: no token of the
  source was told from what stands before or behind it.

  * `tokenize_stretch`: so is the text from a token of a source through a later one;
  * `SyntaxTree.tokensIn`: the tokens of a tree that begin in a span, and
    `Span.Covers.tokens_eq`, which ones these are;
  * `texts_relex`: the texts that the nodes of a tree carry are read as the tokens in their spans.
-/
import CommandModules.Proofs.Located.Tree
import CommandModules.Proofs.Taken.Unit

namespace CommandModules

open Text

/-! ## Stretches of a text -/

section
variable {α : Type} {l : List α} {i k : Nat} {a : α}

theorem head?_stretch (hi : i ≤ k) (h : l[i]? = some a) : ((l.take (k + 1)).drop i).head? = some a := by
  rw [List.head?_drop, List.getElem?_take_of_lt (Nat.lt_succ_of_le hi), h]

theorem getLast?_stretch (hi : i ≤ k) (h : l[k]? = some a) :
    ((l.take (k + 1)).drop i).getLast? = some a := by
  obtain ⟨hk, -⟩ := List.getElem?_eq_some_iff.1 h
  have hlen : ¬ (l.take (k + 1)).length ≤ i := by
    rw [List.length_take]
    omega
  rw [List.getLast?_drop, if_neg hlen, List.getLast?_take, if_neg (Nat.succ_ne_zero k),
    Nat.add_sub_cancel, h, Option.some_or]

theorem stretch_split (hi : i ≤ k) :
    l = l.take i ++ ((l.take (k + 1)).drop i ++ l.drop (k + 1)) := by
  have htake : l.take i = (l.take (k + 1)).take i := by
    rw [List.take_take, Nat.min_eq_left (Nat.le_succ_of_le hi)]
  rw [htake, ← List.append_assoc, List.take_append_drop, List.take_append_drop]

theorem exists_of_mem_take (h : a ∈ l.take i) : ∃ n, n < i ∧ l[n]? = some a := by
  obtain ⟨n, hn⟩ := List.mem_iff_getElem?.1 h
  rw [List.getElem?_take] at hn
  split at hn
  · exact ⟨n, ‹_›, hn⟩
  · cases hn

theorem exists_of_mem_drop (h : a ∈ l.drop i) : ∃ n, i ≤ n ∧ l[n]? = some a := by
  obtain ⟨n, hn⟩ := List.mem_iff_getElem?.1 h
  rw [List.getElem?_drop] at hn
  exact ⟨i + n, Nat.le_add_right i n, hn⟩

theorem exists_of_mem_stretch (h : a ∈ (l.take (k + 1)).drop i) :
    ∃ n, i ≤ n ∧ n ≤ k ∧ l[n]? = some a := by
  obtain ⟨n, hi, hn⟩ := exists_of_mem_drop h
  rw [List.getElem?_take] at hn
  split at hn
  · exact ⟨n, hi, Nat.le_of_lt_succ ‹_›, hn⟩
  · cases hn

/-- A test that just the items of a stretch pass leaves the stretch. -/
theorem filter_stretch {p : α → Bool} (hi : i ≤ k)
    (hp : ∀ n a, l[n]? = some a → (p a = true ↔ i ≤ n ∧ n ≤ k)) :
    l.filter p = (l.take (k + 1)).drop i := by
  have hbefore : (l.take i).filter p = [] := by
    refine List.filter_eq_nil_iff.2 fun a ha => ?_
    obtain ⟨n, hn, ha⟩ := exists_of_mem_take ha
    rw [hp n a ha]
    omega
  have hwithin : ((l.take (k + 1)).drop i).filter p = (l.take (k + 1)).drop i := by
    refine List.filter_eq_self.2 fun a ha => ?_
    obtain ⟨n, hn, hk, ha⟩ := exists_of_mem_stretch ha
    exact (hp n a ha).2 ⟨hn, hk⟩
  have hbehind : (l.drop (k + 1)).filter p = [] := by
    refine List.filter_eq_nil_iff.2 fun a ha => ?_
    obtain ⟨n, hn, ha⟩ := exists_of_mem_drop ha
    rw [hp n a ha]
    omega
  calc l.filter p
      = (l.take i).filter p ++ (((l.take (k + 1)).drop i).filter p ++ (l.drop (k + 1)).filter p) := by
        rw [← List.filter_append, ← List.filter_append, ← stretch_split hi]
    _ = (l.take (k + 1)).drop i := by
        rw [hbefore, hwithin, hbehind, List.nil_append, List.append_nil]

end

/-- **The text from a token through a later one is read as the tokens between them**, if all of
    them are tokens. -/
theorem tokenize_stretch {source : String} {i k : Nat} {t u : Token} (hi : i ≤ k)
    (ht : (tokenize source).body[i]? = some t) (hu : (tokenize source).body[k]? = some u)
    (he : ∀ v ∈ ((tokenize source).body.take (k + 1)).drop i, v.kind ≠ .error) :
    ∃ text : String, between? t.span.offset u.span.stop source.toList = some text.toList ∧
      erase (tokenize text).tokens =
        erase (((tokenize source).body.take (k + 1)).drop i) ++ [⟨.eof, "", default⟩] ∧
      (tokenize text).errors = [] := by
  obtain ⟨cs, hcs, hspells⟩ :=
    spells_between (stretch_split hi) he (head?_stretch hi ht) (getLast?_stretch hi hu)
  refine ⟨String.ofList cs, by rw [hcs, String.toList_ofList], Spells.tokenize_eq ?_⟩
  rwa [String.toList_ofList]

/-- What stands before the `eof` are other tokens. -/
theorem tokenize_body_of_ne_eof {source : String} {k : Nat} {u : Token}
    (hu : (tokenize source).tokens[k]? = some u) (hk : u.kind ≠ .eof) :
    (tokenize source).body[k]? = some u := by
  rw [Lexed.tokens] at hu
  rcases Nat.lt_or_ge k (tokenize source).body.length with hlt | hge
  · rwa [List.getElem?_append_left hlt] at hu
  · have : u = (tokenize source).eof := by
      rw [List.getElem?_append_right hge] at hu
      exact List.mem_singleton.1 (List.mem_of_getElem? hu)
    exact absurd (this ▸ congrArg Token.kind (tokenize_ends source).1) hk

/-! ## The tokens in a span -/

/-- The tokens of the tree that begin in the span. -/
def SyntaxTree.tokensIn (t : SyntaxTree) (s : Span) : List Token :=
  t.tokens.filter fun v => s.offset ≤ v.span.offset && v.span.offset < s.stop

/-- A span that covers tokens has just these tokens in it. -/
theorem Span.Covers.tokens_eq {source : List Char} {ts : List Token} {i j : Nat} {s : Span}
    (h : s.Covers ts i j) (hp : Positions source ts) (hlast : j < ts.length) :
    (ts.filter fun v => s.offset ≤ v.span.offset && v.span.offset < s.stop) =
      (ts.take j).drop i := by
  cases h with
  | @through m t u _ hi ht hu ho hs =>
    have hfilled := hp.offset_lt hu hlast
    refine filter_stretch hi fun n v hv => ?_
    simp only [Bool.and_eq_true, decide_eq_true_eq]
    rcases Nat.lt_or_ge n i with hn | hn
    · have := (hp.lt hv ht hn).2
      omega
    rcases Nat.lt_or_ge m n with hm | hm
    · have := (hp.lt hu hv hm).1
      omega
    · have := (hp.le ht hv hn).1
      have := (hp.le hv hu hm).1
      omega

section
variable {id : Nat} {path text : String}

/-- Nothing of a text without errors is left out of its tree. -/
theorem SyntaxTree.tokens_eq (h : (tokenize text).errors = []) :
    (parse id path text).tokens = (tokenize text).tokens :=
  congrArg (· ++ [_]) (ofText_after h)

/-- A text that ends with a span, and begins with a token in it, is read as the tokens from there. -/
theorem Span.Covers.relexes {i f j : Nat} {s : Span} {t : Token} {cut : String}
    (h : s.Covers (SyntaxTree.parse id path text).tokens i j)
    (hl : (tokenize text).errors = []) (hj : j < (SyntaxTree.parse id path text).tokens.length)
    (hf : f < j) (ht : (SyntaxTree.parse id path text).tokens[f]? = some t)
    (hcut : between? t.span.offset s.stop text.toList = some cut.toList) :
    erase (tokenize cut).tokens =
        erase (((SyntaxTree.parse id path text).tokens.take j).drop f) ++ [⟨.eof, "", default⟩] ∧
      (tokenize cut).errors = [] := by
  rw [SyntaxTree.tokens_eq hl] at h hj ht ⊢
  cases h with
  | @through k _ u _ hi _ hu _ hs =>
    have hlen : (tokenize text).tokens.length = (tokenize text).body.length + 1 := by
      simp [Lexed.tokens]
    have hbody : (tokenize text).tokens.take (k + 1) = (tokenize text).body.take (k + 1) :=
      List.take_append_of_le_length (by omega)
    rw [Lexed.tokens, List.getElem?_append_left (by omega)] at ht hu
    obtain ⟨slice, hslice, hread⟩ := tokenize_stretch (Nat.le_of_lt_succ hf) ht hu fun v hv =>
      tokenize_ne_error hl v (List.mem_of_mem_take (List.mem_of_mem_drop hv))
    rw [hs, hslice, Option.some_inj, String.toList_inj] at hcut
    rw [hbody, ← hcut]
    exact hread

theorem Excerpt.IsCut.relexes {e : Excerpt}
    (h : e.IsCut text.toList (SyntaxTree.parse id path text).tokens)
    (hl : (tokenize text).errors = []) :
    erase (tokenize e.text).tokens =
        erase ((SyntaxTree.parse id path text).tokensIn e.span) ++ [⟨.eof, "", default⟩] ∧
      (tokenize e.text).errors = [] := by
  obtain ⟨i, j, hj, hc, hcut⟩ := h
  rw [SyntaxTree.tokensIn, hc.tokens_eq (SyntaxTree.positions id path text) hj]
  obtain ⟨t, ht⟩ : ∃ t, (SyntaxTree.parse id path text).tokens[i]? = some t := by
    cases hc with
    | through _ ht => exact ⟨_, ht⟩
  rw [Span.sliceChars?_eq, hc.offset_eq ht] at hcut
  exact hc.relexes hl hj hc.lt ht hcut

/-- The constraints are read as the tokens of the clause behind the word, the name and the colon. -/
theorem ConstraintClause.IsCut.relexes {c : ConstraintClause}
    (h : c.IsCut text.toList (SyntaxTree.parse id path text).tokens)
    (hl : (tokenize text).errors = []) :
    erase (tokenize c.constraints).tokens =
        erase (((SyntaxTree.parse id path text).tokensIn c.span).drop 3) ++ [⟨.eof, "", default⟩] ∧
      (tokenize c.constraints).errors = [] := by
  obtain ⟨i, j, colon, first, hj, hc, hlt, -, -, hfirst, hcut⟩ := h
  rw [SyntaxTree.tokensIn, hc.tokens_eq (SyntaxTree.positions id path text) hj, List.drop_drop]
  exact hc.relexes hl hj hlt hfirst hcut

end

/-- **The ends of tokens are places to begin and to end.**  The text from a token through a later
    one is read as the tokens between them, if all of these are tokens, without an error.  So each
    text that a node of a tree carries, if there are no errors, is read as the tokens in its span;
    of a constraint clause, as those behind its colon. -/
theorem texts_relex (text : String) :
    (∀ i j t u, i ≤ j → (tokenize text).tokens[i]? = some t → (tokenize text).tokens[j]? = some u →
      (∀ v ∈ ((tokenize text).tokens.take (j + 1)).drop i, v.kind ≠ .error ∧ v.kind ≠ .eof) →
      ∃ slice : String, between? t.span.offset u.span.stop text.toList = some slice.toList ∧
        erase (tokenize slice).tokens =
          erase (((tokenize text).tokens.take (j + 1)).drop i) ++ [⟨.eof, "", default⟩] ∧
        (tokenize slice).errors = []) ∧
    ∀ id path, (SyntaxTree.parse id path text).errors = [] →
      ∀ n ∈ (SyntaxTree.parse id path text).nodes,
        (∀ e ∈ n.excerpts, erase (tokenize e.text).tokens =
            erase ((SyntaxTree.parse id path text).tokensIn e.span) ++ [⟨.eof, "", default⟩] ∧
          (tokenize e.text).errors = []) ∧
        ∀ c, n = .constraintClause c → erase (tokenize c.constraints).tokens =
            erase (((SyntaxTree.parse id path text).tokensIn c.span).drop 3) ++
              [⟨.eof, "", default⟩] ∧
          (tokenize c.constraints).errors = [] := by
  refine ⟨fun i j t u hij ht hu hk => ?_, fun id path he n hn => ?_⟩
  · have hlast : u ∈ ((tokenize text).tokens.take (j + 1)).drop i :=
      List.mem_of_mem_getLast? (getLast?_stretch hij hu)
    have hu := tokenize_body_of_ne_eof hu (hk u hlast).2
    obtain ⟨hj, -⟩ := List.getElem?_eq_some_iff.1 hu
    rw [Lexed.tokens, List.getElem?_append_left (by omega)] at ht
    rw [Lexed.tokens, List.take_append_of_le_length (by omega)] at hk ⊢
    exact tokenize_stretch hij ht hu fun v hv => (hk v hv).1
  · obtain ⟨hl, -⟩ := List.append_eq_nil_iff.1 he
    have hl := List.map_eq_nil_iff.1 hl
    obtain ⟨i, j, h⟩ := SyntaxTree.nodes_stand id path text n hn
    obtain ⟨hexcerpts, hclause⟩ := h.quotes.cut
    exact ⟨fun e he => (hexcerpts e he).relexes hl, fun c hc => (hclause c hc).relexes hl⟩

/-- The name of a directive, with the blanks in it. -/
theorem texts_relex_name :
    (∃ slice : String, between? 6 11 "using A . B;".toList = some slice.toList ∧
      erase (tokenize slice).tokens = [⟨.identifier, "A", default⟩, ⟨.punct .dot, ".", default⟩,
        ⟨.identifier, "B", default⟩, ⟨.eof, "", default⟩]) ∧
    ((Node.unit (SyntaxTree.parse 0 "Sample.cs" "using A . B;").root).children.flatMap
      Node.excerpts).map Excerpt.text = ["A . B"] ∧
    ∀ n ∈ (Node.unit (SyntaxTree.parse 0 "Sample.cs" "using A . B;").root).children,
      ∀ e ∈ n.excerpts, (tokenize e.text).errors = [] := by
  obtain ⟨hstretch, htree⟩ := texts_relex "using A . B;"
  refine ⟨?_, by decide +kernel, fun n hn e he => ?_⟩
  · obtain ⟨slice, hslice, hread, -⟩ := hstretch 1 3 ⟨.identifier, "A", ⟨6, 1, 7, 1⟩⟩
      ⟨.identifier, "B", ⟨10, 1, 11, 1⟩⟩ (by decide) (by decide +kernel) (by decide +kernel)
      (by decide +kernel)
    exact ⟨slice, hslice, hread.trans (by decide +kernel)⟩
  · have hmem := SyntaxTree.children_mem_nodes (SyntaxTree.root_mem_nodes _) hn
    exact ((htree 0 "Sample.cs" (by decide +kernel) n hmem).1 e he).2

end CommandModules

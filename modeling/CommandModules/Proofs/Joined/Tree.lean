/-
  Command modules — the tree of two texts, one below the other.

  * `ofText_joined`: before it is read, the longer text has the first one within it;
  * `entriesOf_joined`: behind the entries of the first text come those of the second;
  * `parse_joined`: so do the using directives, attributes and declarations of the trees.
-/
import CommandModules.Proofs.Joined.Sequence
import CommandModules.Proofs.Joined.Tokens
import CommandModules.Proofs.Safe.Unit
import CommandModules.Proofs.Taken.Unit

namespace CommandModules

open ParserState

variable {s s' t : ParserState}

/-! ## Two texts -/

/-- What stands around the text of `s` when that of `t` follows on the next line. -/
def Frame.above (s t : ParserState) : Frame :=
  ⟨[], '\n' :: t.source, [], shift (.over (s.source ++ ['\n'])) t.after,
    shift (.over (s.source ++ ['\n'])) t.eof⟩

/-- What stands around the text of `t` when that of `s` was read on the lines before. -/
def Frame.below (s t : ParserState) : Frame :=
  ⟨s.source ++ ['\n'], [], s.before, [], shift (.over (s.source ++ ['\n'])) t.eof⟩

theorem Frame.distance_above (s t : ParserState) : (Frame.above s t).distance = .zero :=
  rfl

/-- Where the upper text ends, the lower one begins. -/
theorem within_above (ho : s.Onward s') (ha : s'.after = []) (ht : t.before = [])
    (he : s'.errors = t.errors) (hf : s'.faults = t.faults) :
    s'.within (.above s t) = t.within (.below s' t) := by
  rw [within, within, Frame.distance_above, shift_zero, shift_zero, ParserState.mk.injEq]
  refine ⟨?_, ?_, ?_, ?_, he, hf⟩
  · show s'.source ++ '\n' :: t.source = s'.source ++ ['\n'] ++ (t.source ++ [])
    rw [List.append_nil, List.append_assoc, List.singleton_append]
  · rw [ht]
    exact List.append_nil _
  · rw [ha, Frame.above, ← ho.source_eq]
    exact (List.append_nil _).symm
  · rw [Frame.above, ← ho.source_eq]
    rfl

/-- Before it is read, the longer text has the first one within it. -/
theorem ofText_joined {a b : String} (ha : (tokenize a).errors = []) (hb : (tokenize b).errors = [])
    (hmark : b.toList.head? ≠ some '\uFEFF') :
    ofText (a ++ "\n" ++ b) = (ofText a).within (.above (ofText a) (ofText b)) := by
  have htokens := tokenize_joined ha hb hmark
  have hafter := @ofText_after (a ++ "\n" ++ b) (by rw [htokens])
  rw [htokens, ← ofText_after ha, ← ofText_after hb] at hafter
  rw [within, Frame.distance_above, shift_zero, shift_zero]
  show ParserState.mk _ _ (ofText (a ++ "\n" ++ b)).after _ _ _ = _
  rw [hafter, htokens, String.toList_append, String.toList_append, List.append_assoc]
  rfl

/-! ## Entries -/

namespace Parser

/-- The entries of a whole text, and the state behind them. -/
def entriesOf (s : ParserState) : List Entry × ParserState :=
  (loopWithin (entryStep (entriesWithin s.after.length) false) (s.after.length + 1) []).run s

theorem sourceUnit_run (s : ParserState) : sourceUnit.run s =
    (⟨Entry.usings (entriesOf s).1, Entry.globalAttributes (entriesOf s).1,
      Entry.declarations (entriesOf s).1, (entriesOf s).2.spanFrom s.peek.span⟩,
      (entriesOf s).2) :=
  rfl

theorem entriesOf_onward (s : ParserState) : s.Onward (entriesOf s).2 :=
  entries_onward (rfl : _ = ((entriesOf s).1, (entriesOf s).2))

/-- The entries of a text are the same behind another one. -/
theorem entriesOf_within {w : Frame} {depth m : Nat} (hdepth : s.after.length ≤ depth)
    (hm : s.after.length < m) (hq : s.Quiet (entriesOf s).2) (ha : w.after = [])
    (heof : w.eof = shift w.distance s.eof) (hk : s.eof.kind = .eof) (es : List Entry) :
    (loopWithin (entryStep (entriesWithin depth) false) m es).run (s.within w) =
      (es ++ shift w.distance (entriesOf s).1, (entriesOf s).2.within w) := by
  have ho := entriesOf_onward s
  have hrun := entries_within hdepth hm (rfl : _ = ((entriesOf s).1, (entriesOf s).2)) hq
    (.ended ha (ho.eof_eq ▸ heof) (ho.eof_eq ▸ hk))
  obtain ⟨fs, hfs, happend⟩ := entries_append hrun ⟨hq.1, hq.2⟩
  rw [happend, hfs, List.nil_append]

/-- **Behind the entries of the first text come those of the second.** -/
theorem entriesOf_joined (hq : s.Quiet (entriesOf s).2) (hq' : t.Quiet (entriesOf t).2)
    (hends : s.Ends (.above s t)) (hbody : ∀ u ∈ s.after, u.kind ≠ .eof)
    (hgood : ∀ x, .declaration x ∈ (entriesOf s).1 → x.isFileScoped = false)
    (ht : t.before = []) (he : s.errors = t.errors) (hf : s.faults = t.faults)
    (hk : t.eof.kind = .eof) :
    entriesOf (s.within (.above s t)) =
      ((entriesOf s).1 ++ shift (.over (s.source ++ ['\n'])) (entriesOf t).1,
        (entriesOf t).2.within (.below (entriesOf s).2 t)) := by
  have ho := entriesOf_onward s
  have hfirst : (loopWithin (entryStep (entriesWithin s.after.length) false) (s.after.length + 1)
      []).run s = ((entriesOf s).1, (entriesOf s).2) := rfl
  have hdepth : s.after.length ≤ (s.within (.above s t)).after.length := by
    rw [length_after_within]
    omega
  have hdepth' : t.after.length ≤ (s.within (.above s t)).after.length := by
    rw [length_after_within, Frame.above, length_shift]
    omega
  have hdistance : (Frame.below (entriesOf s).2 t).distance = .over (s.source ++ ['\n']) := by
    rw [Frame.distance, Frame.below, ho.source_eq]
  obtain ⟨hafter, m, hm, hrun⟩ :=
    entries_below false hdepth hfirst hq hends hbody hgood (Nat.lt_succ_self _)
  rw [within_above ho hafter ht (hq.1.trans he) (hq.2.trans hf), Frame.distance_above, shift_zero,
    shift_zero] at hrun
  rw [within_above ho hafter ht (hq.1.trans he) (hq.2.trans hf), length_after_within] at hm
  rw [entriesOf, hrun, entriesOf_within hdepth' (by omega) hq' rfl rfl hk, hdistance]

end Parser

/-! ## Trees -/

open CommandModules.Parser

variable (id : Nat) (path text : String)

theorem parse_root : (SyntaxTree.parse id path text).root =
    ⟨Entry.usings (entriesOf (ofText text)).1, Entry.globalAttributes (entriesOf (ofText text)).1,
      Entry.declarations (entriesOf (ofText text)).1,
      (entriesOf (ofText text)).2.spanFrom (ofText text).peek.span⟩ := by
  rw [SyntaxTree.parse, sourceUnit_run]

theorem parse_errors : (SyntaxTree.parse id path text).errors =
    (tokenize text).errors.map ParseError.ofLexError ++ (entriesOf (ofText text)).2.errors := by
  rw [SyntaxTree.parse, sourceUnit_run]

/-- Nothing is recorded while a text without errors is read. -/
theorem entriesOf_quiet {id : Nat} {path text : String}
    (h : (SyntaxTree.parse id path text).errors = []) :
    (tokenize text).errors = [] ∧ (ofText text).Quiet (entriesOf (ofText text)).2 := by
  obtain ⟨hl, he⟩ := List.append_eq_nil_iff.1 h
  exact ⟨List.map_eq_nil_iff.1 hl, he, (parse_safe id path text).1.1.faults_eq⟩

/-- A text that ends with a declaration ends before what does not begin with a semicolon. -/
theorem ofText_ends {a b : String} (ha : (tokenize a).errors = [])
    (hend : ∀ t ∈ (tokenize a).body.getLast?,
      t.kind = .punct .semicolon ∨ t.kind = .punct .rightBrace)
    (hb : ∀ t ts, (ofText b).after = t :: ts → t.kind ≠ .punct .semicolon) :
    (ofText a).Ends (.above (ofText a) (ofText b)) := by
  refine ⟨(ofText_good a).eof_kind, ?_, ?_⟩
  · rw [Frame.above]
    cases hafter : (ofText b).after with
    | nil =>
      rw [shift_nil, List.head?_nil, Option.getD_none, kind_shift, (ofText_good b).eof_kind]
      nofun
    | cons t ts =>
      rw [shift_cons, List.head?_cons, Option.getD_some, kind_shift]
      exact hb t ts hafter
  · rw [ofText_after ha]
    cases hlast : (tokenize a).body.getLast? with
    | none => exact .inl (List.getLast?_eq_none_iff.1 hlast)
    | some t =>
      refine .inr (.stopped (t := t) ?_ (endsDeclaration_iff.2 (hend t hlast)))
      rw [ofText_after ha, hlast]

/-- **A text that ends with a declaration and has no file-scoped namespace can be read together
    with the next one.**  If both are read without errors, so is the second one on the line below
    the first; the using directives, attributes and declarations of the longer text are those of
    the first one and then those of the second one, further down by the length of what stands
    above. -/
theorem parse_joined {a b : String} (i j k : Nat) (p q r : String)
    (ha : (SyntaxTree.parse i p a).errors = []) (hb : (SyntaxTree.parse j q b).errors = [])
    (hscoped : ∀ x ∈ (SyntaxTree.parse i p a).root.members, x.isFileScoped = false)
    (hend : ∀ t ∈ (tokenize a).body.getLast?,
      t.kind = .punct .semicolon ∨ t.kind = .punct .rightBrace)
    (hmark : b.toList.head? ≠ some '\uFEFF') :
    let upper := (SyntaxTree.parse i p a).root
    let lower := (SyntaxTree.parse j q b).root
    let d := Distance.over (a.toList ++ ['\n'])
    let joined := SyntaxTree.parse k r (a ++ "\n" ++ b)
    joined.errors = [] ∧ joined.root.usings = upper.usings ++ shift d lower.usings ∧
      joined.root.attributes = upper.attributes ++ shift d lower.attributes ∧
      joined.root.members = upper.members ++ shift d lower.members := by
  obtain ⟨hla, hqa⟩ := entriesOf_quiet ha
  obtain ⟨hlb, hqb⟩ := entriesOf_quiet hb
  have hjoined := entriesOf_joined hqa hqb
    (ofText_ends hla hend fun _ _ hafter => entries_head_ne hafter hqb) (ofText_good a).ne_eof
    (fun x hx => hscoped x (List.mem_filterMap.2 ⟨_, hx, rfl⟩)) rfl rfl rfl (ofText_good b).eof_kind
  rw [← ofText_joined hla hlb hmark] at hjoined
  dsimp only
  rw [parse_errors k r, parse_root i p, parse_root j q, parse_root k r, hjoined,
    tokenize_joined hla hlb hmark]
  refine ⟨hqb.1, ?_, ?_, ?_⟩
  · exact List.filterMap_append.trans (congrArg _ (usings_shift _))
  · exact List.filterMap_append.trans (congrArg _ (globalAttributes_shift _))
  · exact List.filterMap_append.trans (congrArg _ (declarations_shift _))

/-- A text that ends with a type whose members are looked at far ahead, and a comment. -/
def upperSample : String :=
  "using A; class B<T> where T : new() \x7b int x = f < g; int y => x; \x7d // end"

/-- A text with an entry of each list. -/
def lowerSample : String :=
  "global using C; [assembly: D] namespace E \x7b delegate void F<T>(); \x7d class G;"

theorem parse_joined_sample :
    let upper := SyntaxTree.parse 0 "" upperSample
    let lower := SyntaxTree.parse 1 "" lowerSample
    let d := Distance.over (upperSample.toList ++ ['\n'])
    let joined := SyntaxTree.parse 2 "" (upperSample ++ "\n" ++ lowerSample)
    (upper.errors = [] ∧ lower.errors = [] ∧ (∀ x ∈ upper.root.members, x.isFileScoped = false) ∧
      (∀ t ∈ (tokenize upperSample).body.getLast?,
        t.kind = .punct .semicolon ∨ t.kind = .punct .rightBrace) ∧
      lowerSample.toList.head? ≠ some '\uFEFF') ∧
    joined.errors = [] ∧ joined.root.usings = upper.root.usings ++ shift d lower.root.usings ∧
      joined.root.attributes = upper.root.attributes ++ shift d lower.root.attributes ∧
      joined.root.members = upper.root.members ++ shift d lower.root.members := by
  have hupper : (SyntaxTree.parse 0 "" upperSample).errors = [] := by decide +kernel
  have hlower : (SyntaxTree.parse 1 "" lowerSample).errors = [] := by decide +kernel
  have hscoped : ∀ x ∈ (SyntaxTree.parse 0 "" upperSample).root.members, x.isFileScoped = false := by
    decide +kernel
  have hend : ∀ t ∈ (tokenize upperSample).body.getLast?,
      t.kind = .punct .semicolon ∨ t.kind = .punct .rightBrace := by decide +kernel
  have hmark : lowerSample.toList.head? ≠ some '\uFEFF' := by decide +kernel
  exact ⟨⟨hupper, hlower, hscoped, hend, hmark⟩,
    parse_joined 0 1 2 "" "" "" hupper hlower hscoped hend hmark⟩

/-- A text that ends in the midst of a directive takes in what is written below it. -/
example : (SyntaxTree.parse 0 "" "extern alias a").errors = [] ∧
    (SyntaxTree.parse 0 "" "class B \x7b \x7d").root.members.length = 1 ∧
    (SyntaxTree.parse 0 "" "extern alias a\nclass B \x7b \x7d").root.members = [] := by
  refine ⟨by decide +kernel, by decide +kernel, ?_⟩
  exact List.eq_nil_of_length_eq_zero (by decide +kernel)

end CommandModules

/-
  Command modules — which commands are registered.

  A source is dropped where its name is taken, and the parts of a class share a name: of a
  class in several parts, one part has a source, and the commands of the others are lost.

  * `isValid_registration`: the names of the sources are valid, since the name of a class
    is a word;
  * `Compilation.mem_registered_iff`: a class with commands has a source just if no class
    with commands before it has its name;
  * `marked_methods_registered`: if different modules do not share a name, the commands of
    each module are registered for its first part that has any, and for no other part.
-/
import CommandModules.Proofs.Registration.Run
import CommandModules.Proofs.Syntax.Read

namespace CommandModules

/-! ## Lists without repetitions -/

section
variable {α β : Type} {r : α → α → Bool} {l : List α}

/-- Behind an element, only those are looked at that it does not exclude. -/
theorem eraseDupsBy_induction {P : List α → Prop} (nil : P [])
    (cons : ∀ b l, P (l.filter fun a => r a b = false) → P (b :: l)) (l : List α) : P l := by
  induction hn : l.length using Nat.strong_induction_on generalizing l with
  | _ n ih =>
    cases l with
    | nil => exact nil
    | cons b l =>
      have hlen := List.length_filter_le (fun a => decide (r a b = false)) l
      rw [List.length_cons] at hn
      exact cons b l (ih _ (by omega) _ rfl)

theorem eraseDupsBy_sublist (r : α → α → Bool) (l : List α) : (l.eraseDupsBy r).Sublist l := by
  induction l using eraseDupsBy_induction (r := r) with
  | nil => exact List.nil_sublist _
  | cons b l ih =>
    rw [List.eraseDupsBy_cons]
    exact (ih.trans List.filter_sublist).cons_cons b

/-- No element is left that an earlier one excludes. -/
theorem pairwise_eraseDupsBy (r : α → α → Bool) (l : List α) :
    (l.eraseDupsBy r).Pairwise fun a b => r b a = false := by
  induction l using eraseDupsBy_induction (r := r) with
  | nil => exact .nil
  | cons b l ih =>
    rw [List.eraseDupsBy_cons]
    refine .cons (fun a ha => ?_) ih
    simpa using (List.mem_filter.1 ((eraseDupsBy_sublist _ _).subset ha)).2

theorem eraseDupsBy_of_pairwise (h : l.Pairwise fun a b => r b a = false) :
    l.eraseDupsBy r = l := by
  induction h with
  | nil => rfl
  | @cons a l ha _ ih =>
    rw [List.eraseDupsBy_cons, List.filter_eq_self.2 fun b hb => by simpa using ha b hb, ih]

/-- An element stays just if no earlier one has its key. -/
theorem mem_eraseDupsBy_iff {γ : Type} (key : α → γ) (hr : ∀ a b, r a b = true ↔ key a = key b)
    {before after : List α} {a : α} (ha : a ∉ before) :
    a ∈ (before ++ a :: after).eraseDupsBy r ↔ ∀ b ∈ before, r a b = false := by
  generalize hl : before ++ a :: after = l
  induction l using eraseDupsBy_induction (r := r) generalizing before after with
  | nil => simp at hl
  | cons b l ih =>
    rw [List.eraseDupsBy_cons]
    cases before with
    | nil =>
      obtain ⟨rfl, -⟩ := List.cons.inj hl
      simp
    | cons b' before =>
      obtain ⟨rfl, rfl⟩ := List.cons.inj hl
      rw [List.mem_cons, not_or] at ha
      rw [List.mem_cons, or_iff_right ha.1, List.forall_mem_cons]
      by_cases hab : r a b' = true
      · -- nothing with the key of the first element is left behind it
        refine iff_of_false (fun hmem => ?_) (by simp [hab])
        have hleft := List.mem_filter.1 ((eraseDupsBy_sublist _ _).subset hmem)
        simp [hab] at hleft
      · rw [Bool.not_eq_true] at hab
        have hfilter : (before ++ a :: after).filter (fun c => r c b' = false) =
            before.filter (fun c => r c b' = false) ++
              a :: after.filter fun c => r c b' = false := by
          rw [List.filter_append, List.filter_cons_of_pos (by simpa using hab)]
        rw [ih (fun h => ha.2 (List.mem_of_mem_filter h)) hfilter.symm]
        refine ⟨fun h => ⟨hab, fun c hc => ?_⟩, fun h c hc => h.2 c (List.mem_of_mem_filter hc)⟩
        -- what the first element excludes, differs from `a` since the first element does
        by_cases hcb : r c b' = true
        · rw [← Bool.not_eq_true, hr] at hab ⊢
          exact fun hac => hab (hac.trans ((hr c b').1 hcb))
        · exact h c (List.mem_filter.2 ⟨hc, by simpa using hcb⟩)

theorem eraseDupsBy_map (f : β → α) (l : List β) :
    (l.map f).eraseDupsBy r = (l.eraseDupsBy fun a b => r (f a) (f b)).map f := by
  induction l using eraseDupsBy_induction (r := fun a b => r (f a) (f b)) with
  | nil => rfl
  | cons b l ih =>
    rw [List.map_cons, List.eraseDupsBy_cons, List.eraseDupsBy_cons, List.map_cons, ← ih,
      List.filter_map]
    rfl

end

/-! ## Classes -/

namespace SyntaxTree

/-- The types of a text without errors begin at offsets that grow. -/
theorem IsRead.types_ordered {t : SyntaxTree} (h : t.IsRead) :
    t.root.types.Pairwise fun d e => d.span.offset < e.span.offset := by
  refine List.Pairwise.filterMap Declaration.type? (fun d e hlt a ha b hb => ?_)
    (List.pairwise_map.1 h.declared_ordered)
  cases d <;> cases ha
  cases e <;> cases hb
  exact hlt

end SyntaxTree

namespace Compilation

variable {c : Compilation}

/-- Each class that is declared is known by its key. -/
theorem classParts_keys (hread : ∀ t ∈ c.sources, t.IsRead)
    (hids : (c.sources.map SyntaxTree.id).Nodup) :
    c.classParts.Pairwise fun k k' => k.key ≠ k'.key := by
  refine List.pairwise_flatMap.2 ⟨fun t ht => ?_, ?_⟩
  · refine List.pairwise_map.2 (((hread t ht).types_ordered.filter _).imp fun hlt h => ?_)
    exact Nat.ne_of_lt hlt (congrArg NodeKey.offset h)
  · refine (List.pairwise_map.1 hids).imp fun hne k hk k' hk' h => hne ?_
    obtain ⟨_, -, rfl⟩ := List.mem_map.1 hk
    obtain ⟨_, -, rfl⟩ := List.mem_map.1 hk'
    exact congrArg NodeKey.tree h

/-- No class is left out. -/
theorem classes_eq (hread : ∀ t ∈ c.sources, t.IsRead)
    (hids : (c.sources.map SyntaxTree.id).Nodup) : c.classes = c.classParts :=
  eraseDupsBy_of_pairwise ((classParts_keys hread hids).imp fun h => by simpa using h.symm)

theorem mem_classParts {k : Candidate} (h : k ∈ c.classParts) :
    ∃ t ∈ c.sources, k.declaration ∈ t.root.types ∧ k.declaration.kind = .class_ ∧
      k.key = t.key k.declaration.span := by
  obtain ⟨t, ht, hk⟩ := List.mem_flatMap.1 h
  obtain ⟨d, hd, rfl⟩ := List.mem_map.1 hk
  exact ⟨t, ht, List.mem_of_mem_filter hd, by simpa using (List.mem_filter.1 hd).2, rfl⟩

end Compilation

/-! ## Names of sources -/

theorem isAllowed_of_isIdentContinue {c : Char} (h : isIdentContinue c = true) :
    HintName.isAllowed c = true := by
  rcases Bool.or_eq_true_iff.1 h with h | h
  · simp [HintName.isAllowed, h]
  · simp [HintName.isAllowed, h]

/-- A word with a suffix of allowed characters is a valid name. -/
theorem isValid_word {i : Ident} {kind : TokenKind} {suffix : String} (hi : IsWord i.name kind)
    (hs : suffix.toList.all HintName.isAllowed = true) :
    HintName.isValid (i.value ++ suffix) = true := by
  obtain ⟨c, cs, hc, hcs, hv⟩ := hi.value_eq
  have hall : ∀ d ∈ c :: cs, HintName.isAllowed d = true := by
    refine List.forall_mem_cons.2 ⟨?_, fun d hd => isAllowed_of_isIdentContinue (hcs d hd)⟩
    exact isAllowed_of_isIdentContinue (isIdentContinue_of_isIdentStart hc)
  have hlist : (i.value ++ suffix).toList = c :: (cs ++ suffix.toList) := by
    rw [hv, String.toList_append, String.toList_ofList]
    rfl
  have hdot : c ≠ '.' := isIdentStart_ne hc (by decide)
  have hne : (i.value ++ suffix).isEmpty = false := by
    rw [← Bool.not_eq_true, String.isEmpty_iff, ← String.toList_eq_nil_iff, hlist]
    exact List.cons_ne_nil _ _
  rw [HintName.isValid, hlist, hne]
  rw [List.forall_mem_cons] at hall
  simp [hdot, hs, hall.1]
  exact hall.2

/-- The name of the source for a class of a text without errors is valid. -/
theorem isValid_registration {c : Compilation} {k : Candidate}
    (hread : ∀ t ∈ c.sources, t.IsRead) (hk : k ∈ c.classParts) :
    HintName.isValid (Options.standard.registration c k).hintName = true := by
  obtain ⟨t, ht, hd, -, -⟩ := Compilation.mem_classParts hk
  show HintName.isValid (k.declaration.name.value ++ ".Generated" ++ ".cs") = true
  rw [String.append_assoc]
  exact isValid_word ((hread t ht).isWritten hd).1.name (by decide)

/-! ## Registered classes -/

/-- The sources for two classes would have one name, up to ASCII case. -/
def Compilation.ShareName (c : Compilation) (o : Options) (k k' : Candidate) : Prop :=
  Text.eqCaseless (o.registration c k).hintName (o.registration c k').hintName = true

/-- The classes whose sources are kept. -/
def Compilation.registered (c : Compilation) (o : Options) : List Candidate :=
  ((c.classes.filter fun k => c.Registers o k).filter fun k =>
    HintName.isValid (o.registration c k).hintName).eraseDupsBy fun k k' =>
      Text.eqCaseless (o.registration c k).hintName (o.registration c k').hintName

theorem SourceSet.kept_registrations (c : Compilation) (o : Options) :
    kept ((c.classes.filter fun k => c.Registers o k).map (o.registration c)) =
      (c.registered o).map (o.registration c) := by
  rw [kept, List.filter_map, eraseDupsBy_map]
  rfl

namespace Compilation

variable {c : Compilation} {o : Options} {k : Candidate}

theorem registered_sublist (c : Compilation) (o : Options) :
    (c.registered o).Sublist c.classParts :=
  (eraseDupsBy_sublist _ _).trans <| List.filter_sublist.trans <|
    List.filter_sublist.trans (eraseDupsBy_sublist _ _)

/-- **A class with commands has a source just if no class with commands before it has its
    name.** -/
theorem mem_registered_iff {before after : List Candidate} (hc : c.classes = before ++ k :: after)
    (hfirst : k ∉ before) (hr : c.Registers o k)
    (hv : ∀ k' ∈ c.classes, HintName.isValid (o.registration c k').hintName = true) :
    k ∈ c.registered o ↔ ∀ k' ∈ before, c.Registers o k' → ¬ c.ShareName o k k' := by
  have hmem {k' : Candidate} (h : k' ∈ before ++ k :: after) :
      HintName.isValid (o.registration c k').hintName = true := hv k' (hc ▸ h)
  have hnot : k ∉ (before.filter fun k' => c.Registers o k').filter fun k' =>
      HintName.isValid (o.registration c k').hintName :=
    fun h => hfirst (List.mem_of_mem_filter (List.mem_of_mem_filter h))
  rw [registered, hc, List.filter_append, List.filter_append,
    List.filter_cons_of_pos (by simpa using hr), List.filter_cons_of_pos (by exact hmem (by simp)),
    mem_eraseDupsBy_iff (fun k => Text.lower (o.registration c k).hintName)
      (fun _ _ => Text.eqCaseless_iff) hnot]
  refine ⟨fun h k' hk' hr' => ?_, fun h k' hk' => ?_⟩
  · have hk : k' ∈ before.filter fun k' => c.Registers o k' :=
      List.mem_filter.2 ⟨hk', by simpa using hr'⟩
    exact Bool.eq_false_iff.1 (h k' (List.mem_filter.2 ⟨hk, hmem (by simp [hk'])⟩))
  · obtain ⟨hk', hr'⟩ := List.mem_filter.1 (List.mem_of_mem_filter hk')
    exact Bool.eq_false_iff.2 (h k' hk' (by simpa using hr'))

end Compilation

/-- **Which commands are registered**, as long as different modules do not share a name: every
    source is that of one class and registers the commands of this class; a part of a module
    that has commands has a source just if no part before it has any, up to parts that are
    named differently.  So the commands of further parts are lost. -/
theorem marked_methods_registered (c : Compilation)
    (hset : Options.standard.override c.settings = .standard)
    (hread : ∀ t ∈ c.sources, t.IsRead) (hids : (c.sources.map SyntaxTree.id).Nodup)
    (hnames : ∀ k ∈ c.classParts, ∀ k' ∈ c.classParts, ∀ s s', c.IsModule .standard k s →
      c.IsModule .standard k' s' → c.ShareName .standard k k' → s = s') :
    ∃ ks : List Candidate, ks.Sublist c.classParts ∧ (ks.map Candidate.key).Nodup ∧
      ((moduleGenerator .standard).run c).sources.sources =
        ks.map (Options.standard.registration c) ∧
      ∀ before k after s, c.classParts = before ++ k :: after → c.IsModule .standard k s →
        (∃ m ∈ k.declaration.methods, m.IsMarked "Command") →
        (k ∈ ks ↔ ¬ ∃ k' ∈ before, c.symbolOf? k'.key = some s ∧ c.ShareName .standard k k' ∧
          ∃ m ∈ k'.declaration.methods, m.IsMarked "Command") := by
  have hkeys := Compilation.classParts_keys hread hids
  have hsub := c.registered_sublist .standard
  have hclasses := Compilation.classes_eq hread hids
  refine ⟨c.registered .standard, hsub, List.pairwise_map.2 (hkeys.sublist hsub), ?_, ?_⟩
  · rw [moduleGenerator_sources c .standard rfl (by rw [hset]; rfl), hset,
      SourceSet.kept_registrations]
  · intro before k after s hc hk hm
    have mem {k' : Candidate} (h : k' ∈ before ++ k :: after) : k' ∈ c.classParts := hc ▸ h
    have hfirst : k ∉ before := by
      rw [hc, List.pairwise_append] at hkeys
      exact fun h => hkeys.2.2 k h k List.mem_cons_self rfl
    rw [Compilation.mem_registered_iff (hclasses.trans hc) hfirst ⟨⟨s, hk⟩, hm⟩ fun k' hk' =>
      isValid_registration hread (hclasses ▸ hk')]
    constructor
    · rintro h ⟨k', hk', hs, hname, hm'⟩
      exact h k' hk' ⟨⟨s, hk.of_symbolOf? hs⟩, hm'⟩ hname
    · rintro h k' hk' ⟨⟨s', hs'⟩, hm'⟩ hname
      obtain rfl := hnames k (mem (by simp)) k' (mem (by simp [hk'])) s s' hk hs' hname
      exact h ⟨k', hk', hs'.symbolOf?, hname, hm'⟩

/-- A module in two parts, without diagnostics: the command of the second part is not
    registered. -/
theorem marked_methods_registered_parts :
    let c := Compilation.of
      [.parse 0 "A.cs" "public partial class M : ModuleBase \x7b [Command] void A() \x7b \x7d \x7d",
        .parse 1 "B.cs" "partial class M \x7b [Command] void B() \x7b \x7d \x7d"] [] .empty
    c.diagnostics = [] ∧ ∃ first second s, c.classParts = [first, second] ∧
      c.IsModule .standard first s ∧ c.IsModule .standard second s ∧
      (∃ m ∈ second.declaration.methods, m.IsMarked "Command") ∧
      ∃ ks : List Candidate, ((moduleGenerator .standard).run c).sources.sources =
        ks.map (Options.standard.registration c) ∧ first ∈ ks ∧ second ∉ ks := by
  intro c
  have hread : ∀ t ∈ c.sources, t.IsRead := List.forall_mem_cons.2
    ⟨⟨⟨_, _, _, rfl⟩, by decide +kernel⟩,
      List.forall_mem_singleton.2 ⟨⟨_, _, _, rfl⟩, by decide +kernel⟩⟩
  have hlen : c.classParts.length = 2 := by decide +kernel
  have hmodule : ∀ k ∈ c.classParts, (c.moduleOf .standard k).toOption.isSome = true ∧
      c.symbols.declared.lookup k.key = some (.ofName "M") ∧
      (Options.standard.registration c k).hintName = "M.Generated.cs" ∧
      ∃ m ∈ k.declaration.methods, m.IsMarked "Command" := by decide +kernel
  have same {k k' : Candidate} {s s' : TypeSymbol} (hk : k ∈ c.classParts) (hk' : k' ∈ c.classParts)
      (hs : c.IsModule .standard k s) (hs' : c.IsModule .standard k' s') : s = s' := by
    have hid := (hmodule k' hk').2.1.trans (hmodule k hk).2.1.symm
    exact Option.some_inj.1 ((Compilation.symbolOf?_eq_some.2
      ⟨hid.trans hs.accepted, hs.symbol⟩).symm.trans hs'.symbolOf?)
  obtain ⟨ks, -, -, hrun, hks⟩ := marked_methods_registered c rfl hread
    (by decide +kernel)
    fun k hk k' hk' s s' hs hs' _ => same hk hk' hs hs'
  obtain ⟨first, second, hparts⟩ := List.length_eq_two.1 hlen
  have hfirst : first ∈ c.classParts := by simp [hparts]
  have hsecond : second ∈ c.classParts := by simp [hparts]
  obtain ⟨hm, -, hname, hmark⟩ := hmodule first hfirst
  obtain ⟨hm', -, hname', hmark'⟩ := hmodule second hsecond
  obtain ⟨s, hs⟩ := Options.isModule_of_isSome hm
  obtain ⟨s', hs'⟩ := Options.isModule_of_isSome hm'
  obtain rfl := same hfirst hsecond hs hs'
  refine ⟨by decide +kernel, first, second, s, hparts, hs, hs', hmark', ks, hrun, ?_, fun h => ?_⟩
  · exact (hks [] first [second] s hparts hs hmark).2 (by simp)
  · refine (hks [first] second [] s hparts hs' hmark').1 h
      ⟨first, List.mem_singleton_self first, hs.symbolOf?, ?_, hmark⟩
    rw [Compilation.ShareName, hname, hname']
    decide

end CommandModules

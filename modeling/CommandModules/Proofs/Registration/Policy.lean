/-
  Command modules — options and settings.

  The classes are collected by the policy of the options that come with the generator; which
  of them are candidates is then up to the options that the settings have overridden.

  * `Candidate.ofVisits_lastSeen`: where only the last class counts, it is the one that was
    shown last;
  * `Compilation.Reconciles`: collecting by one policy and selecting by another one comes to
    the same as doing both by the second;
  * `settings_replace_options`: then a run under settings is a run, without settings, of the
    generator with the options that they have overridden;
  * `lastSeen_prevails`: options that count the last class alone are not widened.
-/
import CommandModules.Proofs.Registration.Readable

namespace CommandModules

theorem eraseDupsBy_eq_nil {α : Type} {r : α → α → Bool} {l : List α} :
    l.eraseDupsBy r = [] ↔ l = [] := by
  cases l with
  | nil => exact ⟨fun _ => rfl, fun _ => rfl⟩
  | cons a l =>
    rw [List.eraseDupsBy_cons]
    exact ⟨nofun, nofun⟩

/-! ## Candidates -/

namespace Candidate

variable {vs : List Visit}

theorem foldl_collect (policy : CandidatePolicy) (vs : List Visit) (seen : List Candidate) :
    vs.foldl (collect policy) seen = (vs.filterMap ofVisit?).foldl (add policy) seen := by
  induction vs generalizing seen with
  | nil => rfl
  | cons v vs ih =>
    rw [List.foldl_cons, List.filterMap_cons, ih, collect]
    cases ofVisit? v <;> rfl

/-- Counting only the last class leaves one of them at most. -/
theorem length_ofVisits_lastSeen (vs : List Visit) : (ofVisits .lastSeen vs).length ≤ 1 := by
  rw [ofVisits, foldl_collect]
  generalize vs.filterMap ofVisit? = ks
  have main (seen : List Candidate) (hseen : seen.length ≤ 1) :
      (ks.foldl (add .lastSeen) seen).length ≤ 1 := by
    induction ks generalizing seen with
    | nil => exact hseen
    | cons k ks ih =>
      refine ih _ ?_
      unfold add
      split
      · exact hseen
      · exact Nat.le_refl 1
  exact main [] (Nat.zero_le 1)

/-- **Where only the last class counts**, it is the one that was shown last, if classes are
    told apart by their keys. -/
theorem ofVisits_lastSeen (h : ∀ k ∈ vs.filterMap ofVisit?, ∀ k' ∈ vs.filterMap ofVisit?,
    k.key = k'.key → k = k') : ofVisits .lastSeen vs = (vs.filterMap ofVisit?).getLast?.toList := by
  rw [ofVisits, foldl_collect]
  generalize vs.filterMap ofVisit? = ks at h ⊢
  induction ks using List.reverseRecOn with
  | nil => rfl
  | append_singleton ks k ih =>
    have hk : k ∈ ks ++ [k] := List.mem_append_right _ (List.mem_singleton.2 rfl)
    have ih := ih fun a ha b hb => h a (List.mem_append_left _ ha) b (List.mem_append_left _ hb)
    rw [List.foldl_concat, ih, List.getLast?_concat, Option.toList_some, add]
    cases hl : ks.getLast? with
    | none => rfl
    | some l =>
      rw [Option.toList_some, List.any_cons, List.any_nil, Bool.or_false]
      split
      · rename_i hkey
        -- the class was shown again: it is the one that was kept
        have hl := List.mem_append_left [k] (List.mem_of_getLast? hl)
        rw [h l hl k hk (by simpa using hkey)]
      · rfl

end Candidate

namespace Compilation

variable (c : Compilation)

/-- The candidates among the classes that are collected by one policy, by another one. -/
def candidates (collected selected : CandidatePolicy) : List Candidate :=
  selected.select (Candidate.ofVisits collected c.visits)

/-- Classes are told apart by their keys. -/
def IsKeyed : Prop :=
  ∀ k ∈ c.classParts, ∀ k' ∈ c.classParts, k.key = k'.key → k = k'

/-- Collecting classes by the first policy does not get in the way of the second one: all were
    collected, and the class that is shown last was not shown before another one that is new;
    or there is one class at most. -/
def Reconciles : CandidatePolicy → CandidatePolicy → Prop
  | .all, .lastSeen => c.IsKeyed ∧ c.classes.getLast? = c.classParts.getLast?
  | .lastSeen, .all => c.classes.length ≤ 1
  | .all, .all | .lastSeen, .lastSeen => True

variable {c}

/-- Trees that were read from texts without errors hold classes with different keys; the same
    tree may be there several times. -/
theorem isKeyed_of_isRead (hread : ∀ t ∈ c.sources, t.IsRead)
    (hids : ∀ t ∈ c.sources, ∀ t' ∈ c.sources, t.id = t'.id → t = t') : c.IsKeyed := by
  intro k hk k' hk' hkey
  obtain ⟨t, ht, hd, -, hkeyed⟩ := mem_classParts hk
  obtain ⟨t', ht', hd', -, hkeyed'⟩ := mem_classParts hk'
  rw [hkeyed, hkeyed'] at hkey
  obtain rfl := hids t ht t' ht' (congrArg NodeKey.tree hkey)
  have hnodup : (t.root.types.map fun d => d.span.offset).Nodup :=
    List.pairwise_map.2 ((hread t ht).types_ordered.imp Nat.ne_of_lt)
  have hdecl := List.inj_on_of_nodup_map hnodup hd hd' (congrArg NodeKey.offset hkey)
  calc k = ⟨t.key k.declaration.span, k.declaration⟩ := congrArg (Candidate.mk · k.declaration) hkeyed
    _ = ⟨t.key k'.declaration.span, k'.declaration⟩ := by rw [hdecl]
    _ = k' := congrArg (Candidate.mk · k'.declaration) hkeyed'.symm

/-- If no tree is there twice, the policies of all and of the last class are reconciled. -/
theorem reconciles_of_isRead (hread : ∀ t ∈ c.sources, t.IsRead)
    (hids : (c.sources.map SyntaxTree.id).Nodup) : c.Reconciles .all .lastSeen :=
  ⟨isKeyed_of_isRead hread fun _ ht _ ht' => List.inj_on_of_nodup_map hids ht ht',
    congrArg List.getLast? (classes_eq hread hids)⟩

theorem candidates_lastSeen (h : c.IsKeyed) :
    c.candidates .lastSeen .lastSeen = c.classParts.getLast?.toList := by
  rw [candidates, Candidate.ofVisits_lastSeen (by rwa [Candidate.filterMap_visits]),
    Candidate.filterMap_visits]
  cases c.classParts.getLast? <;> rfl

/-- One class at most is the last one. -/
theorem candidates_of_length_le (h : c.classes.length ≤ 1) :
    c.candidates .lastSeen .all = c.classes := by
  show Candidate.ofVisits .lastSeen c.visits = _
  rw [Candidate.ofVisits, Candidate.foldl_collect, Candidate.filterMap_visits, classes]
  rw [classes] at h
  cases hparts : c.classParts with
  | nil => rfl
  | cons k ks =>
    rw [hparts, List.eraseDupsBy_cons] at h
    have hnil := List.eq_nil_of_length_eq_zero (Nat.le_zero.1 (Nat.le_of_succ_le_succ h))
    have hagain : ∀ a ∈ ks, (k.key == a.key) = true := by
      intro a ha
      have := List.filter_eq_nil_iff.1 (eraseDupsBy_eq_nil.1 hnil) a ha
      rw [Bool.beq_comm]
      simpa using this
    rw [List.eraseDupsBy_cons, hnil, List.foldl_cons]
    show ks.foldl (Candidate.add .lastSeen) [k] = [k]
    clear hparts h hnil
    induction ks with
    | nil => rfl
    | cons a ks ih =>
      obtain ⟨ha, hks⟩ := List.forall_mem_cons.1 hagain
      rw [List.foldl_cons, Candidate.add, List.any_cons, List.any_nil, Bool.or_false, if_pos ha]
      exact ih hks

/-- **Policies are reconciled** if and only if the candidates are those of the second one. -/
theorem candidates_eq_iff (h : c.IsKeyed) (collected selected : CandidatePolicy) :
    c.candidates collected selected = c.candidates selected selected ↔
      c.Reconciles collected selected := by
  cases collected <;> cases selected
  · simp [Reconciles]
  · rw [candidates_lastSeen h, Reconciles, candidates, Candidate.ofVisits_eq]
    refine ⟨fun heq => ⟨h, ?_⟩, fun heq => congrArg Option.toList heq.2⟩
    have heq : c.classes.getLast?.toList = c.classParts.getLast?.toList := heq
    generalize c.classes.getLast? = a, c.classParts.getLast? = b at heq ⊢
    cases a <;> cases b <;> simp_all
  · rw [show c.candidates .all .all = c.classes from Candidate.ofVisits_eq c, Reconciles]
    refine ⟨fun heq => ?_, candidates_of_length_le⟩
    rw [← heq]
    exact Candidate.length_ofVisits_lastSeen _
  · simp [Reconciles]

theorem Reconciles.candidates_eq {collected selected : CandidatePolicy}
    (h : c.Reconciles collected selected) :
    c.candidates collected selected = c.candidates selected selected := by
  cases collected <;> cases selected
  · rfl
  · exact (candidates_eq_iff h.1 _ _).2 h
  · exact (candidates_of_length_le h).trans (Candidate.ofVisits_eq c).symm
  · rfl

end Compilation

/-! ## Runs -/

/-- Two generators that see the same compilation, under different settings, and process the
    same candidates by the same options do the same. -/
theorem runGenerators_congr {c : Compilation} {o o' : Options} {s : Settings}
    (hcandidates : c.candidates o.candidates (o.override c.settings).candidates =
      c.candidates o'.candidates (o'.override s).candidates)
    (hprocess : (o.override c.settings).process c = (o'.override s).process c) :
    runGenerators [moduleGenerator o] c = runGenerators [moduleGenerator o'] (c.withSettings s) := by
  have hrun : (moduleGenerator o).run c = (moduleGenerator o').run (c.withSettings s) := by
    show (c.candidates _ _).foldl ((o.override c.settings).process c) _ =
      (c.candidates _ _).foldl ((o'.override s).process c) _
    rw [hcandidates, hprocess]
    rfl
  rw [runGenerators_one _ _ rfl, runGenerators_one _ _ rfl, hrun]
  rfl

/-- **Settings replace options**: if the policies are reconciled, a run under settings gives
    the same sources and diagnostics as a run, without settings, of the generator with the
    options that they have overridden. -/
theorem settings_replace_options (c : Compilation) (o : Options)
    (h : c.Reconciles o.candidates (o.override c.settings).candidates) :
    runGenerators [moduleGenerator o] c =
      runGenerators [moduleGenerator (o.override c.settings)] (c.withSettings .empty) :=
  runGenerators_congr h.candidates_eq rfl

/-- The settings choose another base and the last class. -/
theorem settings_replace_options_demo :
    let c := Compilation.of
      [.parse 0 "A.cs" "public partial class A : Unit \x7b [Command] public void Run() \x7b \x7d \x7d",
        .parse 1 "B.cs" "public partial class B : Unit \x7b [Command] public void Go() \x7b \x7d \x7d"]
      [] (.ofList [("modgen.base_type", "Unit"), ("modgen.candidates", "last")])
    let results := runGenerators [moduleGenerator .standard] c
    results = runGenerators [moduleGenerator (Options.standard.override c.settings)]
        (c.withSettings .empty) ∧
      (results.flatMap fun r => r.sources.map fun g => g.source.hintName) = ["B.Generated.cs"] := by
  intro c results
  have heff : (Options.standard.override c.settings).candidates = .lastSeen := by decide +kernel
  have hread : ∀ t ∈ c.sources, t.IsRead :=
    List.forall_mem_cons.2 ⟨⟨⟨_, _, _, rfl⟩, by decide +kernel⟩,
      List.forall_mem_singleton.2 ⟨⟨_, _, _, rfl⟩, by decide +kernel⟩⟩
  refine ⟨settings_replace_options c .standard ?_, by decide +kernel⟩
  rw [heff]
  exact Compilation.reconciles_of_isRead hread (by decide +kernel)

/-- **Options that count the last class alone** are not widened by settings: a run is that of
    the overridden options with this policy. -/
theorem lastSeen_prevails (c : Compilation) (o : Options) (h : o.candidates = .lastSeen) :
    runGenerators [moduleGenerator o] c =
      runGenerators [moduleGenerator { o.override c.settings with candidates := .lastSeen }]
        (c.withSettings .empty) := by
  refine runGenerators_congr ?_ rfl
  show CandidatePolicy.select _ (Candidate.ofVisits o.candidates c.visits) =
    CandidatePolicy.select .lastSeen (Candidate.ofVisits .lastSeen c.visits)
  rw [h]
  cases (o.override c.settings).candidates with
  | lastSeen => rfl
  | all =>
    have hlen := Candidate.length_ofVisits_lastSeen c.visits
    generalize Candidate.ofVisits .lastSeen c.visits = ks at hlen ⊢
    match ks, hlen with
    | [], _ | [_], _ => rfl

end CommandModules

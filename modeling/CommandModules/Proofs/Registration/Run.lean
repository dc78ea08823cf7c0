/-
  Command modules — what a run of the generator produces.

  * `Compilation.classParts` are the classes that the sources declare, in the order of the
    text, `Compilation.classes` each of them once; `Candidate.ofVisits_eq`: these are the candidates that a run collects;
  * `SourceSet.kept`: of sources that are offered in turn, those are kept whose name is
    valid and not taken;
  * `moduleGenerator_run`: a run keeps the sources of the classes that register, and
    reports each of the others if it is asked to.
-/
import CommandModules.Generation.Run
import CommandModules.Registration.Host
import CommandModules.Proofs.Registration.Eligible

namespace CommandModules

/-- Taking up what no earlier element excludes is erasing what an earlier one excludes. -/
theorem foldl_unless_any {α : Type} (r : α → α → Bool) (as seen : List α) :
    as.foldl (fun seen a => if seen.any (r a) then seen else seen ++ [a]) seen =
      seen ++ (as.filter fun a => !seen.any (r a)).eraseDupsBy r := by
  induction as generalizing seen with
  | nil => simp
  | cons a as ih =>
    rw [List.foldl_cons]
    by_cases h : seen.any (r a) = true
    · rw [if_pos h, ih, List.filter_cons_of_neg (by simp [h])]
    · have hfilter : (as.filter fun b => !(seen ++ [a]).any (r b)) =
          (as.filter fun b => !seen.any (r b)).filter fun b => r b a = false := by
        rw [List.filter_filter]
        refine List.filter_congr fun b _ => ?_
        simp only [List.any_append, List.any_cons, List.any_nil, Bool.or_false]
        cases r b a <;> simp
      rw [if_neg h, ih, List.filter_cons_of_pos (by simp [h]), List.eraseDupsBy_cons, hfilter]
      simp

/-! ## Candidates -/

/-- The classes that the sources declare, in the order of the text; a class may be declared
    in several parts. -/
def Compilation.classParts (c : Compilation) : List Candidate :=
  c.sources.flatMap fun t =>
    (t.root.types.filter fun d => d.kind = .class_).map fun d => ⟨t.key d.span, d⟩

/-- The same, each declaration once. -/
def Compilation.classes (c : Compilation) : List Candidate :=
  c.classParts.eraseDupsBy fun a b => a.key == b.key

namespace Candidate

theorem ofVisits_all (vs : List Visit) :
    ofVisits .all vs = (vs.filterMap ofVisit?).eraseDupsBy fun a b => a.key == b.key := by
  have main (seen : List Candidate) : vs.foldl (collect .all) seen =
      (vs.filterMap ofVisit?).foldl
        (fun seen k => if seen.any (fun s => k.key == s.key) then seen else seen ++ [k]) seen := by
    induction vs generalizing seen with
    | nil => rfl
    | cons v vs ih =>
      rw [List.foldl_cons, List.filterMap_cons, ih]
      unfold collect
      cases ofVisit? v with
      | none => rfl
      | some k =>
        have hadd : add .all seen k =
            if seen.any (fun s => k.key == s.key) then seen else seen ++ [k] := by
          unfold add
          rw [show (fun s : Candidate => s.key == k.key) = fun s => k.key == s.key from
            funext fun s => Bool.beq_comm]
        rw [List.foldl_cons, ← hadd]
  rw [ofVisits, main, foldl_unless_any fun a b : Candidate => a.key == b.key]
  simp

theorem visits_filterMap (t : SyntaxTree) : t.visits.filterMap ofVisit? =
    (t.root.types.filter fun d => d.kind = .class_).map fun d => ⟨t.key d.span, d⟩ := by
  rw [← t.typeDeclarations_eq, SyntaxTree.visits, SyntaxTree.typeDeclarations]
  induction t.nodes with
  | nil => rfl
  | cons n ns ih =>
    rw [List.map_cons, List.filterMap_cons, List.filterMap_cons, ih]
    cases n with
    | type d => by_cases h : d.kind = .class_ <;> simp [ofVisit?, Node.typeDeclaration?, h]
    | _ => rfl

/-- **The candidates of a run are the classes of the sources.** -/
theorem ofVisits_eq (c : Compilation) : ofVisits .all c.visits = c.classes := by
  rw [ofVisits_all, Compilation.classes, Compilation.classParts, Compilation.visits,
    List.filterMap_flatMap]
  congr 2
  exact funext visits_filterMap

end Candidate

/-! ## Sources -/

namespace HintName

theorem complete_append (name : String) : complete (name ++ extension) = name ++ extension := by
  have h : hasExtension (name ++ extension) = true := by
    have hlen : (name ++ extension).toList.length - extension.length = name.toList.length := by
      rw [String.toList_append, List.length_append]
      exact Nat.add_sub_cancel _ _
    unfold hasExtension
    dsimp only
    rw [hlen, String.toList_append, List.drop_left, String.ofList_toList]
    exact Text.eqCaseless_refl extension
  rw [complete, if_pos h]

end HintName

namespace SourceSet

/-- Of sources that are offered in turn, those whose name is valid and not taken by an
    earlier one, up to ASCII case. -/
def kept (offered : List GeneratedSource) : List GeneratedSource :=
  (offered.filter fun s => HintName.isValid s.hintName).eraseDupsBy fun s s' =>
    Text.eqCaseless s.hintName s'.hintName

/-- The set with a source, if its name is valid and free. -/
def offer (s : SourceSet) (g : GeneratedSource) : SourceSet :=
  if HintName.isValid g.hintName && !s.holds g.hintName then ⟨s.sources ++ [g]⟩ else s

theorem add_eq (s : SourceSet) (g : GeneratedSource)
    (hg : HintName.complete g.hintName = g.hintName) :
    (s.add g.hintName g.text = .ok (s.offer g)) ∨
      (s.offer g = s ∧ ∃ e, s.add g.hintName g.text = .error e) := by
  unfold offer
  by_cases h : (HintName.isValid g.hintName && !s.holds g.hintName) = true
  · have h' := h
    rw [Bool.and_eq_true, Bool.not_eq_true'] at h'
    rw [if_pos h]
    exact .inl ((add_eq_ok_iff s).2 ⟨h'.1, by rw [hg]; exact h'.2, by rw [hg]⟩)
  · rw [if_neg h]
    refine .inr ⟨rfl, ?_⟩
    cases ha : s.add g.hintName g.text with
    | error e => exact ⟨e, rfl⟩
    | ok t =>
      obtain ⟨hv, hh, -⟩ := (add_eq_ok_iff s).1 ha
      rw [hg] at hh
      exact absurd (by simp [hv, hh]) h

/-- **Sources offered in turn** leave those that are kept. -/
theorem foldl_offer (gs : List GeneratedSource) : (gs.foldl offer .empty).sources = kept gs := by
  have main (s : SourceSet) : (gs.foldl offer s).sources =
      (gs.filter fun g => HintName.isValid g.hintName).foldl (fun seen g =>
        if seen.any (fun x => Text.eqCaseless g.hintName x.hintName) then seen else seen ++ [g])
        s.sources := by
    induction gs generalizing s with
    | nil => rfl
    | cons g gs ih =>
      rw [List.foldl_cons, ih]
      by_cases hv : HintName.isValid g.hintName = true
      · rw [List.filter_cons_of_pos (by exact hv), List.foldl_cons]
        congr 1
        have hh : s.holds g.hintName =
            s.sources.any fun x => Text.eqCaseless g.hintName x.hintName := by
          rw [holds, hintNames, List.any_map]
          rfl
        unfold offer
        rw [← hh, hv]
        cases s.holds g.hintName <;> rfl
      · rw [List.filter_cons_of_neg (by exact hv)]
        congr 1
        simp [offer, hv]
  rw [main, foldl_unless_any fun s s' : GeneratedSource => Text.eqCaseless s.hintName s'.hintName]
  simp [kept, empty]

end SourceSet

/-! ## The run -/

/-- The diagnostic reports the first condition that fails for a candidate, as an
    information at its name. -/
def Compilation.Reports (c : Compilation) (o : Options) (k : Candidate) (d : Diagnostic) : Prop :=
  ∃ r, c.Skips o k r ∧ d = ⟨r.diagnosticId, .info, r.message, Options.location? c k⟩

namespace Options

variable {c : Compilation} {o : Options}

theorem registration_complete (k : Candidate) :
    HintName.complete (o.registration c k).hintName = (o.registration c k).hintName :=
  HintName.complete_append (k.declaration.name.value ++ o.fileSuffix)

/-- One candidate: the source of one that registers is offered, another one is
    reported if that is asked for. -/
theorem process_cases (c : Compilation) (o : Options) (output : Output) (k : Candidate) :
    (c.Registers o k ∧ o.process c output k =
      { output with sources := output.sources.offer (o.registration c k) }) ∨
    (¬ c.Registers o k ∧ ∃ d, c.Reports o k d ∧
      o.process c output k = if o.reportSkipped then output.report d else output) := by
  unfold process
  obtain ⟨h, he⟩ | ⟨h, r, hr, he⟩ := sourceFor_cases c o k
  · rw [he]
    dsimp only [Output.addSource]
    refine .inl ⟨h, ?_⟩
    obtain ha | ⟨ho, e, ha⟩ := output.sources.add_eq (o.registration c k) (registration_complete k)
    · rw [ha]
      rfl
    · rw [ha, ho]
      rfl
  · rw [he]
    exact .inr ⟨h, _, ⟨r, hr, rfl⟩, rfl⟩

/-- **All candidates in turn.** -/
theorem foldl_process (c : Compilation) (o : Options) (ks : List Candidate) (output : Output) :
    (ks.foldl (o.process c) output).sources =
      ((ks.filter fun k => c.Registers o k).map (o.registration c)).foldl SourceSet.offer
        output.sources ∧
    ∃ ds, (ks.foldl (o.process c) output).diagnostics = output.diagnostics ++ ds ∧
      (o.reportSkipped = true →
        List.Forall₂ (c.Reports o) (ks.filter fun k => ¬ c.Registers o k) ds) ∧
      (o.reportSkipped = false → ds = []) := by
  induction ks generalizing output with
  | nil => exact ⟨rfl, [], by simp, fun _ => .nil, fun _ => rfl⟩
  | cons k ks ih =>
    rw [List.foldl_cons]
    obtain ⟨hs, ds, hd, hon, hoff⟩ := ih (o.process c output k)
    rw [hs, hd]
    obtain ⟨h, he⟩ | ⟨h, d, hr, he⟩ := process_cases c o output k
    · rw [he]
      exact ⟨by simp [h], ds, rfl, fun ho => by simpa [h] using hon ho, hoff⟩
    · rw [he]
      cases ho : o.reportSkipped with
      | false =>
        rw [if_neg Bool.false_ne_true]
        exact ⟨by simp [h], ds, rfl, nofun, fun _ => hoff ho⟩
      | true =>
        rw [if_pos rfl]
        refine ⟨by simp [h, Output.report], d :: ds, by simp [Output.report], fun _ => ?_, nofun⟩
        rw [List.filter_cons_of_pos (by simpa using h)]
        exact .cons hr (hon ho)

end Options

section
variable (c : Compilation) (o : Options) (hall : o.candidates = .all)
  (heff : (o.override c.settings).candidates = .all)
include hall heff

/-- A run goes through the classes of the sources. -/
theorem moduleGenerator_run_eq : (moduleGenerator o).run c =
    c.classes.foldl ((o.override c.settings).process c) (.start Setup.start) := by
  show (CandidatePolicy.select _ (Candidate.ofVisits o.candidates c.visits)).foldl _ _ = _
  rw [hall, Candidate.ofVisits_eq, heff]
  rfl

/-- The sources are those of the classes that register, save those whose name is not valid
    or taken. -/
theorem moduleGenerator_sources : ((moduleGenerator o).run c).sources.sources =
    SourceSet.kept ((c.classes.filter fun k => c.Registers (o.override c.settings) k).map
      ((o.override c.settings).registration c)) := by
  rw [moduleGenerator_run_eq c o hall heff, (Options.foldl_process ..).1]
  exact SourceSet.foldl_offer _

end

/-- **What a run of the generator produces**, if all classes are candidates: the sources
    of the classes that register, in the order of the text, save those whose name is not
    valid or taken by an earlier one; and one information for each of the other classes,
    in order, if this is asked for. -/
theorem moduleGenerator_run (c : Compilation) (o : Options) (hall : o.candidates = .all)
    (heff : (o.override c.settings).candidates = .all) :
    let e := o.override c.settings
    let output := (moduleGenerator o).run c
    output.sources.sources =
        SourceSet.kept ((c.classes.filter fun k => c.Registers e k).map (e.registration c)) ∧
      (e.reportSkipped = true →
        List.Forall₂ (c.Reports e) (c.classes.filter fun k => ¬ c.Registers e k)
          output.diagnostics) ∧
      (e.reportSkipped = false → output.diagnostics = []) := by
  intro e output
  obtain ⟨-, ds, hd, hon, hoff⟩ := Options.foldl_process c e c.classes (.start Setup.start)
  have hd : output.diagnostics = ds := by
    rw [show output = _ from moduleGenerator_run_eq c o hall heff, hd]
    rfl
  exact ⟨moduleGenerator_sources c o hall heff, fun h => hd ▸ hon h, fun h => hd.trans (hoff h)⟩

theorem moduleGenerator_run_echo :
    let c := Compilation.of
      [.parse 0 "Echo.cs" <| "public partial class Echo : ModuleBase \x7b " ++
        "[Command(\"echo\")] public void Run(string text) \x7b \x7d \x7d"]
      [Host.reference 1] .empty
    let output := (moduleGenerator .standard).run c
    output.sources.sources = SourceSet.kept
        ((c.classes.filter fun k => c.Registers .standard k).map
          (Options.standard.registration c)) ∧
      output.diagnostics = [] := by
  obtain ⟨hs, -, hd⟩ := moduleGenerator_run
    (.of [.parse 0 "Echo.cs" <| "public partial class Echo : ModuleBase \x7b " ++
        "[Command(\"echo\")] public void Run(string text) \x7b \x7d \x7d"]
      [Host.reference 1] .empty) .standard rfl rfl
  exact ⟨hs, hd rfl⟩

end CommandModules

/-
  Command modules — the names of the sources that a generator adds.

  A generator asks for sources under names as it likes, first while it is set up and then while it
  runs; a name that is refused leaves everything as it was.

  * `HintName.IsProper`, `HintName.Ends`: what the characters of a name have to be, and that it
    ends in the extension; `isValid_iff`, `hasExtension_iff`: this is what is checked;
  * `hasExtension_eq_atByte`: it makes no difference to look for the extension three bytes before
    the end, where no character may begin;
  * `SourceSet.IsNamed`: the names of a set differ, and each is proper and complete; `IsNamed.add`:
    a further source keeps it so;
  * `Output.sources_of_requests`: so it is for all sources of a run, whatever was asked for.
-/
import CommandModules.Generation.Generator
import CommandModules.Proofs.Text.Bytes

namespace CommandModules

/-! ## Names -/

namespace HintName

variable {name : String}

/-- A name that may be asked for. -/
structure IsProper (name : String) : Prop where
  ne_empty : name ≠ ""
  head : name.toList.head? ≠ some '.'
  chars : ∀ c ∈ name.toList, Text.isWordChar c = true ∨ c = '_' ∨ c = '.' ∨ c = '-'

/-- The name ends in the extension, in capital or small letters. -/
def Ends (name : String) : Prop :=
  ∃ front back, name.toList = front ++ back ∧ Text.eqCaseless (String.ofList back) ".cs" = true

theorem isAllowed_iff {c : Char} :
    isAllowed c = true ↔ Text.isWordChar c = true ∨ c = '_' ∨ c = '.' ∨ c = '-' := by
  simp only [isAllowed, Bool.or_eq_true, beq_iff_eq, or_assoc]

theorem isValid_iff : isValid name = true ↔ IsProper name := by
  simp only [isValid, Bool.and_eq_true, Bool.not_eq_true', String.isEmpty_eq_false_iff, bne_iff_ne,
    List.all_eq_true, isAllowed_iff]
  exact ⟨fun h => ⟨h.1.1, h.1.2, h.2⟩, fun h => ⟨⟨h.ne_empty, h.head⟩, h.chars⟩⟩

/-! ## The extension -/

theorem eqCaseless_extension_iff {cs : List Char} :
    Text.eqCaseless (String.ofList cs) extension = true ↔
      cs.map Char.toLower = ['.', 'c', 's'] := by
  have hlower : Text.lower extension = String.ofList ['.', 'c', 's'] := by decide
  rw [Text.eqCaseless, beq_iff_eq, hlower, Text.lower, String.toList_ofList, String.ofList_inj]

/-- What agrees with the extension up to case has three characters. -/
theorem length_of_eqCaseless {cs : List Char}
    (h : Text.eqCaseless (String.ofList cs) extension = true) : cs.length = 3 := by
  simpa using congrArg List.length (eqCaseless_extension_iff.1 h)

theorem hasExtension_iff : hasExtension name = true ↔ Ends name := by
  constructor
  · intro h
    exact ⟨_, _, (List.take_append_drop _ _).symm, h⟩
  · rintro ⟨front, back, hname, hback⟩
    have hlen : name.toList.length - extension.length = front.length := by
      rw [hname, List.length_append, length_of_eqCaseless hback]
      exact Nat.add_sub_cancel _ _
    unfold hasExtension
    dsimp only
    rw [hlen, hname, List.drop_left]
    exact hback

/-- Only characters of one byte have a lower case of one byte. -/
theorem utf8Size_of_toLower {c : Char} (h : c.toLower.val < 128) : c.utf8Size = 1 := by
  have hval : c.val < 128 := by
    unfold Char.toLower at h
    split at h
    · rename_i hc
      have := hc.2
      rw [UInt32.le_iff_toNat_le] at this
      rw [UInt32.lt_iff_toNat_lt]
      exact Nat.lt_of_le_of_lt this (by decide)
    · exact h
  rw [Char.utf8Size, if_pos]
  rw [UInt32.lt_iff_toNat_lt] at hval
  rw [UInt32.le_iff_toNat_le]
  exact Nat.le_of_lt_succ hval

/-- What agrees with the extension up to case has three bytes. -/
theorem bytes_of_eqCaseless {cs : List Char}
    (h : Text.eqCaseless (String.ofList cs) extension = true) : Text.bytes cs = 3 := by
  have hlower := eqCaseless_extension_iff.1 h
  obtain ⟨a, cs, rfl, ha, hlower⟩ := List.map_eq_cons_iff.1 hlower
  obtain ⟨b, cs, rfl, hb, hlower⟩ := List.map_eq_cons_iff.1 hlower
  obtain ⟨c, cs, rfl, hc, hlower⟩ := List.map_eq_cons_iff.1 hlower
  obtain rfl := List.map_eq_nil_iff.1 hlower
  simp [Text.bytes, utf8Size_of_toLower, ha, hb, hc]

/-- **The extension may be looked for at a byte**, three bytes before the end: where it stands, a
    character begins there, and where no character begins, it does not stand. -/
theorem hasExtension_eq_atByte (name : String) :
    hasExtension name = (decide (3 ≤ name.utf8ByteSize) &&
      (Text.splitAtByte? (name.utf8ByteSize - 3) name.toList).any fun parts =>
        Text.eqCaseless (String.ofList parts.2) extension) := by
  rw [Bool.eq_iff_iff, hasExtension_iff, Bool.and_eq_true, decide_eq_true_eq,
    ← Text.bytes_toList, Option.any_eq_true]
  constructor
  · rintro ⟨front, back, hname, hback⟩
    have hbytes : Text.bytes (front ++ back) - 3 = Text.bytes front := by
      rw [Text.bytes_append, bytes_of_eqCaseless hback, Nat.add_sub_cancel]
    refine ⟨?_, (front, back), ?_, hback⟩
    · rw [hname, Text.bytes_append, bytes_of_eqCaseless hback]
      exact Nat.le_add_left _ _
    · rw [hname, hbytes]
      exact Text.splitAtByte?_bytes front back
  · rintro ⟨-, ⟨front, back⟩, hsplit, hback⟩
    exact ⟨front, back, (Text.splitAtByte?_append hsplit).symm, hback⟩

theorem ends_append (name : String) : Ends (name ++ extension) :=
  ⟨name.toList, extension.toList, String.toList_append, by
    rw [String.ofList_toList]
    exact Text.eqCaseless_refl _⟩

/-! ## Complete names -/

theorem complete_of_ends (h : Ends name) : complete name = name := by
  rw [complete, if_pos (hasExtension_iff.2 h)]

theorem complete_of_not_ends (h : ¬ Ends name) : complete name = name ++ ".cs" := by
  rw [complete, if_neg fun he => h (hasExtension_iff.1 he)]
  rfl

theorem ends_complete (name : String) : Ends (complete name) := by
  by_cases h : Ends name
  · rwa [complete_of_ends h]
  · rw [complete_of_not_ends h]
    exact ends_append name

/-- A proper name stays proper. -/
theorem IsProper.complete (h : IsProper name) : IsProper (complete name) := by
  by_cases he : Ends name
  · rwa [complete_of_ends he]
  rw [complete_of_not_ends he]
  have hne : name.toList ≠ [] := fun hnil => h.ne_empty (String.toList_eq_nil_iff.1 hnil)
  refine ⟨fun hempty => ?_, ?_, ?_⟩
  · have := congrArg String.toList hempty
    rw [String.toList_append] at this
    exact hne (List.append_eq_nil_iff.1 this).1
  · rw [String.toList_append, List.head?_append, Option.or_of_isSome (List.isSome_head?.2 hne)]
    exact h.head
  · have hextension : extension.toList.all isAllowed = true := by decide
    rw [String.toList_append]
    refine List.forall_mem_append.2 ⟨h.chars, fun c hc => ?_⟩
    exact isAllowed_iff.1 (List.all_eq_true.1 hextension c hc)

theorem normalize_eq_ok_iff {full : String} :
    normalize name = .ok full ↔ IsProper name ∧ complete name = full := by
  rw [normalize, ← isValid_iff]
  split
  · rename_i h
    exact ⟨fun hfull => ⟨h, Except.ok.inj hfull⟩, fun hfull => congrArg _ hfull.2⟩
  · rename_i h
    exact ⟨nofun, fun hfull => absurd hfull.1 h⟩

/-- **A complete name stays as it is.** -/
theorem normalize_normalized {full : String} (h : normalize name = .ok full) :
    normalize full = .ok full := by
  obtain ⟨hproper, rfl⟩ := normalize_eq_ok_iff.1 h
  exact normalize_eq_ok_iff.2 ⟨hproper.complete, complete_of_ends (ends_complete name)⟩

end HintName

open HintName

/-! ## Sets of sources -/

namespace SourceSet

variable {s t : SourceSet} {name text : String}

/-- The names of the set differ up to case, and each of them is proper and complete. -/
structure IsNamed (s : SourceSet) : Prop where
  differ : s.hintNames.Pairwise fun a b => Text.eqCaseless a b = false
  proper : ∀ name ∈ s.hintNames, IsProper name
  ends : ∀ name ∈ s.hintNames, Ends name

theorem isNamed_empty : empty.IsNamed :=
  ⟨.nil, List.forall_mem_nil _, List.forall_mem_nil _⟩

/-- No source has the name, up to case. -/
def IsFree (s : SourceSet) (name : String) : Prop :=
  ∀ held ∈ s.hintNames, Text.eqCaseless name held = false

theorem holds_eq_false_iff : s.holds name = false ↔ s.IsFree name := by
  simp only [holds, List.any_eq_false, Bool.not_eq_true]
  rfl

/-- The set with one more source. -/
def insert (s : SourceSet) (name text : String) : SourceSet :=
  ⟨s.sources ++ [⟨name, text⟩]⟩

theorem hintNames_insert : (s.insert name text).hintNames = s.hintNames ++ [name] :=
  List.map_append

/-- A source that is added has a proper name, and its complete name is free; it comes last. -/
theorem add_eq_ok : s.add name text = .ok t ↔
    ∃ full, HintName.normalize name = .ok full ∧ s.IsFree full ∧ t = s.insert full text := by
  rw [add_eq_ok_iff, isValid_iff, holds_eq_false_iff]
  constructor
  · rintro ⟨hname, hfree, rfl⟩
    exact ⟨_, normalize_eq_ok_iff.2 ⟨hname, rfl⟩, hfree, rfl⟩
  · rintro ⟨full, hnorm, hfree, rfl⟩
    obtain ⟨hname, rfl⟩ := normalize_eq_ok_iff.1 hnorm
    exact ⟨hname, hfree, rfl⟩

/-- A source is refused for its own name or for that of another one. -/
theorem add_eq_error {e : SourceError} : s.add name text = .error e ↔
    (¬ IsProper name ∧ e = .invalidHintName name) ∨
      ∃ full, HintName.normalize name = .ok full ∧ ¬ s.IsFree full ∧
        e = .duplicateHintName full := by
  by_cases hname : IsProper name
  · have hnorm : HintName.normalize name = .ok (complete name) :=
      normalize_eq_ok_iff.2 ⟨hname, rfl⟩
    rw [add, hnorm]
    by_cases hheld : s.holds (complete name) = true
    · have hfree : ¬ s.IsFree (complete name) := fun h => by simp [holds_eq_false_iff.2 h] at hheld
      simp [hname, hheld, hfree, eq_comm]
    · have hfree : s.IsFree (complete name) := holds_eq_false_iff.1 (by simpa using hheld)
      simp [hname, hheld, hfree]
  · have hnorm : HintName.normalize name = .error (.invalidHintName name) := by
      rw [HintName.normalize, if_neg (mt isValid_iff.1 hname)]
    rw [add, hnorm]
    simp [hname, eq_comm]

/-- **A further source keeps the names in order.** -/
theorem IsNamed.add (h : s.IsNamed) (ha : s.add name text = .ok t) : t.IsNamed := by
  obtain ⟨full, hnorm, hfree, rfl⟩ := add_eq_ok.1 ha
  obtain ⟨hname, rfl⟩ := normalize_eq_ok_iff.1 hnorm
  refine ⟨?_, ?_, ?_⟩ <;> rw [hintNames_insert]
  · refine List.pairwise_append.2 ⟨h.differ, List.pairwise_singleton _ _, fun held hheld x hx => ?_⟩
    rw [List.mem_singleton.1 hx, Text.eqCaseless_comm]
    exact hfree held hheld
  · exact List.forall_mem_append.2 ⟨h.proper, List.forall_mem_singleton.2 hname.complete⟩
  · exact List.forall_mem_append.2 ⟨h.ends, List.forall_mem_singleton.2 (ends_complete name)⟩

end SourceSet

/-! ## Requests -/

/-- A source that is asked for, under a name that may be anything. -/
structure SourceRequest where
  name : String
  text : String

/-- A setup after a request: with the source, or as it was. -/
def Setup.after (s : Setup) (r : SourceRequest) : Setup :=
  match s.addSource r.name r.text with
  | .ok s' => s'
  | .error _ => s

/-- An output after a request: with the source, or as it was. -/
def Output.after (o : Output) (r : SourceRequest) : Output :=
  match o.addSource r.name r.text with
  | .ok o' => o'
  | .error _ => o

/-- The output of a run that has asked for `requests`, behind a setup that has asked for
    `reserved`. -/
def Output.ofRequests (reserved requests : List SourceRequest) : Output :=
  requests.foldl Output.after (.start (reserved.foldl Setup.after .start))

/-- A set after a request: with the source, or as it was. -/
def SourceSet.after (s : SourceSet) (r : SourceRequest) : SourceSet :=
  match s.add r.name r.text with
  | .ok t => t
  | .error _ => s

/-- **A request keeps the names in order**, whatever it asks for. -/
theorem SourceSet.IsNamed.after {s : SourceSet} (h : s.IsNamed) (r : SourceRequest) :
    (s.after r).IsNamed := by
  unfold SourceSet.after
  cases ha : s.add r.name r.text with
  | error e => exact h
  | ok t => exact h.add ha

/-- So do requests, one after the other. -/
theorem SourceSet.IsNamed.afterAll {s : SourceSet} (h : s.IsNamed) (rs : List SourceRequest) :
    (rs.foldl SourceSet.after s).IsNamed := by
  induction rs generalizing s with
  | nil => exact h
  | cons r rs ih => exact ih (h.after r)

theorem Setup.sources_after (s : Setup) (r : SourceRequest) :
    (s.after r).sources = s.sources.after r := by
  unfold after addSource SourceSet.after
  cases s.sources.add r.name r.text <;> rfl

namespace Output

variable {o o' : Output} {name text : String} {e : SourceError}

theorem sources_after (o : Output) (r : SourceRequest) :
    (o.after r).sources = o.sources.after r := by
  unfold after addSource SourceSet.after
  cases o.sources.add r.name r.text <;> rfl

/-- What the setup asks for comes before what the run asks for. -/
theorem sources_ofRequests (reserved requests : List SourceRequest) :
    (ofRequests reserved requests).sources =
      requests.foldl SourceSet.after (reserved.foldl SourceSet.after .empty) := by
  have hrun (s : Setup) : (requests.foldl after (.start s)).sources =
      requests.foldl SourceSet.after s.sources :=
    (List.foldl_hom Output.sources fun o r => (sources_after o r).symm).symm
  have hsetup (s : Setup) : (reserved.foldl Setup.after s).sources =
      reserved.foldl SourceSet.after s.sources :=
    (List.foldl_hom Setup.sources fun s r => (Setup.sources_after s r).symm).symm
  rw [ofRequests, hrun, hsetup]
  rfl

theorem addSource_eq_ok : o.addSource name text = .ok o' ↔
    ∃ full, HintName.normalize name = .ok full ∧ o.sources.IsFree full ∧
      o' = { o with sources := o.sources.insert full text } := by
  unfold addSource
  constructor
  · intro h
    cases ha : o.sources.add name text with
    | error e =>
      rw [ha] at h
      cases h
    | ok t =>
      rw [ha] at h
      cases h
      obtain ⟨full, hnorm, hfree, rfl⟩ := SourceSet.add_eq_ok.1 ha
      exact ⟨full, hnorm, hfree, rfl⟩
  · rintro ⟨full, hnorm, hfree, rfl⟩
    rw [SourceSet.add_eq_ok.2 ⟨full, hnorm, hfree, rfl⟩]
    rfl

theorem addSource_eq_error : o.addSource name text = .error e ↔
    (¬ IsProper name ∧ e = .invalidHintName name) ∨
      ∃ full, HintName.normalize name = .ok full ∧ ¬ o.sources.IsFree full ∧
        e = .duplicateHintName full := by
  have hadd : o.sources.add name text = .error e ↔ _ := SourceSet.add_eq_error
  rw [← hadd, addSource]
  cases o.sources.add name text with
  | error e' =>
    simp only [Except.map, Except.error.injEq]
  | ok t => exact ⟨nofun, nofun⟩

/-- **The names of all sources of a run are in order**, whatever was asked for while the generator
    was set up and while it ran: they differ up to case, and each is proper and ends in the
    extension.  A further source is added just if its name is proper and the complete name is
    free, and then it comes behind the others; else the request is refused for one of these two
    reasons and leaves everything as it was.  A complete name is not completed again. -/
theorem sources_of_requests (reserved requests : List SourceRequest) :
    let o := ofRequests reserved requests
    (o.sources.hintNames.Pairwise fun a b => Text.eqCaseless a b = false) ∧
    (∀ name ∈ o.sources.hintNames, IsProper name ∧ Ends name) ∧
    (∀ name text o', o.addSource name text = .ok o' ↔ ∃ full, HintName.normalize name = .ok full ∧
      (∀ held ∈ o.sources.hintNames, Text.eqCaseless full held = false) ∧
        o' = { o with sources := ⟨o.sources.sources ++ [⟨full, text⟩]⟩ }) ∧
    (∀ name text e, o.addSource name text = .error e ↔
      (¬ IsProper name ∧ e = .invalidHintName name) ∨
        ∃ full, HintName.normalize name = .ok full ∧
          (∃ held ∈ o.sources.hintNames, Text.eqCaseless full held = true) ∧
            e = .duplicateHintName full) ∧
    (∀ name text e, o.addSource name text = .error e → o.after ⟨name, text⟩ = o) ∧
    ∀ name full, (HintName.normalize name = .ok full ↔ IsProper name ∧
        ((Ends name ∧ full = name) ∨ (¬ Ends name ∧ full = name ++ ".cs"))) ∧
      (HintName.normalize name = .ok full → HintName.normalize full = .ok full) := by
  intro o
  have hnamed : o.sources.IsNamed := by
    rw [sources_ofRequests]
    exact (SourceSet.isNamed_empty.afterAll reserved).afterAll requests
  refine ⟨hnamed.differ, fun name h => ⟨hnamed.proper name h, hnamed.ends name h⟩,
    fun name text o' => addSource_eq_ok, fun name text e => ?_, fun name text e he => ?_,
    fun name full => ⟨?_, normalize_normalized⟩⟩
  · have hheld (full : String) : ¬ o.sources.IsFree full ↔
        ∃ held ∈ o.sources.hintNames, Text.eqCaseless full held = true := by
      simp [SourceSet.IsFree]
    simp only [addSource_eq_error, hheld]
  · rw [after, he]
  · rw [normalize_eq_ok_iff]
    by_cases he : Ends name
    · simp [he, complete_of_ends he, eq_comm]
    · simp [he, complete_of_not_ends he, eq_comm]

/-- A name stays reserved however it is written; three bytes before the end of `éé` no character
    begins. -/
example : (ofRequests [⟨"A", ""⟩] [⟨"a.cs", ""⟩, ⟨"éé", ""⟩, ⟨"A.CS", ""⟩]).sources.hintNames =
    ["A.cs", "éé.cs"] := by decide +kernel

end Output

end CommandModules

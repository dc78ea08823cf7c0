/-
  Command modules — full metadata names.

  The full metadata name of a type has dots between the namespaces and before the type, and
  `+` between the types around the type and before the type itself.

  * `splitChars_intercalate`: joined texts are split again at what joins them;
  * `FullName.metadataName` is the full metadata name, `FullName.dotted` are the parts of the
    name with all its namespaces;
  * `splitMetadataName_metadataName`: if it consists of words, it is taken apart into the path
    of the namespace and the names of the types.
-/
import CommandModules.Compilation.Basic
import CommandModules.Proofs.Symbol.FullName
import CommandModules.Proofs.Token.Words

namespace CommandModules

/-! ## Joined texts -/

section
variable {sep : Char} {p : List Char} {ps : List (List Char)}

theorem splitChars_append (hp : sep ∉ p) (cs : List Char) :
    Text.splitChars sep (p ++ sep :: cs) = p :: Text.splitChars sep cs := by
  induction p with
  | nil => simp [Text.splitChars]
  | cons c p ih =>
    obtain ⟨hc, hp⟩ := not_or.1 (List.mem_cons.not.1 hp)
    rw [List.cons_append, Text.splitChars, if_neg (Ne.symm hc), ih hp]

theorem splitChars_self (hp : sep ∉ p) : Text.splitChars sep p = [p] := by
  induction p with
  | nil => rfl
  | cons c p ih =>
    obtain ⟨hc, hp⟩ := not_or.1 (List.mem_cons.not.1 hp)
    rw [Text.splitChars, if_neg (Ne.symm hc), ih hp]

/-- **Joined texts are split again**, if none of them has what joins them. -/
theorem splitChars_intercalate (h : ∀ q ∈ p :: ps, sep ∉ q) :
    Text.splitChars sep ([sep].intercalate (p :: ps)) = p :: ps := by
  induction ps generalizing p with
  | nil =>
    rw [List.intercalate_singleton]
    exact splitChars_self (h p List.mem_cons_self)
  | cons q ps ih =>
    rw [List.intercalate_cons_cons, List.append_assoc, List.singleton_append,
      splitChars_append (h p List.mem_cons_self)]
    rw [ih fun r hr => h r (List.mem_cons_of_mem _ hr)]

/-- What follows the last of joined texts follows them all. -/
theorem intercalate_concat_append (xs : List (List Char)) (y rest : List Char) :
    [sep].intercalate (xs ++ [y ++ rest]) = [sep].intercalate (xs ++ [y]) ++ rest := by
  induction xs with
  | nil => simp
  | cons x xs ih =>
    cases xs with
    | nil => simp [List.intercalate_cons_cons]
    | cons x' xs =>
      simp only [List.cons_append, List.intercalate_cons_cons, List.append_assoc] at ih ⊢
      rw [ih]

theorem not_mem_intercalate {c : Char} (hc : c ≠ sep) (h : ∀ q ∈ ps, c ∉ q) :
    c ∉ [sep].intercalate ps := by
  induction ps with
  | nil => simp
  | cons p ps ih =>
    have hp := h p List.mem_cons_self
    have hps := ih fun q hq => h q (List.mem_cons_of_mem _ hq)
    cases ps with
    | nil => simpa using hp
    | cons q ps => simp [List.intercalate_cons_cons, hp, hc, hps]

end

/-! ## Names without separators -/

/-- Neither a character of words nor the sign of an escape, an arity or a digit. -/
structure IsSeparator (c : Char) : Prop where
  continue_ : isIdentContinue c = false
  escape : c ≠ '@'
  arity : c ≠ '\x60'
  digit : c.isDigit = false

theorem isSeparator_dot : IsSeparator '.' :=
  ⟨by decide +kernel, by decide, by decide, by decide⟩

theorem isSeparator_plus : IsSeparator '+' :=
  ⟨by decide +kernel, by decide, by decide, by decide⟩

/-- A word has the characters of words only, but for an escape. -/
theorem IsWord.not_mem {w : String} {kind : TokenKind} (h : IsWord w kind) {c : Char}
    (hc : isIdentContinue c = false) (hat : c ≠ '@') : c ∉ w.toList := by
  obtain ⟨d, ds, hd, hds, hw⟩ := h.toList
  have hne : c ≠ d := by
    rintro rfl
    cases hc.symm.trans (isIdentContinue_of_isIdentStart hd)
  have hmem : c ∉ ds := fun hmem => by
    cases hc.symm.trans (hds c hmem)
  rcases hw with hw | hw
  · simp [hw, hne, hmem]
  · simp [hw, hne, hmem, hat]

theorem metadataName_toList {name : String} {arity : Nat} (h : arity ≠ 0) :
    (metadataName name arity).toList = name.toList ++ '\x60' :: Nat.toDigits 10 arity := by
  rw [metadataName, if_neg h]
  simp [toString]

/-- A word is the metadata name of that word without type parameters only. -/
theorem metadataName_eq_word {name w : String} {arity : Nat} {kind : TokenKind} (h : IsWord w kind)
    (hw : metadataName name arity = w) : name = w ∧ arity = 0 := by
  by_cases ha : arity = 0
  · rw [metadataName, if_pos ha] at hw
    exact ⟨hw, ha⟩
  · have htick : '\x60' ∈ w.toList := by
      rw [← hw, metadataName_toList ha]
      simp
    exact absurd htick (h.not_mem (by decide +kernel) (by decide))

/-- No separator stands in the metadata name of a type. -/
theorem not_mem_metadataName {name : String} {kind : TokenKind} (h : IsWord name kind) (arity : Nat)
    {c : Char} (hc : IsSeparator c) : c ∉ (metadataName name arity).toList := by
  have hname := h.not_mem hc.continue_ hc.escape
  have harity : c ∉ Nat.toDigits 10 arity := fun hmem => by
    have := Nat.isDigit_of_mem_toDigits (by decide) (by decide) hmem
    cases hc.digit.symm.trans this
  by_cases ha : arity = 0
  · rwa [metadataName, if_pos ha]
  · rw [metadataName_toList ha]
    simp [hname, harity, hc.arity]

/-! ## Full names -/

namespace FullName

/-- The types that the name leads through, the outermost first. -/
def parts : FullName → List NamePart
  | top _ part => [part]
  | nested outer part => outer.parts ++ [part]

/-- The full metadata name. -/
def metadataName (n : FullName) : String :=
  ".".intercalate (n.path ++ ["+".intercalate (n.parts.map NamePart.metadataName)])

/-- The dotted name, with all namespaces. -/
def dotted (n : FullName) : List NamePart :=
  n.path.map (fun name => ⟨name, 0⟩) ++ n.parts

/-- The names of the namespaces and of the types are words. -/
structure IsWorded (n : FullName) : Prop where
  path : ∀ q ∈ n.path, IsWord q (wordKind q)
  parts : ∀ p ∈ n.parts, IsWord p.name (wordKind p.name)

theorem parts_eq (n : FullName) : ∃ p ps, n.parts = p :: ps := by
  induction n with
  | top path part => exact ⟨part, [], rfl⟩
  | nested outer part ih =>
    obtain ⟨p, ps, h⟩ := ih
    exact ⟨p, ps ++ [part], by rw [parts, h, List.cons_append]⟩

end FullName

/-- What follows the first of joined texts is nothing, or begins with what joins them. -/
theorem intercalate_cons_eq (sep : Char) (p : List Char) (ps : List (List Char)) :
    ∃ rest, [sep].intercalate (p :: ps) = p ++ rest ∧ rest.takeWhile (· ≠ sep) = [] ∧
      rest.dropWhile (· ≠ sep) = rest := by
  cases ps with
  | nil => exact ⟨[], by simp, rfl, rfl⟩
  | cons q ps =>
    exact ⟨_, by rw [List.intercalate_cons_cons, List.append_assoc], by simp, by simp⟩

/-- **A full metadata name is taken apart** into the path of the namespace and the names of the
    types. -/
theorem splitMetadataName_metadataName {n : FullName} (h : n.IsWorded) :
    Compilation.splitMetadataName n.metadataName =
      (n.path, n.parts.map NamePart.metadataName) := by
  obtain ⟨p, ps, hparts⟩ := n.parts_eq
  have hwords : ∀ q ∈ n.path, q.toList ≠ [] := fun q hq => (h.path q hq).ne_nil
  have hpart {c : Char} (hc : IsSeparator c) : ∀ q ∈ p :: ps, c ∉ q.metadataName.toList :=
    fun q hq => not_mem_metadataName (h.parts q (hparts ▸ hq)) q.arity hc
  have hpieces {c : Char} (hc : IsSeparator c) :
      ∀ q ∈ n.path.map String.toList ++ [p.metadataName.toList], c ∉ q := by
    intro q hq
    obtain hq | hq := List.mem_append.1 hq
    · obtain ⟨w, hw, rfl⟩ := List.mem_map.1 hq
      exact (h.path w hw).not_mem hc.continue_ hc.escape
    · obtain rfl := List.mem_singleton.1 hq
      exact hpart hc p List.mem_cons_self
  -- the name is a head, the part before the first plus sign, and the rest
  obtain ⟨rest, htypes, hrest, hdrop⟩ :=
    intercalate_cons_eq '+' p.metadataName.toList (ps.map fun q => q.metadataName.toList)
  generalize hhead : ['.'].intercalate (n.path.map String.toList ++ [p.metadataName.toList]) = head
  have htext : n.metadataName.toList = head ++ rest := by
    rw [← hhead, ← intercalate_concat_append, ← htypes, FullName.metadataName, hparts]
    simp [String.toList_intercalate, Function.comp_def]
  have hplus : ∀ c ∈ head, decide (c ≠ '+') = true := by
    rintro c hc
    refine decide_eq_true ?_
    rintro rfl
    rw [← hhead] at hc
    exact not_mem_intercalate (by decide) (hpieces isSeparator_plus) hc
  have hsplit : Text.splitChars '.' head = n.path.map String.toList ++ [p.metadataName.toList] := by
    rw [← hhead]
    have hdots := hpieces isSeparator_dot
    cases hl : n.path.map String.toList ++ [p.metadataName.toList] with
    | nil => simp at hl
    | cons q qs => exact splitChars_intercalate (hl ▸ hdots)
  have htail : Text.splitChars '+' (p.metadataName.toList ++ rest) =
      (p :: ps).map fun q => q.metadataName.toList := by
    rw [← htypes]
    refine splitChars_intercalate fun q hq => ?_
    rw [← List.map_cons (f := fun q : NamePart => q.metadataName.toList)] at hq
    obtain ⟨x, hx, rfl⟩ := List.mem_map.1 hq
    exact hpart isSeparator_plus x hx
  unfold Compilation.splitMetadataName
  simp only [htext, List.takeWhile_append_of_pos hplus, List.dropWhile_append_of_pos hplus, hrest,
    hdrop, List.append_nil, hsplit, List.dropLast_concat, List.getLast?_concat, Option.getD_some,
    htail, hparts]
  refine Prod.ext ?_ ?_
  · rw [List.filter_eq_self.2]
    · simp [Function.comp_def]
    · simpa using hwords
  · simp [Function.comp_def]

end CommandModules

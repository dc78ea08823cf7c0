/-
  Command modules — dotted names before known tokens, some pieces of which may be reserved.

  * `pathTokens ps`: the tokens of a dotted name;
  * `name_accepts`: a dotted name is read up to the first piece that is reserved, and to
    its end if there is none.
-/
import CommandModules.Proofs.Shown.Type

namespace CommandModules

open ParserState

/-- The tokens of a dotted name. -/
def pathTokens (ps : List String) : List Token :=
  (ps.map fun p => wordToken (wordKind p) p).intersperse (markToken .dot)

theorem pathTokens_cons (p q : String) (ps : List String) : pathTokens (p :: q :: ps) =
    wordToken (wordKind p) p :: markToken .dot :: pathTokens (q :: ps) := rfl

/-- A dotted name begins with its first piece. -/
theorem pathTokens_eq (p : String) (ps : List String) :
    ∃ ts, pathTokens (p :: ps) = wordToken (wordKind p) p :: ts := by
  cases ps with
  | nil => exact ⟨[], rfl⟩
  | cons q ps => exact ⟨_, rfl⟩

/-- The identifiers of segments, as they are written. -/
def segmentNames (segments : List NameSegment) : List String :=
  segments.map fun i => i.ident.name

namespace Parser

variable {source : List Char} {s : ParserState} {t u : Token} {ts rest : List Token}

/-! ## Segments -/

section
variable {type : Parser TypeSyntax}

theorem nameAlias_declines (h : (s.peekAt 1).kind ≠ .punct .colonColon) :
    Parser.Accepts source s nameAlias fun _ s' => s' = s := by
  refine .get fun _ => ?_
  rw [if_neg (by simp [h])]
  exact .pure rfl

theorem nameSegmentWith_plain (hs : s.Shows (t :: u :: rest)) (ht : t.kind = .identifier)
    (hu : u.kind ≠ .punct .less) :
    Parser.Accepts source s (nameSegmentWith type) fun i s' =>
      i.ident.name = t.lexeme ∧ s'.Shows (u :: rest) := by
  refine (ident_accepts hs ht).bind fun _ s₁ h₁ => .get fun _ => ?_
  dsimp only
  rw [if_neg (mt isAtMark_iff.1 (h₁.2.peek_kind ▸ hu))]
  exact Parser.Passes.bind (R := fun _ s' => s' = s₁) (.pure rfl) fun _ s₂ h₂ => .pure (h₂ ▸ h₁)

end

/-! ## Dotted names -/

/-- Where the reading of a dotted name ends: behind it if no piece is reserved, and else at
    a dot. -/
def EndsPath (ps : List String) (ahead : List Token) (s : ParserState) : Prop :=
  if ∀ p ∈ ps, wordKind p = .identifier then s.Shows ahead else s.peek.kind = .punct .dot

theorem EndsPath.cons {p : String} {ps : List String} (hp : wordKind p = .identifier)
    (h : EndsPath ps ts s) : EndsPath (p :: ps) ts s := by
  simpa [EndsPath, hp] using h

theorem segmentAndDot_accepts {type : Parser TypeSyntax} {segments : List NameSegment} {p : String}
    {ps : List String} (hs : s.Shows (pathTokens (p :: ps) ++ u :: rest))
    (hp : wordKind p = .identifier) (hu : u.endsType = true) :
    Parser.Accepts source s (segmentAndDot type segments)
      (Round.Leaves (fun is s' => segmentNames is = segmentNames segments ++ [p] ∧
        ∃ q qs, ps = q :: qs ∧ wordKind q = .identifier ∧ s'.Shows (pathTokens (q :: qs) ++ u :: rest))
        (fun is s' => EndsPath ps (u :: rest) s' ∧ segmentNames is = segmentNames segments ++ [p] ∧
          ((∀ q ∈ ps, wordKind q = .identifier) → ps = [])) s.after.length) := by
  have snoc {i : NameSegment} (hi : i.ident.name = p) :
      segmentNames (segments ++ [i]) = segmentNames segments ++ [p] := by
    simp [segmentNames, hi]
  cases ps with
  | nil =>
    refine (nameSegmentWith_plain hs hp (Token.endsType_ne hu rfl)).bind fun _ s₁ h₁ => .get fun _ => ?_
    have hdot : s₁.peek.kind ≠ .punct .dot := h₁.2.peek_kind ▸ Token.endsType_ne hu rfl
    rw [if_neg (by simp [isAtMark, isAt, hdot])]
    exact .pure ⟨by simpa [EndsPath] using h₁.2, snoc h₁.1, fun _ => rfl⟩
  | cons q qs =>
    have hs' : s.Shows (wordToken (wordKind p) p :: markToken .dot ::
        (pathTokens (q :: qs) ++ u :: rest)) := hs
    refine (nameSegmentWith_plain hs' hp (by simp [markToken])).bind fun _ s₁ h₁ => .get fun _ => ?_
    obtain ⟨hi, h₁⟩ := h₁
    obtain ⟨ts, hts⟩ := pathTokens_eq q qs
    have hnext : (s₁.peekAt 1).kind = wordKind q := by
      rw [hts] at h₁
      exact h₁.peekAt_kind (n := 1) rfl
    by_cases hq : wordKind q = .identifier
    · rw [if_pos (by simp [isAtMark, isAt, h₁.peek_kind, hnext, hq, markToken])]
      refine (Parser.Passes.lift (advance_shows h₁)).discard.bind fun _ s₂ h₂ => .pure ?_
      refine ⟨⟨snoc hi, q, qs, rfl, hq, h₂⟩, ?_⟩
      rw [h₂.length_after, hs'.length_after]
      simp only [List.length_cons]
      omega
    · rw [if_neg (by simp [hnext, hq])]
      refine .pure ⟨?_, snoc hi, fun h => absurd (h q List.mem_cons_self) hq⟩
      simp only [EndsPath, List.forall_mem_cons, hq, false_and, if_false]
      exact h₁.peek_kind

section
variable {p : String} {ps : List String}

theorem pathTokens_next (hs : s.Shows (pathTokens (p :: ps) ++ u :: rest)) (hu : u.endsType = true) :
    (s.peekAt 1).kind ≠ .punct .colonColon := by
  cases ps with
  | nil =>
    rw [hs.peekAt_kind (n := 1) rfl]
    exact Token.endsType_ne hu rfl
  | cons q qs =>
    rw [hs.peekAt_kind (n := 1) rfl]
    simp [markToken]

/-- No name is read where a reserved word stands. -/
theorem name_fails (h : s.peek.kind ≠ .identifier) : Parser.Fails source s name := by
  have halias : nameAlias.run.run s = (.ok none, s) := by
    show (if s.isAt .identifier && _ then _ else (Pure.pure none : Parser (Option Ident))).run.run s = _
    rw [if_neg (by simp [isAt, h])]
    rfl
  refine .after (a := s.after.length + 1) rfl (.get (.after halias ?_))
  exact .bind (.loop (.bind (.bind (ident_fails h))))

/-- **A dotted name is read up to the first piece that is reserved**, if it is not the first
    one. -/
theorem name_accepts (hs : s.Shows (pathTokens (p :: ps) ++ u :: rest)) (hu : u.endsType = true)
    (hp : wordKind p = .identifier) :
    Parser.Accepts source s name fun n s' => EndsPath ps (u :: rest) s' ∧
      ((∀ q ∈ ps, wordKind q = .identifier) → segmentNames n.segments = p :: ps) := by
  refine .andThen rounds_accepts fun n s₁ h₁ => ?_
  obtain ⟨-, rfl⟩ := h₁
  refine .get fun hg => (nameAlias_declines (pathTokens_next hs hu)).bind fun _ s₂ h₂ => ?_
  subst h₂
  refine Parser.Passes.bind (R := fun is s' => EndsPath ps (u :: rest) s' ∧
      ((∀ q ∈ ps, wordKind q = .identifier) → segmentNames is = p :: ps)) ?_ fun _ s₃ h₃ =>
    .andThen (textFrom_accepts hg.peek_inside) fun _ s₄ h₄ => .get fun _ => .pure (h₄ ▸ h₃)
  -- the pieces that were read, and the one that comes next
  refine .loop (I := fun is s' => ∃ q qs, segmentNames is ++ q :: qs = p :: ps ∧
    wordKind q = .identifier ∧ s'.Shows (pathTokens (q :: qs) ++ u :: rest) ∧
      ((∀ q ∈ ps, wordKind q = .identifier) → ∀ q ∈ qs, wordKind q = .identifier) ∧
      ∀ s'', EndsPath qs (u :: rest) s'' → EndsPath ps (u :: rest) s'')
    ⟨p, ps, rfl, hp, hs, fun h => h, fun _ h => h⟩ fun x s' hI => ?_
  obtain ⟨q, qs, hnames, hq, hs', hplain, hend⟩ := hI
  refine (segmentAndDot_accepts hs' hq hu).mono fun r s'' hr => ?_
  cases r with
  | next y =>
    obtain ⟨⟨hy, q', qs', rfl, hq', hs''⟩, hlen⟩ := hr
    refine ⟨⟨q', qs', by simp [hy, ← hnames], hq', hs'', fun h => ?_, fun _ h => hend _ (.cons hq' h)⟩,
      hlen⟩
    exact (List.forall_mem_cons.1 (hplain h)).2
  | done a =>
    obtain ⟨he, ha, hqs⟩ := hr
    refine ⟨hend _ he, fun h => ?_⟩
    rw [ha, ← hnames, hqs (hplain h)]

end

end Parser

end CommandModules

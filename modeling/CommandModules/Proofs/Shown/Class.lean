/-
  Command modules — classes before known tokens.

  * `baseTypes_reads`: base types that are written out are read back;
  * `typeWithMembers_passes`: a class is read just if its members are.
-/
import CommandModules.Proofs.Shown.Method

namespace CommandModules

open ParserState

variable {source : List Char} {s : ParserState} {t u v : Token} {ts rest : List Token}

/-- The tokens of base types, none if there are no types. -/
def baseTokens (bases : List TypeSyntax) : List Token :=
  if bases.isEmpty then []
  else markToken .colon :: separated .comma (bases.map TypeSyntax.tokens)

/-- The tokens of a class behind its modifiers, up to those in its braces. -/
def classTokens (name : Ident) (ps : List TypeParameter) (bases : List TypeSyntax)
    (ts : List Token) : List Token :=
  keywordToken .class_ :: name.token ::
    (TypeParameter.listTokens ps ++ (baseTokens bases ++ markToken .leftBrace :: ts))

/-- The tokens do not begin with a semicolon. -/
def NoSemicolon (ts : List Token) : Prop :=
  ∀ t, ts.head? = some t → t.kind ≠ .punct .semicolon

namespace Parser

theorem typeKind_class (hs : s.Shows (keywordToken .class_ :: rest)) :
    Reader.Accepts source s typeKind fun k s' => k = .class_ ∧ s'.Shows rest := by
  refine (advance_accepts hs).bind fun t s₁ h₁ => ?_
  have hk : t.kind = .keyword .class_ := by
    rw [← kind_erase, h₁.1]
    rfl
  rw [hk]
  exact .pure ⟨rfl, h₁.2⟩

/-! ## Base types -/

theorem baseType_reads {x : TypeSyntax} (hx : x.IsPrintable)
    (hv : v = markToken .comma ∨ v = markToken .leftBrace) (hs : s.Shows (x.tokens ++ v :: rest)) :
    Parser.Accepts source s baseType fun y s' => erase y = erase x ∧ s'.Shows (v :: rest) := by
  have hv : v.endsType = true ∧ v.kind ≠ .punct .leftParen := by
    rcases hv with rfl | rfl <;> simp [Token.endsType, markToken]
  refine (type_reads hx hs (.cons hv.1)).bind fun y s₁ h₁ => .get fun _ => ?_
  rw [if_neg (mt isAtMark_iff.1 (h₁.2.peek_kind ▸ hv.2))]
  exact .pure h₁

/-- **Base types are read**, up to an opening brace. -/
theorem baseTypes_reads {bases : List TypeSyntax} (hbases : ∀ b ∈ bases, b.IsPrintable)
    (hs : s.Shows (baseTokens bases ++ markToken .leftBrace :: rest)) :
    Parser.Accepts source s baseTypes fun xs s' =>
      erase xs = erase bases ∧ s'.Shows (markToken .leftBrace :: rest) := by
  cases bases with
  | nil =>
    have hs : s.Shows (markToken .leftBrace :: rest) := hs
    refine .andThen (eat_declines (by simp [hs.peek_kind, markToken])) fun b s₁ h₁ => ?_
    obtain ⟨rfl, rfl⟩ := h₁
    exact .pure ⟨rfl, hs⟩
  | cons b bs =>
    have hs : s.Shows (markToken .colon :: (separated .comma ((b :: bs).map TypeSyntax.tokens) ++
        markToken .leftBrace :: rest)) := hs
    refine .andThen (eat_accepts hs rfl) fun c s₁ h₁ => ?_
    obtain ⟨rfl, h₁⟩ := h₁
    exact (commaSeparated_accepts (Q := fun y x => erase y = erase x) h₁ (by simp)
      (by simp [markToken]) fun x hx v us s' hv hs' => baseType_reads (hbases x hx) hv hs').mono
        fun xs s₂ h₂ => ⟨erase_eq_of_forall₂ h₂.1, h₂.2⟩

/-! ## Classes -/

theorem eatMark_declines {mark : Punct} (h : s.peek.kind ≠ .punct mark) :
    Parser.Accepts source s (discard (liftM (eatMark mark))) fun _ s' => s' = s :=
  .discard (.lift ((eat_declines h).mono fun _ _ h => h.2))

/-- A closing brace, behind which no semicolon stands. -/
theorem closing_accepts (hs : s.Shows (markToken .rightBrace :: rest)) (hr : NoSemicolon rest)
    {α : Type} {a : α} : Parser.Accepts source s
      (do expectClosing .rightBrace
          discard (eatMark .semicolon)
          return a : Parser α) fun x s' => x = a ∧ s'.Shows rest := by
  refine .andThen (expectClosing_accepts hs rfl) fun _ s₁ h₁ => .good fun hg => ?_
  have hne : s₁.peek.kind ≠ .punct .semicolon :=
    ParserState.Shows.peek_of (p := (· ≠ .punct .semicolon)) h₁ hg hr (by simp)
  exact (eatMark_declines hne).bind fun _ s₂ h₂ => .pure ⟨rfl, h₂ ▸ h₁⟩

section
variable {members : Reader (List Member)} {n : Nat} {C : Prop} {Q : List Member → Prop}
  (hsafe : ∀ s', s'.after.length < n →
    Reader.Safe source s' members fun ms _ => Member.AllWorded ms)
  (hn : s.after.length ≤ n)
  (hmembers : ∀ s' : ParserState, s'.Shows ts → s'.after.length < n →
    Reader.Passes source s' members C fun ms s'' =>
      Q ms ∧ s''.Shows (markToken .rightBrace :: rest))
  (hr : NoSemicolon rest)
include hsafe hn hmembers hr

theorem typeBody_passes (hs : s.Shows (markToken .leftBrace :: ts)) :
    Parser.Passes source s (typeBody members) C fun ms s' => Q ms ∧ s'.Shows rest := by
  refine .andThen (eat_declines (by rw [hs.peek_kind]; simp [markToken])) fun b s₁ h₁ => ?_
  obtain ⟨rfl, rfl⟩ := h₁
  refine (expect_accepts hs rfl).discard.bind fun _ s₂ h₂ => ?_
  have hlen : s₂.after.length < n := by
    have := hs.length_after
    rw [List.length_cons] at this
    rw [ParserState.Shows.length_after h₂]
    omega
  refine .bind_left (S := fun _ _ => True) (.lift (hsafe s₂ hlen)) (.lift (hmembers s₂ h₂ hlen))
    (fun _ _ _ _ => ?_) fun ms s₃ h₃ => ?_
  · exact .andThen expectClosing_safe fun _ _ _ _ _ =>
      (Parser.Safe.lift eatMark_passes).discard.bind fun _ _ _ _ _ => .pure ⟨⟩
  · exact (closing_accepts h₃.2 hr).mono fun x s₄ h₄ => ⟨h₄.1 ▸ h₃.1, h₄.2⟩

/-- **A class is read just if its members are.** -/
theorem typeWithMembers_passes {head : Head} {name : Ident} {ps : List TypeParameter}
    {bases : List TypeSyntax} (hps : ∀ p ∈ ps, p.attributes = [] ∧ p.variance? = none)
    (hbases : ∀ b ∈ bases, b.IsPrintable) (hs : s.Shows (classTokens name ps bases ts)) :
    Parser.Passes source s (typeWithMembers members head) C fun t s' =>
      (t.modifiers = head.modifiers ∧ erase t = erase (⟨head.attributes, head.modifiers, .class_,
        name, ps, none, bases, [], t.members, default⟩ : TypeDeclaration) ∧ Q t.members) ∧
          s'.Shows rest := by
  refine .andThen (typeKind_class hs) fun kind s₁ h₁ => ?_
  obtain ⟨rfl, h₁⟩ := h₁
  refine (ident_accepts h₁ rfl).bind fun i s₂ h₂ => ?_
  have hbase : ∃ v us, baseTokens bases ++ markToken .leftBrace :: ts = v :: us ∧
      v.kind ≠ .punct .less ∧ v.kind ≠ .punct .leftParen := by
    cases bases with
    | nil => exact ⟨_, _, rfl, by simp [markToken]⟩
    | cons b bs => exact ⟨_, _, rfl, by simp [markToken]⟩
  obtain ⟨v, us, hv, hless, hparen⟩ := hbase
  refine (typeParameters_reads hps (hv ▸ h₂.2) hless).bind fun qs s₃ h₃ => .get fun _ => ?_
  have hk : s₃.peek.kind ≠ .punct .leftParen := h₃.2.peek_kind ▸ hparen
  dsimp only
  rw [if_neg (mt isAtMark_iff.1 hk)]
  refine Parser.Passes.bind (R := fun x? s' => x? = none ∧ s' = s₃) (.pure ⟨rfl, rfl⟩)
    fun x? s₄ h₄ => ?_
  obtain ⟨rfl, rfl⟩ := h₄
  refine (baseTypes_reads hbases (hv ▸ h₃.2)).bind fun bs s₅ h₅ => ?_
  have hbrace : s₅.peek.isContextual "where" = false := by
    simp [Token.isContextual, h₅.2.peek_kind, markToken]
  refine (constraintClauses_declines hbrace).bind fun cs s₆ h₆ => ?_
  obtain ⟨rfl, rfl⟩ := h₆
  have hlen : s₆.after.length ≤ n := by
    have hlength := hs.length_after
    simp only [classTokens, List.length_cons, List.length_append] at hlength
    rw [h₅.2.length_after, List.length_cons]
    omega
  rw [if_neg (by decide)]
  refine .bind_left (S := fun _ _ => True) (typeBody_safe hsafe hlen)
    (typeBody_passes hsafe hlen hmembers hr h₅.2) (fun _ _ _ _ => .get fun _ => .pure ⟨⟩)
      fun ms s₇ h₇ => .get fun _ => .pure ⟨⟨rfl, ?_, h₇.1⟩, h₇.2⟩
  simp [h₃.1, h₅.1, erase_ident_eq (j := name) h₂.1]

end

end Parser

end CommandModules

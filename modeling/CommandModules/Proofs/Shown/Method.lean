/-
  Command modules — methods before known tokens.

  * `typeParameters_reads`, `parameters_reads`: the parts of a method that are written out are
    read back;
  * `body_passes`: a block is read just if the tokens in it are nested;
  * `memberAfter_passes`: a method is read just if its body is; `memberAfter_reads`: a method
    that is written out is read back.
-/
import CommandModules.Proofs.Alike.Type
import CommandModules.Proofs.Shown.Head

namespace CommandModules

open ParserState

variable {source : List Char} {s : ParserState} {t u v : Token} {ts rest : List Token}

namespace Parser

/-! ## Type parameters -/

theorem typeParameter_accepts (hs : s.Shows (t :: ts)) (ht : t.kind = .identifier) :
    Parser.Accepts source s typeParameter fun p s' =>
      erase p = ⟨[], none, ⟨t.lexeme, default⟩, default⟩ ∧ s'.Shows ts := by
  have hk : s.peek.kind = .identifier := hs.peek_kind.trans ht
  refine .get fun _ => (attributeSections_declines (by simp [hk])).bind fun as s₁ h₁ => ?_
  obtain ⟨rfl, rfl⟩ := h₁
  refine .get fun _ => ?_
  dsimp only
  rw [if_neg (by simp [hk])]
  refine Parser.Passes.bind (R := fun v? s' => v? = none ∧ s' = s₁) (.pure ⟨rfl, rfl⟩)
    fun v? s₂ h₂ => ?_
  obtain ⟨rfl, rfl⟩ := h₂
  refine (ident_accepts hs ht).bind fun i s₃ h₃ => .get fun _ => .pure ⟨?_, h₃.2⟩
  simp [← h₃.1, show erase i = ⟨i.name, default⟩ from rfl]

/-- **Type parameters are read**, up to a token that is no opening angle. -/
theorem typeParameters_reads {ps : List TypeParameter}
    (hps : ∀ p ∈ ps, p.attributes = [] ∧ p.variance? = none)
    (hs : s.Shows (TypeParameter.listTokens ps ++ u :: rest)) (hu : u.kind ≠ .punct .less) :
    Parser.Accepts source s typeParameters fun qs s' =>
      erase qs = erase ps ∧ s'.Shows (u :: rest) := by
  cases ps with
  | nil =>
    refine .andThen (eat_declines (ParserState.Shows.peek_kind hs ▸ hu)) fun b s₁ h₁ => ?_
    obtain ⟨rfl, rfl⟩ := h₁
    exact .pure ⟨rfl, hs⟩
  | cons p ps =>
    have hs' : s.Shows (markToken .less ::
        (separated .comma ((p :: ps).map fun q => [q.name.token]) ++
          markToken .greater :: u :: rest)) := by
      simpa [TypeParameter.listTokens, argumentTokens] using hs
    refine .andThen (eat_accepts hs' rfl) fun b s₁ h₁ => ?_
    obtain ⟨rfl, h₁⟩ := h₁
    refine (commaSeparated_accepts (Q := fun q p => erase q = erase p) h₁ (by simp)
      (by simp [markToken]) fun q hq v us s' _ hs' => ?_).bind fun qs s₂ h₂ => ?_
    · refine (typeParameter_accepts hs' rfl).mono fun x s₂ h₂ => ⟨h₂.1.trans ?_, h₂.2⟩
      obtain ⟨attributes, variance?, name, span⟩ := q
      obtain ⟨rfl, rfl⟩ := hps _ hq
      rfl
    · exact (expect_accepts h₂.2 rfl).discard.bind fun _ s₃ h₃ =>
        .pure ⟨erase_eq_of_forall₂ h₂.1, h₃⟩

/-! ## Parameters -/

theorem isAtParameterModifier_of_beginsType (h : s.peek.beginsType = true) (hp : s.peek.IsPlain) :
    isAtParameterModifier s = false := by
  unfold isAtParameterModifier
  split <;> rename_i hk
  all_goals first | rfl | (exfalso; simp [Token.beginsType, hk, TokenKind.isPredefinedType,
    Keyword.isPredefinedType] at h; done) | skip
  have : s.peek.lexeme ≠ "scoped" := fun he => hp hk (by simp [he, contextualWords])
  simp [this]

theorem initializer?_declines (h : s.peek.kind ≠ .punct .equal) :
    Parser.Accepts source s initializer? fun e? s' => e? = none ∧ s' = s := by
  refine .andThen (eat_declines h) fun b s₁ h₁ => ?_
  obtain ⟨rfl, rfl⟩ := h₁
  exact .pure ⟨rfl, rfl⟩

/-- What a plain type begins with. -/
theorem TypeSyntax.IsPlain.peek {x : TypeSyntax} (hx : x.IsPlain) (hs : s.Shows (x.tokens ++ ts)) :
    s.peek.beginsType = true ∧ s.peek.IsPlain := by
  obtain ⟨u, us, hu, hbegin⟩ := hx.1.tokens_begin
  have hplain : u.IsPlain := hx.2 u (hu ▸ List.mem_cons_self)
  rw [hu] at hs
  have hpeek : erase s.peek = u := ParserState.Shows.peek hs
  rw [← hpeek] at hbegin hplain
  exact ⟨hbegin, hplain⟩

theorem parameter_reads {p : Parameter} (hp : p.IsPrintable)
    (hv : v = markToken .comma ∨ v = markToken .rightParen)
    (hs : s.Shows (p.tokens ++ v :: rest)) :
    Parser.Accepts source s parameter fun x s' => erase x = erase p ∧ s'.Shows (v :: rest) := by
  obtain ⟨attributes, modifiers, type, name, default?, span⟩ := p
  obtain ⟨rfl, rfl, htype, hname, rfl⟩ := hp
  have hs : s.Shows (type.tokens ++ name.token :: v :: rest) := by
    simpa [Parameter.tokens] using hs
  obtain ⟨hbegin, hplain⟩ := TypeSyntax.IsPlain.peek htype hs
  refine .get fun _ => (attributeSections_declines (ne_bracket_of_beginsType hbegin)).bind
    fun as s₁ h₁ => ?_
  obtain ⟨rfl, rfl⟩ := h₁
  refine Parser.Passes.bind (R := fun m s' => m = ⟨.none, []⟩ ∧ s' = s₁)
    ((whileAt_declines (isAtParameterModifier_of_beginsType hbegin hplain)).bind fun ws s₂ h₂ => ?_)
    fun m s₂ h₂ => ?_
  · obtain ⟨rfl, rfl⟩ := h₂
    exact .pure ⟨rfl, rfl⟩
  obtain ⟨rfl, rfl⟩ := h₂
  refine (type_reads htype.1 hs (.cons rfl)).bind fun x s₃ h₃ => ?_
  refine (ident_accepts h₃.2 rfl).bind fun i s₄ h₄ => ?_
  have hne : s₄.peek.kind ≠ .punct .equal := by
    rw [h₄.2.peek_kind]
    rcases hv with rfl | rfl <;> simp [markToken]
  refine (initializer?_declines hne).bind fun e? s₅ h₅ => .get fun _ => .pure ?_
  obtain ⟨rfl, rfl⟩ := h₅
  exact ⟨by simp [h₃.1, erase_ident_eq (j := name) h₄.1], h₄.2⟩

/-- **Parameters are read.** -/
theorem parameters_reads {ps : List Parameter} (hps : ∀ p ∈ ps, p.IsPrintable)
    (hs : s.Shows (parenthesized (ps.map Parameter.tokens) ++ rest)) :
    Parser.Accepts source s parameters fun xs s' => erase xs = erase ps ∧ s'.Shows rest := by
  have hs : s.Shows (markToken .leftParen :: (separated .comma (ps.map Parameter.tokens) ++
      markToken .rightParen :: rest)) := by
    simpa [parenthesized] using hs
  refine .get fun _ => ?_
  rw [if_pos (isAtMark_iff.2 hs.peek_kind)]
  refine (Parser.Passes.lift (advance_shows hs)).discard.bind fun _ s₁ h₁ => .get fun _ => ?_
  dsimp only
  cases ps with
  | nil =>
    have h₁ : s₁.Shows (markToken .rightParen :: rest) := h₁
    rw [if_pos (isAtMark_iff.2 h₁.peek_kind)]
    refine Parser.Passes.bind (R := fun ps s' => ps = [] ∧ s' = s₁) (.pure ⟨rfl, rfl⟩)
      fun ps s₂ h₂ => ?_
    obtain ⟨rfl, rfl⟩ := h₂
    exact (expect_accepts h₁ rfl).discard.bind fun _ s₃ h₃ => .pure ⟨rfl, h₃⟩
  | cons p ps =>
    have hk : s₁.peek.kind ≠ .punct .rightParen := by
      obtain ⟨us, hus⟩ := separated_cons .comma p.tokens (ps.map Parameter.tokens)
      rw [List.map_cons, hus, Parameter.tokens, List.append_assoc, List.append_assoc] at h₁
      obtain ⟨hbegin, -⟩ := TypeSyntax.IsPlain.peek (hps p List.mem_cons_self).type h₁
      exact fun hk => by simp [Token.beginsType, hk, TokenKind.isPredefinedType] at hbegin
    rw [if_neg (mt isAtMark_iff.1 hk)]
    refine (commaSeparated_accepts (Q := fun x p => erase x = erase p) h₁ (by simp)
      (by simp [markToken]) fun q hq v us s' hv hs' => parameter_reads (hps q hq) hv hs').bind
        fun xs s₂ h₂ => ?_
    exact (expect_accepts h₂.2 rfl).discard.bind fun _ s₃ h₃ =>
      .pure ⟨erase_eq_of_forall₂ h₂.1, h₃⟩

/-! ## Bodies -/

theorem constraintClauses_declines (h : s.peek.isContextual "where" = false) :
    Parser.Accepts source s constraintClauses fun as s' => as = [] ∧ s' = s :=
  whileAt_declines h

/-- A group whose tokens are nested is passed over; if any error in it is recorded, they
    are not. -/
theorem skipGroup_passes
    (hs : s.Shows (markToken .leftBrace :: (ts ++ markToken .rightBrace :: rest)))
    (h : ∀ eof, (Group.take eof [] (markToken .leftBrace :: (ts ++ markToken .rightBrace ::
      rest))).errors = [] → Nested ts) :
    Reader.Passes source s skipGroup (Nested ts) fun _ s' => s'.Shows rest := by
  intro hg
  obtain ⟨k, hk, -⟩ := skipGroup_safe hg
  have hrun : (skipGroup.run s).2 = s.skipGroup := rfl
  have htake := Group.take_erase s.eof [] s.after
  rw [hs] at htake
  rw [hrun] at hk ⊢
  refine ⟨k, hk, fun hC => ?_, fun hC he => hC (h (erase s.eof) ?_)⟩
  · rw [Group.take_nested rfl rfl rfl hC] at htake
    obtain ⟨-, hrest, herr⟩ := Group.mk.inj htake
    have herr := List.map_eq_nil_iff.1 herr.symm
    exact ⟨by simp [ParserState.skipGroup, herr], hrest.symm⟩
  · have herr : (Group.take s.eof [] s.after).errors = [] := (List.append_eq_nil_iff.1 he).2
    rw [htake, herr]
    rfl

/-- **A block is read just if the tokens in it are nested.** -/
theorem body_passes (hs : s.Shows (markToken .leftBrace :: (ts ++ markToken .rightBrace :: rest)))
    (h : ∀ eof, (Group.take eof [] (markToken .leftBrace :: (ts ++ markToken .rightBrace ::
      rest))).errors = [] → Nested ts) :
    Parser.Passes source s body (Nested ts) fun b s' => (∃ span, b = .block span) ∧
      s'.Shows rest := by
  refine .get fun _ => ?_
  rw [if_pos (isAtMark_iff.2 hs.peek_kind)]
  refine .bind_left (S := fun _ _ => True) (.lift skipGroup_safe) (.lift (skipGroup_passes hs h))
    (fun _ _ _ _ => .get fun _ => .pure ⟨⟩) fun _ _ h₁ => .get fun _ => .pure ⟨⟨_, rfl⟩, h₁⟩

/-- A body that is written out is read back. -/
theorem body_reads {b : Body} (hb : b.IsPrintable) (hs : s.Shows (b.tokens ++ rest)) :
    Parser.Accepts source s body fun x s' => erase x = erase b ∧ s'.Shows rest := by
  cases b with
  | block span =>
    have hs : s.Shows (markToken .leftBrace :: ([] ++ markToken .rightBrace :: rest)) := hs
    refine ((body_passes hs fun _ _ => .nil).mono fun x s' h => ⟨?_, h.2⟩).of_iff
      (iff_of_true ⟨⟩ .nil)
    obtain ⟨⟨span', rfl⟩, -⟩ := h
    rfl
  | none =>
    have hs : s.Shows (markToken .semicolon :: rest) := hs
    have hk : s.peek.kind = .punct .semicolon := hs.peek_kind
    refine .get fun _ => ?_
    rw [if_neg (by simp [isAtMark, isAt, hk])]
    refine .andThen (eat_declines (by simp [hk])) fun c s₁ h₁ => ?_
    obtain ⟨rfl, rfl⟩ := h₁
    refine .andThen (eat_accepts hs rfl) fun c s₂ h₂ => ?_
    obtain ⟨rfl, h₂⟩ := h₂
    exact .pure ⟨rfl, h₂⟩
  | expression => cases hb

/-! ## Names -/

/-- Tokens that can stand in type arguments are passed over up to the angle that closes them. -/
theorem closingAngle?_of_parts (h : ∀ t ∈ ts, isTypeArgumentPart t.kind = true) :
    closingAngle? 0 (ts ++ markToken .greater :: rest) = some (ts.length + 1) := by
  induction ts with
  | nil => simp [closingAngle?, markToken]
  | cons t ts ih =>
    obtain ⟨ht, hts⟩ := List.forall_mem_cons.1 h
    have hne : t.kind ≠ .punct .less ∧ t.kind ≠ .punct .greater := by
      constructor <;> intro hk <;> rw [hk] at ht <;> cases ht
    simp [closingAngle?, ht, hne, ih hts]

/-- A list of type parameters looks like one of type arguments, with no dot behind it. -/
theorem typeArgumentsLength?_typeParameters {ps : List TypeParameter} {n : Nat} (hps : ps ≠ [])
    (hn : typeArgumentsLength? (TypeParameter.listTokens ps ++ rest) = some n) :
    n = (TypeParameter.listTokens ps).length := by
  have htokens : TypeParameter.listTokens ps = markToken .less ::
      (separated .comma (ps.map fun p => [p.name.token]) ++ [markToken .greater]) := by
    simp [TypeParameter.listTokens, argumentTokens, hps]
  have hparts : ∀ t ∈ separated .comma (ps.map fun p => [p.name.token]),
      isTypeArgumentPart t.kind = true := by
    refine forall_mem_separated rfl fun us hus t ht => ?_
    obtain ⟨p, -, rfl⟩ := List.mem_map.1 hus
    rw [List.mem_singleton.1 ht]
    rfl
  have hlength := @closingAngle?_of_parts _ rest hparts
  rw [htokens] at hn ⊢
  simp only [List.cons_append, List.append_assoc, List.nil_append, typeArgumentsLength?,
    show (markToken .less).kind = .punct .less from rfl, if_true, hlength, Option.map_some,
    Option.some.injEq] at hn
  simp [← hn]

/-- **A name before type parameters and a parenthesis is the whole name of a member.** -/
theorem memberName_accepts {ps : List TypeParameter} (ht : t.kind = .identifier)
    (hs : s.Shows (t :: (TypeParameter.listTokens ps ++ markToken .leftParen :: rest))) :
    Parser.Accepts source s memberName fun x s' => x.1 = none ∧ x.2.name = t.lexeme ∧
      s'.Shows (TypeParameter.listTokens ps ++ markToken .leftParen :: rest) := by
  refine .get fun _ => .loop (I := fun q s' => q.segments = [] ∧ s' = s) ⟨rfl, rfl⟩ fun q s' hI => ?_
  obtain ⟨hq, rfl⟩ := hI
  refine (ident_accepts hs ht).bind fun i s₁ h₁ => .get fun _ => ?_
  have hafter : typeArgumentsLength? s₁.after =
      typeArgumentsLength? (TypeParameter.listTokens ps ++ markToken .leftParen :: rest) := by
    rw [← typeArgumentsLength?_erase, h₁.2]
  have hargs (n : Nat) (hn : typeArgumentsLength? s₁.after = some n) :
      ((s₁.peekAt n).kind == .punct .dot) = false := by
    rw [hafter] at hn
    by_cases hps : ps = []
    · subst hps
      cases hn
    · obtain rfl := typeArgumentsLength?_typeParameters hps hn
      rw [h₁.2.peekAt_kind (t := markToken .leftParen) (by simp)]
      rfl
  have hdot : s₁.isAtMark .dot = false := by
    refine Bool.eq_false_iff.2 (mt isAtMark_iff.1 ?_)
    by_cases hps : ps = []
    · subst hps
      have h₁ : s₁.Shows (markToken .leftParen :: rest) := h₁.2
      simp [h₁.peek_kind, markToken]
    · have h₁ := h₁.2
      simp only [TypeParameter.listTokens, argumentTokens, List.isEmpty_map, List.isEmpty_iff, hps,
        if_false] at h₁
      rw [ParserState.Shows.peek_kind h₁]
      simp [markToken]
  cases hn : typeArgumentsLength? s₁.after with
  | none =>
    simp only [hdot, Bool.or_self, Bool.false_eq_true, if_false, hq, List.isEmpty_nil, if_true]
    exact .pure ⟨rfl, h₁⟩
  | some n =>
    simp only [hargs n hn, hdot, Bool.or_self, Bool.false_eq_true, if_false, hq, List.isEmpty_nil,
      if_true]
    exact .pure ⟨rfl, h₁⟩

/-! ## Methods -/

/-- Behind the name of a method: its type parameters, its parameters and its body. -/
def signatureTokens (ps : List TypeParameter) (xs : List Parameter) (ts : List Token) : List Token :=
  TypeParameter.listTokens ps ++ (parenthesized (xs.map Parameter.tokens) ++ ts)

/-- The parts of a method before its body. -/
def methodWith (head : Head) (returnType : TypeSyntax) (name : Ident) (ps : List TypeParameter)
    (xs : List Parameter) (body : Body) : Method :=
  ⟨head.attributes, head.modifiers, returnType, none, name, ps, xs, [], body, default⟩

section
variable {head : Head} {C : Prop} {Q : Body → Prop} {ps : List TypeParameter} {xs : List Parameter}
  (hps : ∀ p ∈ ps, p.attributes = [] ∧ p.variance? = none) (hxs : ∀ x ∈ xs, x.IsPrintable)
  (hu : u.kind ≠ .identifier) (hbody : ∀ s : ParserState, s.Shows (u :: ts) →
    Parser.Passes source s body C fun b s' => Q b ∧ s'.Shows rest)
include hps hxs hu hbody

theorem method_passes {returnType : TypeSyntax} {name : Ident}
    (hs : s.Shows (signatureTokens ps xs (u :: ts))) :
    Parser.Passes source s (method head returnType none name) C fun m s' =>
      (∃ x, m = .method x ∧ erase x = erase (methodWith head returnType name ps xs x.body) ∧
        Q x.body) ∧ s'.Shows rest := by
  refine (typeParameters_reads hps hs (by simp [markToken])).bind fun qs s₁ h₁ => ?_
  refine (parameters_reads hxs h₁.2).bind fun ys s₂ h₂ => ?_
  have hwhere : s₂.peek.isContextual "where" = false := by
    simp [Token.isContextual, h₂.2.peek_kind, hu]
  refine (constraintClauses_declines hwhere).bind fun cs s₃ h₃ => ?_
  obtain ⟨rfl, rfl⟩ := h₃
  refine .bind_left (S := fun _ _ => True) body_safe (hbody s₃ h₂.2)
    (fun _ _ _ _ => .get fun _ => .pure ⟨⟩) fun b s₄ h₄ => .get fun _ => .pure ?_
  exact ⟨⟨_, rfl, by simp [methodWith, h₁.1, h₂.1], h₄.1⟩, h₄.2⟩

theorem typedMember_passes {type : TypeSyntax} {name : Ident}
    (hs : s.Shows (name.token :: signatureTokens ps xs (u :: ts))) :
    Parser.Passes source s (typedMember head type) C fun m s' =>
      (∃ x, m = .method x ∧ erase x = erase (methodWith head type name ps xs x.body) ∧
        Q x.body) ∧ s'.Shows rest := by
  have hk : s.peek.kind = .identifier := hs.peek_kind
  refine .andThen (eat_declines (by simp [hk])) fun b s₁ h₁ => ?_
  obtain ⟨rfl, rfl⟩ := h₁
  refine .get fun _ => ?_
  rw [if_neg (by simp [isAt, hk])]
  have hs' : s₁.Shows (name.token :: (TypeParameter.listTokens ps ++ markToken .leftParen ::
      (separated .comma (xs.map Parameter.tokens) ++ markToken .rightParen :: u :: ts))) := by
    simpa [signatureTokens, parenthesized] using hs
  refine (memberName_accepts rfl hs').bind fun x s₂ h₂ => .get fun _ => ?_
  obtain ⟨interface?, i⟩ := x
  obtain ⟨rfl, hi, h₂⟩ := h₂
  have hat : (s₂.isAtMark .leftParen || s₂.isAtMark .less) = true := by
    rw [Bool.or_eq_true, isAtMark_iff, isAtMark_iff]
    cases ps with
    | nil => exact .inl (ParserState.Shows.peek_kind h₂)
    | cons p ps => exact .inr (ParserState.Shows.peek_kind h₂)
  dsimp only
  rw [if_pos hat]
  refine (method_passes hps hxs hu hbody (by simpa [signatureTokens, parenthesized] using h₂)).mono
    fun m s₃ h₃ => ⟨?_, h₃.2⟩
  obtain ⟨⟨x, rfl, hx, hQ⟩, -⟩ := h₃
  exact ⟨x, rfl, hx.trans (by simp [methodWith, erase_ident_eq (j := name) hi]), hQ⟩

/-- **A method is read just if its body is.** -/
theorem memberAfter_passes {type : TypeSyntax} {name : Ident} (htype : type.IsPrintable)
    (hs : s.Shows (type.tokens ++ name.token :: signatureTokens ps xs (u :: ts))) :
    Parser.Passes source s (memberAfter head) C fun m s' =>
      (∃ x, m = .method x ∧ erase x = erase (methodWith head type name ps xs x.body) ∧
        Q x.body) ∧ s'.Shows rest := by
  have hread : Parser.Passes source s (Parser.type >>= typedMember head) C fun m s' =>
      (∃ x, m = .method x ∧ erase x = erase (methodWith head type name ps xs x.body) ∧
        Q x.body) ∧ s'.Shows rest := by
    refine (type_reads htype hs (.cons rfl)).bind fun y s₁ h₁ => ?_
    refine (typedMember_passes hps hxs hu hbody h₁.2).mono fun m s₂ h₂ => ⟨?_, h₂.2⟩
    obtain ⟨⟨x, rfl, hx, hQ⟩, -⟩ := h₂
    exact ⟨x, rfl, hx.trans (by simp [methodWith, h₁.1]), hQ⟩
  obtain ⟨v, vs, hv, hbegin⟩ := htype.tokens_begin
  have hk : s.peek.kind = v.kind := by
    rw [hv] at hs
    exact ParserState.Shows.peek_kind hs
  rw [Token.beginsType] at hbegin
  refine .good fun hg => .get fun _ => ?_
  split
  case h_6 hid =>
    have hnext : (s.peekAt 1).kind ≠ .punct .leftParen := by
      refine ParserState.Shows.peekAt_of (p := (· ≠ .punct .leftParen)) hs hg (fun t ht => ?_) (by simp)
      rcases htype.tokens_second (by simp [hv, ← hk, hid]) ht with h | h
      · exact fun hk => by simp [Token.endsType, hk] at h
      · obtain rfl := Option.some_inj.1 h
        simp [Ident.token, wordToken]
    rw [if_neg hnext]
    exact hread
  case h_7 => exact hread
  all_goals
    rename_i hkind
    exact absurd (hkind ▸ hk ▸ hbegin) (by decide)

end

/-- **A method that is written out is read back** behind its attributes and modifiers. -/
theorem memberAfter_reads {head : Head} {m : Method} (hm : m.IsPrintable)
    (hattrs : erase head.attributes = erase m.attributes)
    (hmods : erase head.modifiers = erase m.modifiers)
    (hs : s.Shows (m.returnType.tokens ++ m.name.token ::
      signatureTokens m.typeParameters m.parameters (m.body.tokens ++ rest))) :
    Parser.Accepts source s (memberAfter head) fun x s' =>
      erase x = erase (Member.method m) ∧ s'.Shows rest := by
  obtain ⟨u, us, hu, hk⟩ : ∃ u us, m.body.tokens = u :: us ∧ u.kind ≠ .identifier := by
    have := hm.body
    cases hbody : m.body with
    | block => exact ⟨_, _, rfl, by simp [markToken]⟩
    | none => exact ⟨_, _, rfl, by simp [markToken]⟩
    | expression =>
      rw [hbody] at this
      cases this
  rw [hu] at hs
  refine (memberAfter_passes (C := True) (Q := fun b => erase b = erase m.body)
    (fun p hp => ⟨(hm.typeParameters p hp).attributes, (hm.typeParameters p hp).variance⟩)
    hm.parameters hk (fun s' hs' => body_reads hm.body (by rwa [hu])) hm.returnType.1 hs).mono
      fun x s' h => ⟨?_, h.2⟩
  obtain ⟨⟨y, rfl, hy, hbody⟩, -⟩ := h
  have hinterface := hm.explicitInterface
  have hconstraints := hm.constraints
  obtain ⟨attributes, modifiers, returnType, interface?, name, ps, xs, constraints, body, span⟩ := m
  obtain rfl : interface? = none := hinterface
  obtain rfl : constraints = [] := hconstraints
  simp only [erase_memberMethod, hy, methodWith, erase_method, hattrs, hmods, hbody]

end Parser

end CommandModules

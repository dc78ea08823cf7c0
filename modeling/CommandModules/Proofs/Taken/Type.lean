/-
  Command modules — the tokens of types and expressions.

  * `TypeTokens ts`: the tokens can stand between the angle brackets of type arguments, and
    their brackets, the angle ones among them, are nested;
  * `type_gives`: the tokens of a type are nested, and its text spells them;
  * `typeArguments_gives`: type arguments that are read have the length that is seen ahead;
  * `expression_gives`: the text of an expression spells its tokens, which are nested
    but for parentheses and brackets between angle brackets that were taken for
    type arguments.
-/
import CommandModules.Proofs.Taken.Basic

namespace CommandModules

open ParserState Text

/-! ## The tokens of types -/

/-- Tokens that can stand between the angle brackets of type arguments, and whose brackets
    are nested, the angle ones included. -/
inductive TypeTokens : List Token → Prop
  | nil : TypeTokens []
  | part {t : Token} : t.isFlat = true → Parser.isTypeArgumentPart t.kind = true → TypeTokens [t]
  | append {ts us : List Token} : TypeTokens ts → TypeTokens us → TypeTokens (ts ++ us)
  | between {mark : Punct} {os ts cs : List Token} : mark = .leftParen ∨ mark = .leftBracket →
      Parser.IsOne (.punct mark) os → TypeTokens ts → Parser.IsOne (.punct mark.closer) cs →
      TypeTokens (os ++ (ts ++ cs))
  | angles {os ts cs : List Token} : Parser.IsOne (.punct .less) os → TypeTokens ts →
      Parser.IsOne (.punct .greater) cs → TypeTokens (os ++ (ts ++ cs))

namespace Parser

variable {depth : Nat} {t : Token} {ts : List Token}

theorem closingAngle?_less (h : t.kind = .punct .less) :
    closingAngle? depth (t :: ts) = (closingAngle? (depth + 1) ts).map (· + 1) := by
  conv_lhs => unfold closingAngle?
  rw [if_pos h]

theorem closingAngle?_greater (h : t.kind = .punct .greater) :
    closingAngle? (depth + 1) (t :: ts) = (closingAngle? depth ts).map (· + 1) := by
  simp [closingAngle?, h]

theorem closingAngle?_last (h : t.kind = .punct .greater) : closingAngle? 0 (t :: ts) = some 1 := by
  simp [closingAngle?, h]

theorem closingAngle?_part (h : isTypeArgumentPart t.kind = true) :
    closingAngle? depth (t :: ts) = (closingAngle? depth ts).map (· + 1) := by
  conv_lhs => unfold closingAngle?
  rw [if_neg, if_neg, if_pos h] <;>
  · intro hk
    simp [hk, isTypeArgumentPart] at h

end Parser

namespace TypeTokens

variable {ts us : List Token}

theorem nested (h : TypeTokens ts) : Nested ts := by
  induction h with
  | nil => exact .nil
  | part hf => exact .one hf
  | append _ _ ih ih' => exact ih.append ih'
  | between hm ho _ hc ih =>
    exact Parser.nested_between ho (by rcases hm with rfl | rfl <;> decide) ih hc
  | angles ho _ hc ih =>
    exact (ho.nested_mark (by decide)).append (ih.append (hc.nested_mark (by decide)))

theorem of_forall (h : ∀ t ∈ ts, TypeTokens [t]) : TypeTokens ts := by
  induction ts with
  | nil => exact .nil
  | cons t ts ih => exact (h t (by simp)).append (ih fun u hu => h u (by simp [hu]))

/-- The search for the closing angle bracket passes over the tokens of a type. -/
theorem closingAngle?_append (h : TypeTokens ts) (depth : Nat) (us : List Token) :
    Parser.closingAngle? depth (ts ++ us) = (Parser.closingAngle? depth us).map (· + ts.length) := by
  induction h generalizing depth us with
  | nil => simp
  | part _ ht => exact Parser.closingAngle?_part ht
  | append _ _ ih ih' =>
    rw [List.append_assoc, ih, ih', Option.map_map, List.length_append]
    congr 1
    funext n
    simp only [Function.comp]
    omega
  | between hm ho _ hc ih =>
    obtain ⟨o, rfl, ho⟩ := ho
    obtain ⟨c, rfl, hc⟩ := hc
    have ho : Parser.isTypeArgumentPart o.kind = true := by
      rcases hm with rfl | rfl <;> simp [ho, Parser.isTypeArgumentPart]
    have hc : Parser.isTypeArgumentPart c.kind = true := by
      rcases hm with rfl | rfl <;> simp [hc, Parser.isTypeArgumentPart, Punct.closer]
    simp only [List.cons_append, List.append_assoc, List.nil_append]
    rw [Parser.closingAngle?_part ho, ih, Parser.closingAngle?_part hc]
    simp [Function.comp_def, Nat.add_comm, Nat.add_left_comm]
  | angles ho _ hc ih =>
    obtain ⟨o, rfl, ho⟩ := ho
    obtain ⟨c, rfl, hc⟩ := hc
    simp only [List.cons_append, List.append_assoc, List.nil_append]
    rw [Parser.closingAngle?_less ho, ih, Parser.closingAngle?_greater hc]
    simp [Function.comp_def, Nat.add_comm, Nat.add_left_comm]

/-- Type arguments have the length that is seen ahead. -/
theorem typeArgumentsLength?_append {os cs : List Token} (ho : Parser.IsOne (.punct .less) os)
    (h : TypeTokens ts) (hc : Parser.IsOne (.punct .greater) cs) :
    Parser.typeArgumentsLength? (os ++ (ts ++ cs) ++ us) = some (os ++ (ts ++ cs)).length := by
  obtain ⟨o, rfl, ho⟩ := ho
  obtain ⟨c, rfl, hc⟩ := hc
  simp only [List.cons_append, List.append_assoc, List.nil_append]
  rw [Parser.typeArgumentsLength?, if_pos ho, h.closingAngle?_append, Parser.closingAngle?_last hc]
  simp [Nat.add_comm]

end TypeTokens

/-- The text of the type spells the tokens, which are those of a type. -/
def TypeSyntax.Written (t : TypeSyntax) (ts : List Token) : Prop :=
  TypeTokens ts ∧ ts ≠ [] ∧ Spells t.text.toList (Erase.erase ts)

/-- The text of the expression spells the tokens, which keep braces open. -/
def ExprSyntax.Written (e : ExprSyntax) (ts : List Token) : Prop :=
  Keeps ts ∧ Spells e.text.toList (erase ts)

namespace Parser

variable {source : List Char} {s : ParserState}

/-! ## Names and types -/

theorem nested_of_most {t : Token} {ts : List Token} (h : ts = [] ∨ ts = [t])
    (ht : t.isFlat = true) : Nested ts := by
  rcases h with rfl | rfl
  exacts [.nil, .one ht]

theorem typeTokens_of_most {t : Token} {ts : List Token} (h : ts = [] ∨ ts = [t])
    (ht : t.isFlat = true) (hp : isTypeArgumentPart t.kind = true) : TypeTokens ts := by
  rcases h with rfl | rfl
  exacts [.nil, .part ht hp]

/-- One token that can stand in type arguments. -/
theorem IsOne.typeTokens {kind : TokenKind} {ts : List Token} (h : IsOne kind ts)
    (hk : isTypeArgumentPart kind = true)
    (hf : ∀ p, kind = .punct p → p.isOpener = false ∧ p.isCloser = false) : TypeTokens ts := by
  obtain ⟨t, rfl, rfl⟩ := h
  exact .part (Token.isFlat_of_kind hf) hk

theorem IsOne.typeTokens_mark {mark : Punct} {ts : List Token} (h : IsOne (.punct mark) ts)
    (hk : isTypeArgumentPart (.punct mark) = true)
    (hm : mark.isOpener = false ∧ mark.isCloser = false) : TypeTokens ts :=
  h.typeTokens hk fun p hp => by cases hp; exact hm

theorem nameAlias_gives : Parser.Gives source s nameAlias fun _ ts _ => TypeTokens ts := by
  refine .get fun _ _ => ?_
  split
  · rename_i hc
    have hcolons := beq_iff_eq.1 (Bool.and_eq_true_iff.1 hc).2
    refine ident_gives.bind fun _ _ s₁ h₁ => ?_
    refine (Parser.Gives.lift advance_takes_most).discard.bind fun _ _ _ _ => .pure fun hu hi => ?_
    rw [peek_of_takes_one h₁ hi.2] at hu
    rw [List.append_nil]
    exact (hi.2.typeTokens rfl nofun).append (typeTokens_of_most hu
      (by simp [Token.isFlat, hcolons]; decide) (by rw [hcolons]; rfl))
  · exact .pure .nil

section
variable {type : Parser TypeSyntax} {n : Nat}
  (hs : ∀ s', s'.after.length < n → Parser.Safe source s' type fun _ _ => True)
  (h : ∀ s', s'.after.length < n → Parser.Gives source s' type fun _ ts _ => TypeTokens ts)
include hs h

theorem commaSeparatedTypes_gives (hn : s.after.length < n) :
    Parser.Gives source s (commaSeparated type) fun _ ts _ => TypeTokens ts := by
  have hlen {k : Nat} {s' : ParserState} (hk : Moves k s s') : s'.after.length < n := by
    have := hk.length_after
    omega
  refine (commaSeparated_gives (Q := fun _ => True) (N := TypeTokens) .nil (fun _ _ => .append)
    (fun _ hc => hc.typeTokens_mark rfl (by decide)) (fun _ s' hk => hs s' (hlen hk))
    fun _ s' ht => (h s' (hlen ht.moves)).mono fun _ _ _ hu => ⟨⟨⟩, hu⟩).mono fun _ _ _ hr => hr.2

theorem typeArgumentsWith_gives (hn : s.after.length ≤ n) :
    Parser.Gives source s (typeArgumentsWith type) fun _ ts _ =>
      TypeTokens ts ∧ ∀ us, typeArgumentsLength? (ts ++ us) = some ts.length := by
  refine .bind_safe expectMark_safe.discard expectMark_gives.discard
    fun _ ts s₁ h₁ hpos => .get fun _ _ => ?_
  refine .join (R := fun _ ts _ => TypeTokens ts) (fun _ => .pure .nil) (fun _ => ?_) fun _ us s₂ h₂ => ?_
  · have := h₁.moves.length_after
    exact commaSeparatedTypes_gives hs h (by omega)
  · refine expectMark_gives.discard.bind fun _ vs _ _ => .pure fun hv hu ht => ?_
    rw [List.append_nil]
    exact ⟨.angles ht hu hv, fun _ => hu.typeArgumentsLength?_append ht hv⟩

theorem nameSegmentWith_gives (hn : s.after.length ≤ n) :
    Parser.Gives source s (nameSegmentWith type) fun _ ts _ => TypeTokens ts ∧ ts ≠ [] := by
  refine ident_gives.bind fun _ _ _ h₁ => .get fun _ _ => ?_
  refine .join (R := fun _ ts _ => TypeTokens ts) (fun _ => ?_) (fun _ => .pure .nil)
    fun _ _ _ _ => .pure fun hu hi => ?_
  · have := h₁.moves.length_after
    exact (typeArgumentsWith_gives hs h (by omega)).mono fun _ _ _ ht => ht.1
  · rw [List.append_nil]
    exact ⟨(hi.2.typeTokens rfl nofun).append hu, List.append_ne_nil_of_left_ne_nil hi.2.ne_nil _⟩

theorem segmentAndDot_gives (hn : s.after.length ≤ n) {segments : List NameSegment} :
    Parser.Gives source s (segmentAndDot type segments) fun _ ts _ => TypeTokens ts ∧ ts ≠ [] := by
  refine (nameSegmentWith_gives hs h hn).bind fun _ ts s₁ h₁ => .get fun _ _ => ?_
  split
  · rename_i hc
    have hdot := (Bool.and_eq_true_iff.1 hc).1
    refine (Parser.Gives.lift (advance_takes_one (peek_ne_eof_of_mark hdot))).discard.bind
      fun _ _ _ _ => .pure fun hu ht => ?_
    rw [List.append_nil, hu]
    have hmark : IsOne (.punct .dot) [s₁.peek] := ⟨s₁.peek, rfl, beq_iff_eq.1 hdot⟩
    exact ⟨ht.1.append (hmark.typeTokens_mark rfl (by decide)),
      List.append_ne_nil_of_left_ne_nil ht.2 _⟩
  · exact .pure fun ht => by rwa [List.append_nil]

theorem nameWith_gives (hn : s.after.length ≤ n) :
    Parser.Gives source s (nameWith type) fun _ ts _ => TypeTokens ts ∧ ts ≠ [] := by
  refine .get fun hg _ => nameAlias_gives.bind fun _ _ s₁ h₁ => ?_
  refine Parser.Gives.bind (R := fun _ ts _ => TypeTokens ts ∧ ts ≠ []) ?_ fun _ ts s₂ h₂ => ?_
  · have hlen {k : Nat} {s' : ParserState} (hk : Moves k s₁ s') : s'.after.length ≤ n := by
      have := h₁.moves.length_after
      have := hk.length_after
      omega
    refine .loop (I := fun _ ts _ => TypeTokens ts)
      (fun x k s' hk => (segmentAndDot_safe hs (hlen hk)).mono fun r m hr => ?_) .nil
      fun x ts s' ht => (segmentAndDot_gives hs h (hlen ht.moves)).mono fun r us s'' hu hI => ?_
    · cases r with
      | next => exact ⟨⟨⟩, hr.2⟩
      | done => exact ⟨⟩
    · have := hI.append hu.1
      cases r with
      | next => exact this
      | done => exact ⟨this, List.append_ne_nil_of_right_ne_nil _ hu.2⟩
  · refine .andThen (textFrom_gives hg (h₁.trans h₂)) fun _ _ _ _ => .get fun _ _ => .pure
      fun hv hu ht => ?_
    rw [List.append_nil, hv.1, List.append_nil]
    exact ⟨ht.append hu.1, List.append_ne_nil_of_right_ne_nil _ hu.2⟩

omit hs in
theorem tupleElementWith_gives (hn : s.after.length < n) :
    Parser.Gives source s (tupleElementWith type) fun _ ts _ => TypeTokens ts := by
  refine (h s hn).bind fun _ _ _ _ => .get fun _ _ => ?_
  refine .join (R := fun _ ts _ => TypeTokens ts) (fun _ => ?_) (fun _ => .pure .nil)
    fun _ _ _ _ => .pure fun hu ht => ?_
  · exact .map (ident_gives.mono fun _ _ _ hi => hi.2.typeTokens rfl nofun)
  · rw [List.append_nil]
    exact ht.append hu

theorem tupleWith_gives (hn : s.after.length ≤ n) :
    Parser.Gives source s (tupleWith type) fun _ ts _ => TypeTokens ts ∧ ts ≠ [] := by
  refine .bind_safe expectMark_safe.discard expectMark_gives.discard fun _ ts s₁ h₁ hpos => ?_
  have hlen {k : Nat} {s' : ParserState} (hk : Moves k s₁ s') : s'.after.length < n := by
    have := h₁.moves.length_after
    have := hk.length_after
    omega
  refine (commaSeparated_gives (Q := fun _ => True) (N := TypeTokens) .nil (fun _ _ => .append)
    (fun _ hc => hc.typeTokens_mark rfl (by decide)) (fun _ s' hk => tupleElementWith_safe hs (hlen hk))
    fun _ s' ht => (tupleElementWith_gives h (hlen ht.moves)).mono fun _ _ _ hu => ⟨⟨⟩, hu⟩).bind
    fun _ us s₂ h₂ => expectMark_gives.discard.bind fun _ vs s₃ h₃ => ?_
  split
  · refine .get fun _ _ => ?_
    exact Parser.Gives.bind (R := fun _ _ _ => False) .throw fun _ _ _ _ => .pure fun hf => hf.elim
  · refine .pure fun hv hu ht => ?_
    rw [List.append_nil]
    exact ⟨.between (.inl rfl) ht hu.2 hv, List.append_ne_nil_of_left_ne_nil ht.ne_nil _⟩

theorem typeBaseWith_gives (hn : s.after.length ≤ n) :
    Parser.Gives source s (typeBaseWith type) fun _ ts _ => TypeTokens ts ∧ ts ≠ [] := by
  refine .get fun _ _ => ?_
  dsimp only
  split
  · rename_i hk
    have hne : s.peek.kind ≠ .eof := by
      intro he
      simp [he, TokenKind.isPredefinedType] at hk
    refine (Parser.Gives.lift (advance_takes_one hne)).discard.bind fun _ _ _ _ => .pure fun ht => ?_
    rw [List.append_nil, ht]
    obtain ⟨k, hkind, hpre⟩ : ∃ k, s.peek.kind = .keyword k ∧ k.isPredefinedType = true := by
      unfold TokenKind.isPredefinedType at hk
      split at hk
      · exact ⟨_, ‹_›, hk⟩
      · cases hk
    have : IsOne (.keyword k) [s.peek] := ⟨s.peek, rfl, hkind⟩
    exact ⟨this.typeTokens hpre nofun, by simp⟩
  split
  · exact (tupleWith_gives hs h hn).bind fun _ _ _ _ => .pure fun ht => by rwa [List.append_nil]
  split
  · exact (nameWith_gives hs h hn).bind fun _ _ _ _ => .pure fun ht => by rwa [List.append_nil]
  · exact failAt_gives

end

theorem advanceBy_gives {k : Nat} (h : k ≤ s.after.length) :
    Reader.Gives source s (advanceBy k) fun _ ts _ => ts = s.after.take k := by
  intro hs hsp
  obtain ⟨ts, ht, hlen⟩ := Reader.Gives.of_safe (advanceBy_safe h) hs hsp
  refine ⟨ts, ht, fun he => ?_⟩
  rw [ht.after_eq, ← hlen he, List.take_left]

theorem rank_gives (hr : s.isAtMark .leftBracket = true) :
    Parser.Gives source s rank fun _ ts _ => TypeTokens ts ∧ ts ≠ [] := by
  refine (Parser.Gives.lift (advance_takes_one (peek_ne_eof_of_mark hr))).discard.bind
    fun _ _ s₁ _ => .get fun _ _ => ?_
  refine .andThen (advanceBy_gives (List.takeWhile_prefix _).length_le) fun _ _ _ _ => ?_
  refine expectMark_gives.discard.bind fun _ _ _ _ => .pure fun hc hu ho => ?_
  have hcommas : TypeTokens (s₁.after.takeWhile fun t => t.kind == .punct .comma) := by
    refine .of_forall fun t ht => ?_
    have hcomma : IsOne (.punct .comma) [t] := ⟨t, rfl, by simpa using List.mem_takeWhile_imp ht⟩
    exact hcomma.typeTokens_mark rfl (by decide)
  rw [(List.prefix_iff_eq_take.1 (List.takeWhile_prefix _)).symm] at hu
  rw [List.append_nil, hu]
  exact ⟨.between (.inr rfl) ⟨s.peek, ho, beq_iff_eq.1 hr⟩ hcommas hc, by simp [ho]⟩

theorem typeSuffix?_gives {t : TypeSyntax} : Parser.Gives source s (typeSuffix? t) fun shape? ts _ =>
    if shape?.isSome then TypeTokens ts ∧ ts ≠ [] else ts = [] := by
  have mark {mark : Punct} (hm : s.isAtMark mark = true)
      (hp : isTypeArgumentPart (.punct mark) = true)
      (hf : mark.isOpener = false ∧ mark.isCloser = false) (shape : TypeShape) :
      Parser.Gives source s (do discard (liftM advance); return some shape) fun shape? ts _ =>
        if shape?.isSome then TypeTokens ts ∧ ts ≠ [] else ts = [] := by
    refine (Parser.Gives.lift (advance_takes_one (peek_ne_eof_of_mark hm))).discard.bind
      fun _ _ _ _ => .pure fun hu => ?_
    have : IsOne (.punct mark) [s.peek] := ⟨s.peek, rfl, beq_iff_eq.1 hm⟩
    rw [List.append_nil, hu]
    exact ⟨this.typeTokens_mark hp hf, by simp⟩
  refine .get fun _ _ => ?_
  split
  · exact mark ‹_› rfl (by decide) _
  split
  · exact mark ‹_› rfl (by decide) _
  split
  · rename_i hr
    refine (rank_gives (Bool.and_eq_true_iff.1 hr).1).bind fun _ _ _ _ => .pure fun hu => ?_
    rwa [List.append_nil]
  · exact .pure rfl

section
variable {s₀ : ParserState} {ts : List Token} (hg : s₀.Good source) (h : Takes ts s₀ s)
include hg h

theorem typeFrom_gives {shape : TypeShape} :
    Reader.Gives source s (typeFrom s₀.peek.span shape) fun t us _ =>
      us = [] ∧ (ts ≠ [] → Spells t.text.toList (erase ts)) := by
  refine (textFrom_gives hg h).bind fun _ us _ _ => .get fun _ _ => .pure fun hu => ?_
  rwa [List.append_nil]

theorem suffixAt_gives {t : TypeSyntax} :
    Parser.Gives source s (suffixAt s₀.peek.span t) fun r us _ => t.Written ts →
      r.Leads (fun u us _ => u.Written us) (fun u us _ => u.Written us) (ts ++ us) s := by
  refine typeSuffix?_gives.bind fun shape? us s₁ h₁ => ?_
  cases shape? with
  | some shape =>
    refine .andThen (typeFrom_gives hg (h.trans h₁)) fun t' vs _ _ => .pure fun hv hu ht => ?_
    have hne := List.append_ne_nil_of_right_ne_nil ts hu.2
    simp only [hv.1, List.append_nil]
    exact ⟨ht.1.append hu.1, hne, hv.2 hne⟩
  | none =>
    refine .pure fun hu ht => ?_
    rw [show us = [] from hu]
    simpa [Round.Leads] using ht

end

theorem typeWith_gives {type : Parser TypeSyntax}
    (hs : ∀ s', s'.after.length < s.after.length → Parser.Safe source s' type fun _ _ => True)
    (h : ∀ s', s'.after.length < s.after.length →
      Parser.Gives source s' type fun _ ts _ => TypeTokens ts) :
    Parser.Gives source s (typeWith type) fun t ts _ => t.Written ts := by
  refine .get fun hg _ => (typeBaseWith_gives hs h (Nat.le_refl _)).bind fun _ ts s₁ h₁ => ?_
  refine .andThen (typeFrom_gives hg h₁) fun t us s₂ h₂ => ?_
  refine Parser.Gives.mono (R := fun u vs _ => t.Written (ts ++ us) → u.Written (ts ++ us ++ vs))
    (.loop (I := fun u vs _ => t.Written (ts ++ us) → u.Written (ts ++ us ++ vs))
      (fun _ _ _ _ => suffixAt_safe hg.peek_inside) (by simp) fun x vs s₃ h₃ => ?_)
    fun u vs _ hu ht hts => ?_
  · refine (suffixAt_gives hg ((h₁.trans h₂).trans h₃)).mono fun r ws _ hr hx => ?_
    cases r <;> exact fun ht => by simpa [Round.Leads] using hr (hx ht)
  · rw [← List.append_assoc]
    refine hu ?_
    rw [ht.1, List.append_nil]
    exact ⟨hts.1, hts.2, ht.2 hts.2⟩

theorem typeWithin_gives {depth : Nat} (h : s.after.length < depth) :
    Parser.Gives source s (typeWithin depth) fun t ts _ => t.Written ts := by
  induction depth generalizing s with
  | zero => omega
  | succ depth ih =>
    refine typeWith_gives (fun s' h' => typeWithin_safe (by omega)) fun s' h' => ?_
    exact (ih (by omega)).mono fun _ _ _ ht => ht.1

/-- **The text of a type spells its tokens**, which are nested. -/
theorem type_gives : Parser.Gives source s type fun t ts _ => t.Written ts := by
  refine .bind_safe (.lift rounds_safe) (.lift rounds_gives) fun n ts s' h hn => ?_
  obtain ⟨hts, rfl⟩ := hn
  have := h.moves.length_after
  refine (typeWithin_gives (by omega)).mono fun t us _ ht hts => ?_
  rwa [hts]

/-- The tokens of a name are those of a type. -/
theorem name_gives : Parser.Gives source s name fun _ ts _ => TypeTokens ts := by
  refine .bind_safe (.lift rounds_safe) (.lift rounds_gives) fun n ts s' h hn => ?_
  obtain ⟨hts, rfl⟩ := hn
  have := h.moves.length_after
  refine (nameWith_gives (fun _ h' => typeWithin_safe h') (fun _ h' => ?_) (by omega)).mono
    fun _ us _ hu hts => ?_
  · exact (typeWithin_gives h').mono fun _ _ _ ht => ht.1
  · rw [hts]
    exact hu.1

/-- Type arguments have the length that is seen ahead. -/
theorem typeArguments_gives : Parser.Gives source s typeArguments fun _ ts _ =>
    TypeTokens ts ∧ ∀ us, typeArgumentsLength? (ts ++ us) = some ts.length := by
  refine .bind_safe (.lift rounds_safe) (.lift rounds_gives) fun n ts s' h hn => ?_
  obtain ⟨hts, rfl⟩ := hn
  have := h.moves.length_after
  refine (typeArgumentsWith_gives (fun _ h' => typeWithin_safe h') (fun _ h' => ?_) (by omega)).mono
    fun _ us _ hu hts => ?_
  · exact (typeWithin_gives h').mono fun _ _ _ ht => ht.1
  · rw [hts]
    exact hu

/-! ## Expressions -/

/-- Tokens that are passed over as type arguments are no braces. -/
theorem closingAngle?_not_brace {depth k : Nat} {ts : List Token} (h : closingAngle? depth ts = some k) :
    ∀ t ∈ ts.take k, t.isBrace = false := by
  have cons {t : Token} {ts : List Token} {m : Nat} (ht : t.isBrace = false)
      (hts : ∀ u ∈ ts.take m, u.isBrace = false) : ∀ u ∈ (t :: ts).take (m + 1), u.isBrace = false := by
    rintro u (_ | ⟨_, hu⟩)
    exacts [ht, hts u hu]
  fun_induction closingAngle? depth ts generalizing k with
  | case1 => cases h
  | case2 depth t ts hk ih =>
    obtain ⟨m, hm, rfl⟩ := Option.map_eq_some_iff.1 h
    exact cons (by simp [Token.isBrace, hk]) (ih hm)
  | case3 t ts hk hg =>
    cases h
    exact cons (by simp [Token.isBrace, hg]) (by simp)
  | case4 t ts hk hg depth ih =>
    obtain ⟨m, hm, rfl⟩ := Option.map_eq_some_iff.1 h
    exact cons (by simp [Token.isBrace, hg]) (ih hm)
  | case5 depth t ts hl hg hp ih =>
    obtain ⟨m, hm, rfl⟩ := Option.map_eq_some_iff.1 h
    refine cons ?_ (ih hm)
    rw [Token.isBrace, Bool.or_eq_false_iff]
    constructor
    · refine beq_false_of_ne fun hb => ?_
      simp [hb, isTypeArgumentPart] at hp
    · refine beq_false_of_ne fun hb => ?_
      simp [hb, isTypeArgumentPart] at hp
  | case6 => cases h

theorem genericArguments?_not_brace {start k : Nat} (h : genericArguments? s start = some k) :
    ∀ t ∈ s.after.take k, t.isBrace = false := by
  unfold genericArguments? at h
  split at h
  · have hk := (Option.filter_eq_some_iff.1 h).1
    unfold typeArgumentsLength? at hk
    split at hk
    · cases hk
    split at hk
    · rename_i t ts _ hless
      obtain ⟨m, hm, rfl⟩ := Option.map_eq_some_iff.1 hk
      intro u hu
      rw [‹s.after = _›] at hu
      rcases hu with _ | ⟨_, hu⟩
      · simp [Token.isBrace, hless]
      · exact closingAngle?_not_brace hm u hu
    · cases hk
  · cases h

theorem expressionStep_gives {terminators : List TokenKind} {start : Nat} :
    Reader.Gives source s (expressionStep terminators start) fun r ts s' =>
      r.Leads (fun _ ts _ => Keeps ts) (fun _ ts _ => Keeps ts) ts s' := by
  refine .get fun hg _ => ?_
  split
  · exact .pure .nil
  · rename_i hc
    dsimp only
    split
    · rename_i k hk
      refine (advanceBy_gives (genericArguments?_le hk).2).bind fun _ ts _ _ => .pure fun hts => ?_
      rw [List.append_nil, hts]
      exact .of_forall (genericArguments?_not_brace hk)
    · refine (skipGroup_gives fun p hp => ?_).bind fun _ ts _ _ => .pure fun hts => ?_
      · by_contra hcl
        exact hc (by simp [hp, endsExpression, hcl])
      · exact .nested hts .nil

theorem expressionTokens_gives {terminators : List TokenKind} {start : Nat} :
    Reader.Gives source s (expressionTokens terminators start) fun _ ts _ => Keeps ts :=
  .loop (I := fun _ ts _ => Keeps ts) (fun _ _ _ _ => expressionStep_safe) .nil
    fun _ ts _ _ => expressionStep_gives.mono fun r us _ hr hts => by
      cases r <;> exact hts.append hr

/-- **The text of an expression spells its tokens**, which keep braces open. -/
theorem expression_gives {terminators : List TokenKind} :
    Parser.Gives source s (expression terminators) fun e ts _ => e.Written ts := by
  refine .get fun hg _ => .andThen expressionTokens_gives fun _ ts later h => .get fun _ _ => ?_
  split
  · exact failAt_gives
  · rename_i hplace
    split
    · exact .throw
    · refine .andThen (textFrom_gives hg h) fun text us _ _ => .pure fun hu hts => ?_
      have hne : ts ≠ [] := by
        rintro rfl
        exact hplace h.moves.place_eq
      rw [hu.1]
      simpa [ExprSyntax.Written] using ⟨hts, hu.2 hne⟩

end Parser

end CommandModules

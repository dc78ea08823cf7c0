/-
  Command modules — looking ahead over type arguments.

  Nothing is known here of the tokens or of the text: they may be any at all, as long as the token
  behind the last one is an `eof`.

  * `ParserState.Consumes ts s s'`: from `s` a parser has consumed `ts` and has come to `s'`;
  * `Parser.Yields s p R`: wherever the parser `p` succeeds from `s` on, `R` holds of its value and
    of the tokens that it consumed, and there is a rule for each way of composing parsers;
  * `typeArguments_yields`: the tokens of type arguments are those of types in angle brackets;
  * `memberName_yields`: a name of a member is read from qualifiers that end in a dot each, and
    from an identifier.
-/
import CommandModules.Proofs.Taken.Type
import CommandModules.Syntax.Parser.Member
import Mathlib.Data.List.Forall2

namespace CommandModules

variable {α β σ : Type}

/-! ## Tokens consumed -/

namespace ParserState

/-- From `s` a parser has consumed the tokens `ts` and has come to `s'`. -/
structure Consumes (ts : List Token) (s s' : ParserState) : Prop where
  after_eq : s.after = ts ++ s'.after
  before_eq : s'.before = ts.reverse ++ s.before
  eof_eq : s'.eof = s.eof

variable {ts us : List Token} {s s' s'' : ParserState}

namespace Consumes

theorem refl (s : ParserState) : Consumes [] s s :=
  ⟨rfl, rfl, rfl⟩

theorem trans (h : Consumes ts s s') (h' : Consumes us s' s'') : Consumes (ts ++ us) s s'' where
  after_eq := by rw [h.after_eq, h'.after_eq, List.append_assoc]
  before_eq := by rw [h'.before_eq, h.before_eq, List.reverse_append, List.append_assoc]
  eof_eq := h'.eof_eq.trans h.eof_eq

/-- The current token is the one behind those consumed. -/
theorem peek_eq (h : Consumes ts s s') : s'.peek = s.peekAt ts.length := by
  rw [peek, peekAt, h.after_eq, h.eof_eq, List.head?_eq_getElem?,
    List.getElem?_append_right (Nat.le_refl _), Nat.sub_self]

end Consumes

theorem consumes_cons {t : Token} (ha : s.after = t :: ts) : Consumes [t] s s.advance := by
  have hadv : s.advance = { s with before := t :: s.before, after := ts } := by
    simp [advance, ha]
  rw [hadv]
  exact ⟨ha, rfl, rfl⟩

theorem consumes_advance (heof : s.eof.kind = .eof) (h : s.peek.kind ≠ .eof) :
    Consumes [s.peek] s s.advance := by
  cases ha : s.after with
  | nil => simp [peek, ha, heof] at h
  | cons t ts =>
    rw [show s.peek = t by simp [peek, ha]]
    exact consumes_cons ha

theorem consumes_advanceBy {n : Nat} (h : n ≤ s.after.length) :
    Consumes (s.after.take n) s (advanceBy n s) := by
  induction n generalizing s with
  | zero => exact .refl s
  | succ n ih =>
    cases ha : s.after with
    | nil => simp [ha] at h
    | cons t ts =>
      have h₁ := consumes_cons ha
      obtain rfl : s.advance.after = ts := by
        simpa [ha, eq_comm] using h₁.after_eq
      exact h₁.trans (ih (by simpa [ha] using h))

end ParserState

open ParserState

/-! ## Parsers -/

/-- How a loop goes on. -/
theorem Parser.loopWithin_tryRound (round : σ → Parser (Round σ α)) (fuel : Nat) (x : σ) :
    (ExceptT.mk (loopWithin (tryRound round) (fuel + 1) x) : Parser α) = (do
      let s ← get
      match ← round x with
      | .done a => return a
      | .next y =>
        if (← get).after.length < s.after.length then
          ExceptT.mk (loopWithin (tryRound round) fuel y)
        else ExceptT.mk stall) := by
  refine ExceptT.ext (StateT.ext fun s => ?_)
  have get_run {β : Type} (f : ParserState → Reader β) : (get >>= f).run s = (f s).run s := rfl
  have get_run' {β : Type} (f : ParserState → Parser β) :
    (get >>= f).run.run s = (f s).run.run s := rfl
  rw [loopWithin, ExceptT.run_mk, get_run, get_run', tryRound, ExceptT.run_bind, bind_assoc,
    StateT.run_bind, StateT.run_bind]
  obtain ⟨e | (y | a), s'⟩ := (round x).run.run s
  · rfl
  · show StateT.run (ite _ (loopWithin (tryRound round) fuel y) stall) s' =
      StateT.run (ExceptT.run (ite _ (ExceptT.mk _) (ExceptT.mk stall))) s'
    split <;> rfl
  · rfl

/-- Wherever `p` succeeds from `s` on, `R` holds of its value and of the tokens that it consumes. -/
def Parser.Yields (s : ParserState) (p : Parser α) (R : α → List Token → Prop) : Prop :=
  s.eof.kind = .eof → ∀ a s', p.run.run s = (.ok a, s') → ∃ ts, Consumes ts s s' ∧ R a ts

namespace Parser.Yields

variable {s : ParserState} {p q : Parser α} {f : α → Parser β} {R R' : α → List Token → Prop}
  {T : β → List Token → Prop}

theorem pure {a : α} (h : R a []) : Yields s (Pure.pure a) R := by
  intro _ b s' hb
  cases hb
  exact ⟨[], .refl s, h⟩

theorem throw {e : ParseError} : Yields s (throw e : Parser α) R := by
  intro _ a s' h
  cases h

/-- A recursion that does not come to an end hands nothing back. -/
theorem stall : Yields s (ExceptT.mk Parser.stall : Parser α) R := by
  intro _ a s' h
  cases h

theorem mono (h : Yields s p R) (hR : ∀ a ts, R a ts → R' a ts) : Yields s p R' :=
  fun heof a s' ha => (h heof a s' ha).imp fun ts ht => ⟨ht.1, hR a ts ht.2⟩

/-- What is consumed is what comes first. -/
theorem prefixed (h : Yields s p R) : Yields s p fun a ts => R a ts ∧ ts <+: s.after := by
  intro heof a s' ha
  obtain ⟨ts, ht, hR⟩ := h heof a s' ha
  exact ⟨ts, ht, hR, s'.after, ht.after_eq.symm⟩

theorem bind (h : Yields s p R)
    (hf : ∀ a ts s', Consumes ts s s' → R a ts → Yields s' (f a) fun b us => T b (ts ++ us)) :
    Yields s (p >>= f) T := by
  intro heof b s'' hb
  rw [ExceptT.run_bind, StateT.run_bind] at hb
  obtain ⟨⟨e | a, s'⟩, hp⟩ : ∃ x, p.run.run s = x := ⟨_, rfl⟩
  · rw [hp] at hb
    cases hb
  · rw [hp] at hb
    obtain ⟨ts, ht, ha⟩ := h heof a s' hp
    obtain ⟨us, hu, hT⟩ := hf a ts s' ht ha (ht.eof_eq ▸ heof) b s'' hb
    exact ⟨ts ++ us, ht.trans hu, hT⟩

theorem get {f : ParserState → Parser β} (h : Yields s (f s) T) :
    Yields s (MonadState.get >>= f) T :=
  h

theorem ite {c : Prop} [Decidable c] (hp : c → Yields s p R) (hq : ¬ c → Yields s q R) :
    Yields s (if c then p else q) R := by
  split
  · exact hp ‹_›
  · exact hq ‹_›

/-- The continuation `f` behind the branches of a choice. -/
theorem join {c : Prop} [Decidable c] (hp : c → Yields s p R) (hq : ¬ c → Yields s q R)
    (hf : ∀ a ts s', Consumes ts s s' → R a ts → Yields s' (f a) fun b us => T b (ts ++ us)) :
    Yields s (have next := f; if c then p >>= next else q >>= next) T :=
  ite (fun hc => (hp hc).bind hf) fun hc => (hq hc).bind hf

theorem lift {p : Reader α}
    (h : s.eof.kind = .eof → ∃ ts, Consumes ts s (p.run s).2 ∧ R (p.run s).1 ts) :
    Yields s (liftM p : Parser α) R := by
  intro heof a s' ha
  cases ha
  exact h heof

/-- A reader that consumes nothing, and then the parser `f` of its value. -/
theorem andThen {p : Reader α} (h : Consumes [] s (p.run s).2)
    (hf : ∀ a s', Consumes [] s s' → Yields s' (f a) T) : Yields s (liftM p >>= f) T :=
  (lift (R := fun _ ts => ts = []) fun _ => ⟨[], h, rfl⟩).bind fun a _ s' h' hts => by
    obtain rfl := hts
    exact hf a s' h'

theorem map {g : α → β} (h : Yields s p fun a ts => T (g a) ts) : Yields s (g <$> p) T := by
  rw [map_eq_pure_bind]
  exact h.bind fun a ts _ _ ha => pure (by rwa [List.append_nil])

/-- What is handed back in the end does not matter for the tokens. -/
theorem returning {g : α → β} {N : List Token → Prop} (h : Yields s p fun _ ts => N ts) :
    Yields s (p >>= fun a => Pure.pure (g a)) fun _ ts => N ts :=
  h.bind fun _ _ _ _ hts => pure (by rwa [List.append_nil])

theorem discard {R : List Token → Prop} (h : Yields s p fun _ ts => R ts) :
    Yields s (Functor.discard p) fun _ ts => R ts :=
  map h

theorem loopWithin {round : σ → Parser (Round σ α)} {I : σ → List Token → Prop}
    (h : ∀ x ts s', Consumes ts s s' → I x ts → Yields s' (round x) fun r us =>
      match r with
      | .next y => I y (ts ++ us)
      | .done a => R a (ts ++ us))
    {fuel : Nat} {x : σ} {ts : List Token} {s' : ParserState} (ht : Consumes ts s s')
    (hx : I x ts) : Yields s' (ExceptT.mk (Parser.loopWithin (tryRound round) fuel x)) fun a us =>
      R a (ts ++ us) := by
  induction fuel generalizing x ts s' with
  | zero => exact .stall
  | succ fuel ih =>
    rw [loopWithin_tryRound]
    refine .get <| (h x ts s' ht hx).bind fun r us s₁ hu hr => ?_
    cases r with
    | done a => exact .pure (by rwa [List.append_nil])
    | next y =>
      refine .get <| .ite (fun _ => (ih (ht.trans hu) hr).mono fun a vs ha => ?_) fun _ => .stall
      rwa [← List.append_assoc]

/-- **What a loop yields**: each round keeps `I`, and the last one gives `R`. -/
theorem loop {round : σ → Parser (Round σ α)} {x : σ} {I : σ → List Token → Prop} (hx : I x [])
    (h : ∀ x ts s', Consumes ts s s' → I x ts → Yields s' (round x) fun r us =>
      match r with
      | .next y => I y (ts ++ us)
      | .done a => R a (ts ++ us)) :
    Yields s (loopOrFail round x) R :=
  fun heof => loopWithin h (.refl s) hx heof

end Parser.Yields

namespace Parser

variable {s : ParserState}

/-! ## Single tokens -/

theorem advance_yields (h : s.peek.kind ≠ .eof) :
    Yields s (liftM advance : Parser Token) fun t ts => t = s.peek ∧ ts = [s.peek] :=
  .lift fun heof => ⟨_, consumes_advance heof h, rfl, rfl⟩

/-- The current token, of which the kind is known. -/
theorem advance_yields_one {kind : TokenKind} (h : s.isAt kind = true) (hk : kind ≠ .eof) :
    Yields s (liftM advance : Parser Token) fun _ ts => IsOne kind ts :=
  (advance_yields (peek_ne_eof h hk)).mono fun _ _ ht => ⟨s.peek, ht.2, beq_iff_eq.1 h⟩

theorem expectMark_yields {mark : Punct} :
    Yields s (expectMark mark) fun _ ts => IsOne (.punct mark) ts :=
  .get <| .ite (fun ha => advance_yields_one ha nofun) fun _ => .get .throw

theorem eatMark_yields {mark : Punct} : Yields s (liftM (eatMark mark) : Parser Bool) fun b ts =>
    if b then IsOne (.punct mark) ts else ts = [] := by
  refine .lift fun heof => ?_
  have hrun : (eatMark mark).run s = if s.isAtMark mark then (true, s.advance) else (false, s) := by
    show StateT.run (ite (s.isAtMark mark = true) _ _) s = _
    split <;> rfl
  rw [hrun]
  split
  · rename_i ha
    exact ⟨_, consumes_advance heof (peek_ne_eof_of_mark ha), s.peek, rfl, beq_iff_eq.1 ha⟩
  · exact ⟨[], .refl s, rfl⟩

theorem ident_yields : Yields s ident fun i ts =>
    ∃ t, ts = [t] ∧ t.kind = .identifier ∧ i = ⟨t.lexeme, t.span⟩ := by
  refine .get <| .ite (fun ha => ?_) fun _ => .get .throw
  refine (advance_yields (peek_ne_eof ha nofun)).bind fun t ts _ _ ht => .pure ?_
  obtain ⟨rfl, rfl⟩ := ht
  exact ⟨s.peek, rfl, beq_iff_eq.1 ha, rfl⟩

theorem ident_yields_one : Yields s ident fun _ ts => IsOne .identifier ts :=
  ident_yields.mono fun _ _ ⟨t, hts, hk, _⟩ => ⟨t, hts, hk⟩

/-- Cutting a text out consumes nothing, also if it cannot be cut out. -/
theorem consumes_textBetween (start stop : Nat) :
    Consumes [] s ((textBetween start stop).run s).2 := by
  have get_run {f : ParserState → Reader String} (h : Consumes [] s ((f s).run s).2) :
      Consumes [] s ((get >>= f).run s).2 := h
  refine get_run ?_
  split
  · exact .refl s
  · exact ⟨rfl, rfl, rfl⟩

theorem consumes_textFrom (start : Span) : Consumes [] s ((textFrom start).run s).2 :=
  consumes_textBetween _ _

theorem consumes_typeFrom (start : Span) (shape : TypeShape) :
    Consumes [] s ((typeFrom start shape).run s).2 :=
  consumes_textFrom start

theorem commaSeparated_yields {item : Parser α} (h : ∀ s, Yields s item fun _ ts => TypeTokens ts) :
    Yields s (commaSeparated item) fun _ ts => TypeTokens ts := by
  refine .loop (I := fun _ ts => TypeTokens ts) .nil fun as ts s' _ hts => ?_
  refine (h s').bind fun a us s₁ _ hus => eatMark_yields.bind fun b vs _ _ hvs =>
    .ite (fun hb => ?_) fun hb => ?_
  · rw [if_pos hb] at hvs
    refine .pure ?_
    simpa using hts.append (hus.append (hvs.typeTokens_mark rfl (by decide)))
  · rw [if_neg hb] at hvs
    refine .pure ?_
    simpa [hvs] using hts.append hus

/-! ## Names and types -/

theorem nameAlias_yields : Yields s nameAlias fun _ ts => TypeTokens ts := by
  refine .get <| .ite (fun hc => ?_) fun _ => .pure .nil
  have hcolons := beq_iff_eq.1 (Bool.and_eq_true_iff.1 hc).2
  refine ident_yields_one.bind fun _ ts s₁ h₁ hi => ?_
  have hmark : s₁.isAtMark .colonColon = true := by
    obtain ⟨t, rfl, -⟩ := hi
    exact beq_iff_eq.2 (h₁.peek_eq ▸ hcolons)
  refine (advance_yields_one hmark nofun).discard.bind fun _ us _ _ hu => .pure ?_
  rw [List.append_nil]
  exact (hi.typeTokens rfl nofun).append (hu.typeTokens_mark rfl (by decide))

/-- The tokens are those of types in angle brackets. -/
def IsArguments (ts : List Token) : Prop :=
  ∃ os us cs, IsOne (.punct .less) os ∧ TypeTokens us ∧ IsOne (.punct .greater) cs ∧
    ts = os ++ (us ++ cs)

theorem IsArguments.typeTokens {ts : List Token} (h : IsArguments ts) : TypeTokens ts := by
  obtain ⟨os, us, cs, ho, hu, hc, rfl⟩ := h
  exact .angles ho hu hc

/-- Type arguments have the length that is seen ahead, whatever follows them. -/
theorem IsArguments.length_eq {ts : List Token} (h : IsArguments ts) (us : List Token) :
    typeArgumentsLength? (ts ++ us) = some ts.length := by
  obtain ⟨os, us, cs, ho, hu, hc, rfl⟩ := h
  exact hu.typeArgumentsLength?_append ho hc

section
variable {type : Parser TypeSyntax} (h : ∀ s, Yields s type fun _ ts => TypeTokens ts)
include h

theorem typeArgumentsWith_yields :
    Yields s (typeArgumentsWith type) fun _ ts => IsArguments ts := by
  refine expectMark_yields.discard.bind fun _ os _ _ ho => .get ?_
  refine .join (R := fun _ ts => TypeTokens ts) (fun _ => .pure .nil)
    (fun _ => commaSeparated_yields h) fun _ us _ _ hu => ?_
  refine expectMark_yields.discard.bind fun _ cs _ _ hc => .pure ?_
  rw [List.append_nil]
  exact ⟨os, us, cs, ho, hu, hc, rfl⟩

theorem nameSegmentWith_yields : Yields s (nameSegmentWith type) fun _ ts => TypeTokens ts := by
  refine ident_yields_one.bind fun _ _ _ _ hi => .get ?_
  refine .join (R := fun _ ts => TypeTokens ts)
    (fun _ => (typeArgumentsWith_yields h).mono fun _ _ ha => ha.typeTokens) (fun _ => .pure .nil)
    fun _ _ _ _ hu => .pure ?_
  rw [List.append_nil]
  exact (hi.typeTokens rfl nofun).append hu

theorem segmentAndDot_yields {segments : List NameSegment} :
    Yields s (segmentAndDot type segments) fun _ ts => TypeTokens ts := by
  refine (nameSegmentWith_yields h).bind fun _ _ _ _ hs => .get <| .ite (fun hc => ?_) fun _ => ?_
  · have hdot := (Bool.and_eq_true_iff.1 hc).1
    refine (advance_yields_one hdot nofun).discard.bind fun _ _ _ _ hd => .pure ?_
    rw [List.append_nil]
    exact hs.append (hd.typeTokens_mark rfl (by decide))
  · exact .pure (by rwa [List.append_nil])

theorem nameWith_yields : Yields s (nameWith type) fun _ ts => TypeTokens ts := by
  refine .get <| nameAlias_yields.bind fun _ _ _ _ ha => ?_
  refine Yields.bind (R := fun _ ts => TypeTokens ts) ?_ fun _ _ _ _ hs => ?_
  · refine .loop (I := fun _ ts => TypeTokens ts) .nil fun x ts s' _ hts => ?_
    refine (segmentAndDot_yields h).mono fun r us hu => ?_
    cases r <;> exact hts.append hu
  · refine .andThen (consumes_textFrom _) fun _ _ _ => .get (.pure ?_)
    rw [List.append_nil]
    exact ha.append hs

theorem tupleElementWith_yields : Yields s (tupleElementWith type) fun _ ts => TypeTokens ts := by
  refine (h s).bind fun _ _ _ _ ht => .get ?_
  refine .join (R := fun _ ts => TypeTokens ts)
    (fun _ => .map (ident_yields_one.mono fun _ _ hi => hi.typeTokens rfl nofun))
    (fun _ => .pure .nil) fun _ _ _ _ hu => .pure ?_
  rw [List.append_nil]
  exact ht.append hu

theorem tupleWith_yields : Yields s (tupleWith type) fun _ ts => TypeTokens ts := by
  refine expectMark_yields.discard.bind fun _ _ _ _ ho => ?_
  refine (commaSeparated_yields fun _ => tupleElementWith_yields h).bind fun _ _ _ _ hu => ?_
  refine expectMark_yields.discard.bind fun _ _ _ _ hc => .ite (fun _ => ?_) fun _ => ?_
  · exact .get <| Yields.bind (R := fun _ _ => False) .throw fun _ _ _ _ hf => hf.elim
  · refine .pure ?_
    rw [List.append_nil]
    exact .between (.inl rfl) ho hu hc

theorem typeBaseWith_yields : Yields s (typeBaseWith type) fun _ ts => TypeTokens ts := by
  refine .get <| .ite (fun hk => ?_) fun _ => .ite (fun _ => ?_) fun _ =>
    .ite (fun _ => ?_) fun _ => ?_
  · obtain ⟨k, hkind, hpre⟩ : ∃ k, s.peek.kind = .keyword k ∧ k.isPredefinedType = true := by
      unfold TokenKind.isPredefinedType at hk
      split at hk
      · exact ⟨_, ‹_›, hk⟩
      · cases hk
    refine (advance_yields_one (beq_iff_eq.2 hkind) nofun).discard.returning.mono fun _ _ ht => ?_
    exact ht.typeTokens hpre nofun
  · exact (tupleWith_yields h).returning
  · exact (nameWith_yields h).returning
  · exact .get .throw

end

theorem advanceBy_run {n : Nat} (h : n ≤ s.after.length) :
    (advanceBy n).run s = ((), s.advanceBy n) := by
  show StateT.run (ite (n ≤ s.after.length) _ _ : Reader Unit) s = _
  rw [if_pos h]
  rfl

theorem rank_yields (hr : s.isAtMark .leftBracket = true) :
    Yields s rank fun _ ts => TypeTokens ts := by
  refine (advance_yields_one hr nofun).discard.bind fun _ _ s₁ _ ho => .get ?_
  let commas := s₁.after.takeWhile fun t => t.kind == .punct .comma
  have hprefix : commas <+: s₁.after := List.takeWhile_prefix _
  refine Yields.bind (R := fun _ ts => ts = commas) (.lift fun _ => ⟨commas, ?_, rfl⟩)
    fun _ _ _ _ hts => ?_
  · rw [advanceBy_run hprefix.length_le]
    have := consumes_advanceBy hprefix.length_le
    rwa [← List.prefix_iff_eq_take.1 hprefix] at this
  · obtain rfl := hts
    refine expectMark_yields.discard.bind fun _ _ _ _ hc => .pure ?_
    have hcommas : TypeTokens commas := by
      refine .of_forall fun t ht => ?_
      have hcomma : IsOne (.punct .comma) [t] := ⟨t, rfl, by simpa using List.mem_takeWhile_imp ht⟩
      exact hcomma.typeTokens_mark rfl (by decide)
    rw [List.append_nil]
    exact .between (.inr rfl) ho hcommas hc

theorem typeSuffix?_yields {t : TypeSyntax} :
    Yields s (typeSuffix? t) fun _ ts => TypeTokens ts := by
  have mark {mark : Punct} (hm : s.isAtMark mark = true)
      (hp : isTypeArgumentPart (.punct mark) = true)
      (hf : mark.isOpener = false ∧ mark.isCloser = false) (shape : TypeShape) :
      Yields s (do discard (liftM advance); return some shape) fun _ ts => TypeTokens ts := by
    refine (advance_yields_one hm nofun).discard.returning.mono fun _ _ hu => ?_
    exact hu.typeTokens_mark hp hf
  refine .get <| .ite (fun hq => mark hq rfl (by decide) _) fun _ =>
    .ite (fun hs => mark hs rfl (by decide) _) fun _ => .ite (fun hr => ?_) fun _ => .pure .nil
  exact (rank_yields (Bool.and_eq_true_iff.1 hr).1).returning

theorem suffixAt_yields {start : Span} {t : TypeSyntax} :
    Yields s (suffixAt start t) fun _ ts => TypeTokens ts := by
  refine typeSuffix?_yields.bind fun shape? ts _ _ hts => ?_
  cases shape? with
  | some shape =>
    exact .andThen (consumes_typeFrom _ _) fun _ _ _ => .pure (by rwa [List.append_nil])
  | none => exact .pure (by rwa [List.append_nil])

theorem typeWith_yields {type : Parser TypeSyntax}
    (h : ∀ s, Yields s type fun _ ts => TypeTokens ts) :
    Yields s (typeWith type) fun _ ts => TypeTokens ts := by
  refine .get <| (typeBaseWith_yields h).bind fun _ _ _ _ hb => ?_
  refine .andThen (consumes_typeFrom _ _) fun _ _ _ => ?_
  refine .loop (I := fun _ ts => TypeTokens (_ ++ ts)) (by rwa [List.append_nil])
    fun x ts s' _ hts => ?_
  refine suffixAt_yields.mono fun r us hu => ?_
  rw [← List.append_assoc]
  cases r <;> exact hts.append hu

theorem typeWithin_yields (depth : Nat) :
    ∀ s, Yields s (typeWithin depth) fun _ ts => TypeTokens ts := by
  induction depth with
  | zero => exact fun _ => .stall
  | succ depth ih => exact fun _ => typeWith_yields ih

/-- **The tokens of type arguments are those of types in angle brackets.** -/
theorem typeArguments_yields : Yields s typeArguments fun _ ts => IsArguments ts :=
  .andThen (.refl s) fun _ _ _ => typeArgumentsWith_yields (typeWithin_yields _)

/-! ## Names of members -/

/-- A segment that qualifies the name of a member was read from these tokens: an identifier,
    perhaps type arguments, and a dot. -/
def Qualifies (segment : NameSegment) (ts : List Token) : Prop :=
  ∃ name args dot, ts = name :: (args ++ [dot]) ∧ name.kind = .identifier ∧
    dot.kind = .punct .dot ∧ segment.ident = ⟨name.lexeme, name.span⟩ ∧
      (args = [] ∧ segment.args = [] ∨ IsArguments args)

/-- **A round that another one follows ends behind a dot**, whether type arguments were seen
    ahead or not. -/
theorem memberNameStep_yields {start : Span} {q : Qualifier} :
    Yields s (memberNameStep start q) fun r ts =>
      match r with
      | .next q' => ∃ segment, q'.segments = q.segments ++ [segment] ∧ Qualifies segment ts
      | .done (name?, ident) => (name?.elim [] (·.segments)) = q.segments ∧
          ∃ t, ts = [t] ∧ t.kind = .identifier ∧ ident = ⟨t.lexeme, t.span⟩ := by
  refine ident_yields.bind fun ident ts s₁ _ hident => .get ?_
  obtain ⟨t, rfl, ht, rfl⟩ := hident
  refine .ite (fun hc => ?_) fun _ => .ite (fun hempty => ?_) fun _ => ?_
  · refine .join (R := fun args us => (s₁.peekAt us.length).kind = .punct .dot ∧
      (us = [] ∧ args = [] ∨ IsArguments us)) (fun hseen => ?_) (fun hseen => ?_)
      fun args us s₂ h₂ hargs => .get ?_
    · refine typeArguments_yields.prefixed.mono fun args us ⟨hus, rest, hrest⟩ => ⟨?_, .inr hus⟩
      rw [← hrest, hus.length_eq] at hseen
      exact beq_iff_eq.1 hseen
    · rw [eq_false_of_ne_true hseen, Bool.or_false] at hc
      exact .pure ⟨(Consumes.refl s₁).peek_eq ▸ beq_iff_eq.1 hc, .inl ⟨rfl, rfl⟩⟩
    · have hdot : s₂.isAt (.punct .dot) = true := beq_iff_eq.2 (h₂.peek_eq ▸ hargs.1)
      refine (advance_yields_one hdot nofun).discard.bind fun _ vs _ _ ⟨dot, hvs, hk⟩ => .pure ?_
      obtain rfl := hvs
      exact ⟨⟨⟨t.lexeme, t.span⟩, args⟩, rfl, t, us, dot, by simp, ht, hk, rfl, hargs.2⟩
  · exact .pure ⟨(List.isEmpty_iff.1 hempty).symm, t, rfl, ht, rfl⟩
  · exact .andThen (consumes_textBetween _ _) fun _ _ _ => .pure ⟨rfl, t, rfl, ht, rfl⟩

/-- **A name of a member is read from qualifiers that end in a dot each, and from an
    identifier.** -/
theorem memberName_yields : Yields s memberName fun (name?, ident) ts =>
    ∃ qs t, List.Forall₂ Qualifies (name?.elim [] (·.segments)) qs ∧ ts = qs.flatten ++ [t] ∧
      t.kind = .identifier ∧ ident = ⟨t.lexeme, t.span⟩ := by
  refine .get <| .loop
    (I := fun q ts => ∃ qs, List.Forall₂ Qualifies q.segments qs ∧ ts = qs.flatten)
    ⟨[], .nil, rfl⟩ fun q ts s' _ hq => memberNameStep_yields.mono fun r us hr => ?_
  obtain ⟨qs, hqs, rfl⟩ := hq
  cases r with
  | next q' =>
    obtain ⟨segment, hsegments, hsegment⟩ := hr
    refine ⟨qs ++ [us], ?_, by simp⟩
    rw [hsegments]
    exact List.rel_append hqs (.cons hsegment .nil)
  | done a =>
    obtain ⟨hsegments, t, rfl, ht⟩ := hr
    exact ⟨qs, t, hsegments ▸ hqs, rfl, ht⟩

/-- **Looking ahead agrees with reading.**  Wherever type arguments are read, their length is what
    is seen ahead; so if a dot was seen behind them, then it comes next.  Each round of reading the
    name of a member that another one follows therefore ends behind a dot, and the name as a whole
    is made of qualifiers, which end in a dot each, and of an identifier. -/
theorem typeArguments_seen_ahead (heof : s.eof.kind = .eof) :
    (∀ args s', typeArguments.run.run s = (.ok args, s') →
      ∃ ts, Consumes ts s s' ∧ typeArgumentsLength? s.after = some ts.length) ∧
    (∀ n args s', typeArgumentsLength? s.after = some n → (s.peekAt n).kind = .punct .dot →
      typeArguments.run.run s = (.ok args, s') → s'.peek = s.peekAt n) ∧
    (∀ start q q' s', (memberNameStep start q).run.run s = (.ok (.next q'), s') →
      ∃ ts segment, Consumes ts s s' ∧ q'.segments = q.segments ++ [segment] ∧
        Qualifies segment ts) ∧
    ∀ name? ident s', memberName.run.run s = (.ok (name?, ident), s') → ∃ qs t,
      Consumes (qs.flatten ++ [t]) s s' ∧
        List.Forall₂ Qualifies (name?.elim [] (·.segments)) qs ∧
          t.kind = .identifier ∧ ident = ⟨t.lexeme, t.span⟩ := by
  have hlength (args : List TypeSyntax) (s' : ParserState)
      (h : typeArguments.run.run s = (.ok args, s')) :
      ∃ ts, Consumes ts s s' ∧ typeArgumentsLength? s.after = some ts.length := by
    obtain ⟨ts, hts, hargs⟩ := typeArguments_yields heof args s' h
    exact ⟨ts, hts, hts.after_eq ▸ hargs.length_eq s'.after⟩
  refine ⟨hlength, fun n args s' hn _ h => ?_, fun start q q' s' h => ?_,
    fun name? ident s' h => ?_⟩
  · obtain ⟨ts, hts, hseen⟩ := hlength args s' h
    rw [hts.peek_eq, Option.some_inj.1 (hn.symm.trans hseen)]
  · obtain ⟨ts, hts, segment, hsegments, hsegment⟩ := memberNameStep_yields heof _ s' h
    exact ⟨ts, segment, hts, hsegments, hsegment⟩
  · obtain ⟨ts, hts, qs, t, hqs, rfl, ht⟩ := memberName_yields heof _ s' h
    exact ⟨qs, t, hts, hqs, ht⟩

/-- Fourteen tokens are seen ahead, and a dot behind them. -/
theorem typeArguments_seen_ahead_nested :
    let s := ParserState.ofText "<A<B>,(C,D)[]>.M"
    s.eof.kind = .eof ∧ typeArgumentsLength? s.after = some 14 ∧ ∃ args s' ts,
      typeArguments.run.run s = (.ok args, s') ∧ Consumes ts s s' ∧ ts.length = 14 ∧
        s'.peek.kind = .punct .dot := by
  intro s
  obtain ⟨hn, hdot, hok⟩ : typeArgumentsLength? s.after = some 14 ∧
      (s.peekAt 14).kind = .punct .dot ∧ (typeArguments.run.run s).1.isOk = true := by
    decide +kernel
  have heof : s.eof.kind = .eof := (ofText_good _).eof_kind
  have hspec := typeArguments_seen_ahead heof
  obtain ⟨⟨e | args, s'⟩, hrun⟩ : ∃ x, typeArguments.run.run s = x := ⟨_, rfl⟩
  · rw [hrun] at hok
    cases hok
  · obtain ⟨ts, hts, hlen⟩ := hspec.1 args s' hrun
    refine ⟨heof, hn, args, s', ts, hrun, hts, (Option.some_inj.1 (hn.symm.trans hlen)).symm, ?_⟩
    rw [hspec.2.1 14 args s' hn hdot hrun, hdot]

end Parser

end CommandModules

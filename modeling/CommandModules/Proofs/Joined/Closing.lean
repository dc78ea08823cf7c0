/-
  Command modules — parsers that end a declaration, in a longer text.

  Behind the last token of a text stands its end, in the longer text another token; only a parser
  that does not look at it does the same in both.

  * `s.Ends w`: the tokens to come end with one that ends a declaration, or there are none;
  * `Parser.Closes good w r t s p q`: `p` is carried over even if it consumes the last token, if
    its value is `good`; if `t` is set, it consumes a token;
  * what comes before a parser that consumes a token has to be carried over only where tokens
    remain (`Carries.thenCloses`); what comes behind must not look ahead (`Closes.bind`);
  * `Closes.recording`: a parser whose errors are recorded has to be carried over only where it
    succeeds;
  * `synchronize_closes`: a declaration that is passed over without an error ends where it ended.
-/
import CommandModules.Proofs.Joined.Basic

namespace CommandModules

open ParserState

variable {α β : Type} {w : Frame} {r t : Bool} {s s' : ParserState}

/-- The tokens to come end with one that ends a declaration, or there are none and no semicolon
    comes next in the longer text. -/
structure ParserState.Ends (w : Frame) (s : ParserState) : Prop where
  eof_kind : s.eof.kind = .eof
  next_ne : (w.after.head?.getD w.eof).kind ≠ .punct .semicolon
  bounded : s.after = [] ∨ s.Bounded w

namespace ParserState

theorem Ends.bounded_of_ne_nil (h : s.Ends w) (ha : s.after ≠ []) : s.Bounded w :=
  h.bounded.resolve_left ha

theorem Onward.after_ne_nil (h : s.Onward s') (ha : s'.after ≠ []) : s.after ≠ [] := by
  obtain ⟨ts, hs, -⟩ := h.tokens_eq
  rw [hs]
  exact List.append_ne_nil_of_right_ne_nil _ ha

theorem Onward.ends (h : s.Onward s') (he : s.Ends w) : s'.Ends w := by
  refine ⟨h.eof_eq ▸ he.eof_kind, he.next_ne, ?_⟩
  obtain ⟨ts, ha, -⟩ := h.tokens_eq
  rcases he.bounded with hnil | hb
  · rw [hnil] at ha
    exact .inl (List.append_eq_nil_iff.1 ha.symm).2
  · cases hb with
    | @stopped u hu hk =>
      rw [ha, List.getLast?_append] at hu
      cases hl : s'.after.getLast? with
      | none => exact .inl (List.getLast?_eq_none_iff.1 hl)
      | some v =>
        rw [hl, Option.some_or] at hu
        exact .inr (.stopped (hl.trans hu) hk)
    | ended hw heof hk => exact .inr (.ended hw (h.eof_eq ▸ heof) (h.eof_eq ▸ hk))

theorem after_ne_nil (he : s.eof.kind = .eof) (h : s.peek.kind ≠ .eof) : s.after ≠ [] := by
  intro ha
  rw [ParserState.peek, ha] at h
  exact h he

theorem punct_ne_eof (mark : Punct) : TokenKind.punct mark ≠ .eof :=
  nofun

theorem keyword_ne_eof (word : Keyword) : TokenKind.keyword word ≠ .eof :=
  nofun

theorem isAtMark_ne_eof {mark : Punct} (h : s.isAtMark mark = true) : s.peek.kind ≠ .eof := by
  rw [beq_iff_eq.1 h]
  exact punct_ne_eof mark

/-- No semicolon is seen behind the text. -/
theorem Ends.isAtSemicolon (h : s.Ends w) :
    (s.within w).isAtMark .semicolon = s.isAtMark .semicolon := by
  rcases h.bounded with ha | hb
  · have hs : s.isAtMark .semicolon = false := by
      rw [isAtMark, isAt, ParserState.peek, ha, List.head?_nil, Option.getD_none, h.eof_kind]
      rfl
    rw [hs, isAtMark, isAt, ParserState.peek, within, ha]
    exact beq_false_of_ne h.next_ne
  · exact hb.isAtMark _

end ParserState

/-! ## Groups that end no declaration -/

namespace Group

theorem openBehind_last {t : Token} {marks : List Punct} {mark : Punct}
    (hm : marks.getLast? = some mark) (he : (openBehind t marks).2 = []) :
    (openBehind t marks).1 = [] ∧ t.kind = .punct mark.closer ∨
      (openBehind t marks).1.getLast? = some mark := by
  obtain ⟨inner, marks, rfl⟩ : ∃ inner outer, marks = inner :: outer :=
    List.ne_nil_iff_exists_cons.1 (by rintro rfl; cases hm)
  unfold openBehind at he ⊢
  split at he
  · rename_i p hp
    split at he
    · exact .inr (by rw [if_pos ‹_›, List.getLast?_cons_cons, hm])
    split at he
    · dsimp only at he ⊢
      split at he
      · rename_i hopen hcloser hp'
        rw [if_neg hopen, if_pos hcloser, if_pos hp']
        cases marks with
        | nil =>
          cases hm
          exact .inl ⟨rfl, hp.trans (congrArg _ hp'.symm)⟩
        | cons => exact .inr hm
      · cases he
    · exact .inr (by rw [if_neg ‹_›, if_neg ‹_›, hm])
  · exact .inr hm

theorem taken_ne_nil {eof : Token} {marks : List Punct} {ts : List Token} (h : ts ≠ []) :
    (take eof marks ts).taken ≠ [] := by
  cases ts with
  | nil => exact absurd rfl h
  | cons t ts =>
    rw [take]
    split
    · exact List.cons_ne_nil _ _
    · exact List.cons_ne_nil _ _

/-- A group without errors ends with the mark that closes the outermost open one. -/
theorem kind_of_last {eof t : Token} {marks : List Punct} {mark : Punct} {ts : List Token}
    (hm : marks.getLast? = some mark) (he : (take eof marks ts).errors = [])
    (ht : (take eof marks ts).taken.getLast? = some t) : t.kind = .punct mark.closer := by
  induction ts generalizing marks with
  | nil => cases ht
  | cons u us ih =>
    rw [take] at he ht
    dsimp only at he ht
    by_cases hb : (openBehind u marks).1 = []
    · rw [if_pos hb] at he ht
      cases ht
      rcases openBehind_last hm he with h | h
      · exact h.2
      · rw [hb] at h
        cases h
    · rw [if_neg hb] at he ht
      obtain ⟨hbehind, hlater⟩ := List.append_eq_nil_iff.1 he
      have hm' := (openBehind_last hm hbehind).resolve_left fun h => hb h.1
      refine ih hm' hlater ?_
      have hus : us ≠ [] := by
        rintro rfl
        rw [take, List.head?_eq_some_head hb] at hlater
        cases hlater
      rwa [List.getLast?_cons_of_ne_nil (taken_ne_nil hus)] at ht

theorem endsDeclaration_of_last {eof t u : Token} {us : List Token}
    (he : (take eof [] (u :: us)).errors = []) (hk : u.kind.endsDeclaration = false)
    (hopen : u.kind ≠ .punct .leftBrace)
    (ht : (take eof [] (u :: us)).taken.getLast? = some t) : t.kind.endsDeclaration = false := by
  by_cases hb : (openBehind u []).1 = []
  · rw [take, if_pos hb] at ht
    cases ht
    exact hk
  · obtain ⟨mark, hm, hmark⟩ : ∃ mark, (openBehind u []).1.getLast? = some mark ∧
        (TokenKind.punct mark.closer).endsDeclaration = false := by
      unfold openBehind at hb ⊢
      split at hb
      · rename_i mark hu
        refine ⟨mark, ?_⟩
        cases mark with
        | leftBrace => exact absurd hu hopen
        | leftParen | leftBracket => exact ⟨rfl, rfl⟩
        | _ => exact absurd rfl hb
      · exact absurd rfl hb
    rw [take, if_neg hb] at he ht
    have hlater := (List.append_eq_nil_iff.1 he).2
    have hus : us ≠ [] := by
      rintro rfl
      rw [take, List.head?_eq_some_head hb] at hlater
      cases hlater
    rw [List.getLast?_cons_of_ne_nil (taken_ne_nil hus)] at ht
    exact endsDeclaration_of_eq (kind_of_last hm hlater ht) hmark

end Group

/-- Behind a group in parentheses or brackets the tokens to come are bounded as before. -/
theorem ParserState.Bounded.skipGroup (hb : s.Bounded w) (hq : s.Quiet s.skipGroup)
    (hk : s.peek.kind.endsDeclaration = false) (hopen : s.peek.kind ≠ .punct .leftBrace) :
    s.skipGroup.Bounded w := by
  have he : (Group.take s.eof [] s.after).errors = [] := by
    simpa [ParserState.skipGroup] using hq.1
  cases hb with
  | ended hw heof hkind => exact .ended hw heof hkind
  | @stopped t ht hstop =>
    obtain ⟨u, us, ha⟩ : ∃ u us, s.after = u :: us :=
      List.ne_nil_iff_exists_cons.1 (by rintro ha; rw [ha] at ht; cases ht)
    have hu : s.peek = u := by rw [ParserState.peek, ha, List.head?_cons, Option.getD_some]
    refine .stopped (t := t) ?_ hstop
    rw [← Group.take_append s.eof [] s.after, List.getLast?_append] at ht
    cases hl : (Group.take s.eof [] s.after).rest.getLast? with
    | some v =>
      rw [hl, Option.some_or] at ht
      exact hl.trans ht
    | none =>
      rw [hl, Option.none_or] at ht
      rw [ha] at he ht
      have := Group.endsDeclaration_of_last he (hu ▸ hk) (hu ▸ hopen) ht
      rw [hstop] at this
      cases this

/-- What `p` does from `s` on, `q` does in the longer text, if nothing is recorded and `p`
    succeeds: where tokens remain, and at the end of the text if the value is good. -/
structure Parser.Closes [Shift α] (good : α → Prop) (w : Frame) (r t : Bool) (s : ParserState)
    (p q : Parser α) : Prop where
  onward : s.Onward (p.run.run s).2
  takes : t = true → ∀ a s', p.run.run s = (.ok a, s') → s.Quiet s' → good a →
    s.eof.kind = .eof → s.after ≠ []
  same : ∀ a s', p.run.run s = (.ok a, s') → s.Quiet s' → (r = true → s.Ready w) →
    (s'.Bounded w ∨ s.Ends w ∧ good a) → q.run.run (s.within w) = (.ok (shift w.distance a), s'.within w)

namespace Parser

section
variable [Shift α] [Shift β] {p q p' q' : Parser α} {f g : α → Parser β} {good : α → Prop}

/-- What a parser that succeeds does in the longer text. -/
theorem Carries.bounded_run (h : Carries w r false s p q) {a : α} (hx : p.run.run s = (.ok a, s'))
    (hq : s.Quiet s') (hr : r = true → s.Ready w) (hb : s'.Bounded w) :
    q.run.run (s.within w) = (.ok (shift w.distance a), s'.within w) := by
  have hs := h.same
  rw [hx] at hs
  exact hs hq hr hb (.inr rfl)

namespace Closes

/-- Where tokens remain, the parser is carried over. -/
theorem carries (h : Closes good w r t s p q) : Carries w r false s p q := by
  refine ⟨h.onward, nofun, fun hq hr hb hok => ?_⟩
  replace hok := hok.resolve_left Bool.false_ne_true
  rcases hx : p.run.run s with ⟨e | a, s'⟩
  · rw [hx] at hok
    cases hok
  · rw [hx] at hq hb
    exact h.same a s' hx hq hr (.inl hb)

/-- Tokens remain before a parser that consumes one. -/
theorem bounded (h : Closes good w r true s p q) {a : α} (hx : p.run.run s = (.ok a, s'))
    (hq : s.Quiet s') (hb : s'.Bounded w ∨ s.Ends w ∧ good a) : s.Bounded w := by
  have ho := h.onward
  rw [hx] at ho
  rcases hb with hb | ⟨he, hg⟩
  · exact ho.bounded hb
  · exact he.bounded_of_ne_nil (h.takes rfl a s' hx hq hg he.eof_kind)

theorem mono {good' : α → Prop} (h : Closes good w r t s p q) (hg : ∀ a, good' a → good a) :
    Closes good' w r t s p q :=
  ⟨h.onward, fun ht a s' hx hq hgood => h.takes ht a s' hx hq (hg a hgood),
    fun a s' hx hq hr hb => h.same a s' hx hq hr (hb.imp_right (·.imp_right (hg a)))⟩

theorem lax (h : Closes good w r true s p q) : Closes good w r t s p q :=
  ⟨h.onward, fun _ => h.takes rfl, h.same⟩

/-- A parser that does not succeed quietly has nothing to be carried over to. -/
theorem of_fails (ho : s.Onward (p.run.run s).2)
    (h : ∀ a s', p.run.run s = (.ok a, s') → ¬ s.Quiet s') : Closes good w r t s p q :=
  ⟨ho, fun _ a s' hx hq => absurd hq (h a s' hx), fun a s' hx hq => absurd hq (h a s' hx)⟩

/-- Without a good value the parser has to be carried over only where tokens remain. -/
theorem of_carries (h : Carries w r false s p q) (hg : ∀ a, ¬ good a) :
    Closes good w r t s p q :=
  ⟨h.onward, fun _ a _ _ _ hgood => absurd hgood (hg a), fun a _ hx hq hr hb =>
    h.bounded_run hx hq hr (hb.resolve_right fun h => hg a h.2)⟩

theorem pure {a b : α} (h : b = shift w.distance a) :
    Closes good w r false s (Pure.pure a) (Pure.pure b) := by
  refine ⟨.refl s, nofun, fun x s' hx _ _ _ => ?_⟩
  cases hx
  exact congrArg (fun b => (Except.ok b, s.within w)) h

/-- What is handed back may tell where the declaration ends. -/
theorem pureSpan {f g : Span → α} {start : Span}
    (h : ∀ span, g (shift w.distance span) = shift w.distance (f span)) :
    Closes good w true false s (do return f ((← MonadState.get).spanFrom start))
      (do return g ((← MonadState.get).spanFrom (shift w.distance start))) := by
  refine ⟨.refl s, nofun, fun x s' hx _ hr _ => ?_⟩
  cases hx
  show (Except.ok (g ((s.within w).spanFrom (shift w.distance start))), s.within w) = _
  rw [(hr rfl).spanFrom, h]

theorem get {f g : ParserState → Parser α} (h : Closes good w r t s (f s) (g (s.within w))) :
    Closes good w r t s (MonadState.get >>= f) (MonadState.get >>= g) :=
  ⟨h.onward, h.takes, h.same⟩

/-- Behind a parser that closes a declaration nothing is looked at. -/
theorem bind {good' : β → Prop} (h : Closes good w r t s p q)
    (hf : ∀ a s', s.Onward s' → Closes good' w r false s' (f a) (g (shift w.distance a)))
    (hg : ∀ a b s₁ s₂, (f a).run.run s₁ = (.ok b, s₂) → good' b → good a) :
    Closes good' w r t s (p >>= f) (q >>= g) := by
  have hp := run_bind p f s
  have hq := run_bind q g (s.within w)
  obtain ⟨ho, ht, hs⟩ := h
  rcases hx : p.run.run s with ⟨e | a, s₁⟩
  · rw [hx] at hp ho
    refine ⟨hp ▸ ho, fun _ b s₂ hb => ?_, fun b s₂ hb => ?_⟩
    all_goals cases hp.symm.trans hb
  · rw [hx] at hp ho
    obtain ⟨ho', -, hs'⟩ := hf a s₁ ho
    refine ⟨hp ▸ ho.trans ho', fun ht' b s₂ hb hquiet hgood => ?_,
      fun b s₂ hb hquiet hr hend => ?_⟩
    all_goals
      have hb : (f a).run.run s₁ = (.ok b, s₂) := hp.symm.trans hb
      rw [hb] at ho'
    · exact ht ht' a s₁ hx (ho.quiet_left ho' hquiet) (hg a b s₁ s₂ hb hgood)
    · have hend₁ : s₁.Bounded w ∨ s.Ends w ∧ good a :=
        hend.imp ho'.bounded fun ⟨he, hgood⟩ => ⟨he, hg a b s₁ s₂ hb hgood⟩
      rw [hq, hs a s₁ hx (ho.quiet_left ho' hquiet) hr hend₁]
      exact hs' b s₂ hb (ho.quiet_right ho' hquiet) (fun hr' => ho.ready (hr hr'))
        (hend.imp_right fun ⟨he, hgood⟩ => ⟨ho.ends he, hgood⟩)

/-- Behind a parser that closes a declaration with any value nothing is looked at. -/
theorem andThen {good : β → Prop} (h : Closes (fun _ => True) w r t s p q)
    (hf : ∀ a s', s.Onward s' → Closes good w r false s' (f a) (g (shift w.distance a))) :
    Closes good w r t s (p >>= f) (q >>= g) :=
  h.bind hf fun _ _ _ _ _ _ => ⟨⟩

theorem map {good' : β → Prop} {f g : α → β} (h : Closes good w r t s p q)
    (hf : ∀ a, g (shift w.distance a) = shift w.distance (f a)) (hg : ∀ a, good' (f a) → good a) :
    Closes good' w r t s (f <$> p) (g <$> q) :=
  h.bind (fun _ _ _ => .pure (hf _)) fun a b _ _ hb hgood => by
    cases hb
    exact hg a hgood

theorem discard {good : Unit → Prop} (h : Closes (fun _ => True) w r t s p q) :
    Closes good w r t s (Functor.discard p) (Functor.discard q) :=
  h.map (f := fun _ => ()) (g := fun _ => ()) (fun _ => rfl) fun _ _ => ⟨⟩

theorem congr (h : Closes good w r true s p q)
    (hq : (r = true → s.Ready w) → s.Bounded w → q' = q) :
    Closes good w r true s p q' := by
  refine ⟨h.onward, h.takes, fun a s' hx hquiet hr hb => ?_⟩
  rw [hq hr (h.bounded hx hquiet hb)]
  exact h.same a s' hx hquiet hr hb

theorem ite {c d : Prop} [Decidable c] [Decidable d] (hc : s.Bounded w → (d ↔ c))
    (h : c → Closes good w r true s p q) (h' : ¬ c → Closes good w r true s p' q') :
    Closes good w r true s (if c then p else p') (if d then q else q') := by
  by_cases hc' : c
  · rw [if_pos hc']
    have h := h hc'
    refine ⟨h.onward, h.takes, fun a s' hx hq hr hb => ?_⟩
    rw [if_pos ((hc (h.bounded hx hq hb)).2 hc')]
    exact h.same a s' hx hq hr hb
  · rw [if_neg hc']
    have h := h' hc'
    refine ⟨h.onward, h.takes, fun a s' hx hq hr hb => ?_⟩
    rw [if_neg (mt (hc (h.bounded hx hq hb)).1 hc')]
    exact h.same a s' hx hq hr hb

/-- What a reader does in the longer text. -/
theorem reads {p q : Reader α} (h : Closes good w r t s (liftM p) (liftM q)) {a : α}
    (hx : p.run s = (a, s')) (hq : s.Quiet s') (hr : r = true → s.Ready w)
    (hend : s'.Bounded w ∨ s.Ends w ∧ good a) :
    q.run (s.within w) = (shift w.distance a, s'.within w) := by
  have hs := h.same a s' (by rw [lift_run, hx]) hq hr hend
  rw [lift_run, Prod.mk.injEq] at hs
  exact Prod.ext (Except.ok.inj hs.1) hs.2

theorem carriesRead {p q : Reader α} (h : Closes good w r t s (liftM p) (liftM q)) :
    Reader.Carries w r false s p q :=
  ⟨h.onward, nofun, fun hq hr hb _ => h.reads rfl hq hr (.inl hb)⟩

/-- A choice that the longer text does not change. -/
theorem choice {c d : Prop} [Decidable c] [Decidable d] (hc : d ↔ c)
    (h : c → Closes good w r t s p q) (h' : ¬ c → Closes good w r t s p' q') :
    Closes good w r t s (if c then p else p') (if d then q else q') := by
  rw [if_congr hc rfl rfl]
  split
  · exact h ‹_›
  · exact h' ‹_›

section
variable {p q p' q' : Reader α} {f g : α → Reader β}

theorem liftGet {f g : ParserState → Reader α}
    (h : Closes good w r t s (liftM (f s)) (liftM (g (s.within w)))) :
    Closes good w r t s (liftM (MonadState.get >>= f)) (liftM (MonadState.get >>= g)) :=
  ⟨h.onward, h.takes, h.same⟩

omit [Shift α] in
theorem liftBind {good : β → Prop}
    (h : Closes good w r t s (liftM p >>= fun a => liftM (f a)) (liftM q >>= fun a => liftM (g a))) :
    Closes good w r t s (liftM (p >>= f)) (liftM (q >>= g)) :=
  ⟨h.onward, h.takes, h.same⟩

theorem liftIte {c d : Prop} [Decidable c] [Decidable d] (hc : s.Bounded w → (d ↔ c))
    (h : c → Closes good w r true s (liftM p) (liftM q))
    (h' : ¬ c → Closes good w r true s (liftM p') (liftM q')) :
    Closes good w r true s (liftM (if c then p else p')) (liftM (if d then q else q')) := by
  rw [apply_ite liftM, apply_ite liftM]
  exact ite hc h h'

theorem liftChoice {c d : Prop} [Decidable c] [Decidable d] (hc : d ↔ c)
    (h : c → Closes good w r t s (liftM p) (liftM q))
    (h' : ¬ c → Closes good w r t s (liftM p') (liftM q')) :
    Closes good w r t s (liftM (if c then p else p')) (liftM (if d then q else q')) := by
  rw [apply_ite liftM, apply_ite liftM]
  exact choice hc h h'

end

end Closes

namespace Carries

/-- Before a parser that consumes a token, tokens remain. -/
theorem thenCloses_of {r' : Bool} {good : β → Prop} (h : Carries w r false s p q)
    (hf : ∀ a s', s.Onward s' → Closes good w r' true s' (f a) (g (shift w.distance a)))
    (hr : ∀ a s', p.run.run s = (.ok a, s') → s.Bounded w → (r = true → s.Ready w) → r' = true →
      s'.Ready w) :
    Closes good w r true s (p >>= f) (q >>= g) := by
  have hp := run_bind p f s
  have hq := run_bind q g (s.within w)
  obtain ⟨ho, -, hs⟩ := h
  rcases hx : p.run.run s with ⟨e | a, s₁⟩
  · rw [hx] at hp ho
    refine ⟨hp ▸ ho, fun _ b s₂ hb => ?_, fun b s₂ hb => ?_⟩
    all_goals cases hp.symm.trans hb
  · rw [hx] at hp ho hs
    have hf := hf a s₁ ho
    refine ⟨hp ▸ ho.trans hf.onward, fun _ b s₂ hb hquiet hgood he => ?_,
      fun b s₂ hb hquiet hready hend => ?_⟩
    all_goals
      have hb : (f a).run.run s₁ = (.ok b, s₂) := hp.symm.trans hb
      have ho' := hf.onward
      rw [hb] at ho'
      have hquiet₁ := ho.quiet_right ho' hquiet
    · exact ho.after_ne_nil (hf.takes rfl b s₂ hb hquiet₁ hgood (ho.eof_eq ▸ he))
    · have hend₁ : s₂.Bounded w ∨ s₁.Ends w ∧ good b :=
        hend.imp_right fun ⟨he, hgood⟩ => ⟨ho.ends he, hgood⟩
      have hb₁ := hf.bounded hb hquiet₁ hend₁
      rw [hq, hs (ho.quiet_left ho' hquiet) hready hb₁ (.inr rfl)]
      exact hf.same b s₂ hb hquiet₁ (hr a s₁ hx (ho.bounded hb₁) hready) hend₁

theorem thenCloses {good : β → Prop} (h : Carries w r false s p q)
    (hf : ∀ a s', s.Onward s' → Closes good w r true s' (f a) (g (shift w.distance a))) :
    Closes good w r true s (p >>= f) (q >>= g) := by
  refine h.thenCloses_of hf fun a s' hx _ hr hr' => ?_
  have ho := h.onward
  rw [hx] at ho
  exact ho.ready (hr hr')

/-- The continuations behind the branches of a choice. -/
theorem joinCloses {good : β → Prop} {c d : Prop} [Decidable c] [Decidable d]
    (hc : s.Bounded w → (d ↔ c)) (h : c → Carries w r false s p q)
    (h' : ¬ c → Carries w r false s p' q')
    (hf : ∀ a s', s.Onward s' → Closes good w r true s' (f a) (g (shift w.distance a))) :
    Closes good w r true s (have next := f; if c then p >>= next else p' >>= next)
      (have next := g; if d then q >>= next else q' >>= next) :=
  .ite hc (fun hc => (h hc).thenCloses hf) fun hc => (h' hc).thenCloses hf

/-- The continuations behind a step that is taken under a condition only. -/
theorem afterCloses {good : β → Prop} {c d : Prop} [Decidable c] [Decidable d] {p q : Parser Unit}
    {f g : Unit → Parser β} (hc : s.Bounded w → (d ↔ c)) (h : c → Carries w r false s p q)
    (hf : ∀ s', s.Onward s' → Closes good w r true s' (f ()) (g ())) :
    Closes good w r true s (have next := f; if c then p >>= next else next ())
      (have next := g; if d then q >>= next else next ()) :=
  .ite hc (fun hc => (h hc).thenCloses fun _ => hf) fun _ => hf s (.refl s)

/-- What follows may rely on the token that `p` consumes. -/
theorem readyCloses {good : β → Prop} (h : Carries w r false s p q)
    (hp : ∀ a s', p.run.run s = (.ok a, s') → s.Bounded w → s'.before ≠ [])
    (hf : ∀ a s', s.Onward s' → Closes good w true true s' (f a) (g (shift w.distance a))) :
    Closes good w r true s (p >>= f) (q >>= g) :=
  h.thenCloses_of hf fun a s' hx hb _ _ => .inl (hp a s' hx hb)

end Carries

/-! ## Single tokens -/

theorem advance_closes {good : Token → Prop} (h : s.peek.kind ≠ .eof) :
    Closes good w r true s (liftM advance) (liftM advance) := by
  refine ⟨onward_advance s, fun _ _ _ _ _ _ he => after_ne_nil he h, fun u s' hx _ _ hend => ?_⟩
  cases hx
  have hb : s.Bounded w := hend.elim (onward_advance s).bounded fun ⟨he, _⟩ =>
    he.bounded_of_ne_nil (after_ne_nil he.eof_kind h)
  show (Except.ok (s.within w).peek, (s.within w).advance) = _
  rw [hb.peek, advance_within hb]

theorem failAt_closes (kind : ParseErrorKind) (what : String) :
    Closes good w r true s (failAt kind what) (failAt kind what) :=
  .of_fails (.refl s) fun _ _ hx => by cases hx

theorem expect_closes {good : Token → Prop} {kind : TokenKind} (hk : kind ≠ .eof) :
    Closes good w r true s (expect kind) (expect kind) :=
  .get (.ite (fun hb => by rw [hb.isAt]) (fun hc => advance_closes (beq_iff_eq.1 hc ▸ hk))
    fun _ => failAt_closes _ _)

theorem expect_run {kind : TokenKind} {u : Token} (h : (expect kind).run.run s = (.ok u, s')) :
    s.isAt kind = true ∧ s' = s.advance := by
  have run : (expect kind).run.run s =
      (if s.isAt kind then liftM advance else failAt .expectedToken kind.description :
        Parser Token).run.run s := rfl
  rw [run] at h
  split at h
  · cases h
    exact ⟨‹_›, rfl⟩
  · cases h

/-- What follows may rely on the token that is expected. -/
theorem expect_readyCloses {kind : TokenKind} (hk : kind ≠ .eof) {f g : Unit → Parser α}
    (hf : ∀ s', s.Onward s' → Closes good w true true s' (f ()) (g ())) :
    Closes good w r true s (discard (expect kind) >>= f) (discard (expect kind) >>= g) := by
  refine (expect_carries kind).discard.readyCloses (fun u s' hx hb => ?_) fun _ => hf
  have hp := run_bind (expect kind) (fun _ => pure ()) s
  rcases hrun : (expect kind).run.run s with ⟨e | u, s₁⟩
  · rw [hrun] at hp
    cases hp.symm.trans hx
  · rw [hrun] at hp
    cases hp.symm.trans hx
    obtain ⟨hat, rfl⟩ := expect_run hrun
    exact before_advance_ne_nil (hb.after_ne_nil (beq_iff_eq.1 hat ▸ hk))

theorem expectMark_readyCloses (mark : Punct) {f g : Unit → Parser α}
    (hf : ∀ s', s.Onward s' → Closes good w true true s' (f ()) (g ())) :
    Closes good w r true s (discard (expectMark mark) >>= f) (discard (expectMark mark) >>= g) :=
  expect_readyCloses (punct_ne_eof mark) hf

/-- The mark at which a declaration ends. -/
theorem discard_expectMark_closes {good : Unit → Prop} (mark : Punct) :
    Closes good w r true s (discard (expectMark mark)) (discard (expectMark mark)) :=
  (expect_closes (punct_ne_eof mark)).discard

theorem skipGroup_closes {good : Unit → Prop} (h : s.peek.kind ≠ .eof) :
    Closes good w r true s (liftM skipGroup) (liftM skipGroup) := by
  refine ⟨onward_skipGroup s, fun _ _ _ _ _ _ he => after_ne_nil he h, fun u s' hx hq _ hend => ?_⟩
  cases hx
  have hb : s.Bounded w := hend.elim (onward_skipGroup s).bounded fun ⟨he, _⟩ =>
    he.bounded_of_ne_nil (after_ne_nil he.eof_kind h)
  exact congrArg (Except.ok (), ·) (skipGroup_within hq hb)

theorem eat_run (kind : TokenKind) (s : ParserState) :
    (eat kind).run s = if s.isAt kind then (true, s.advance) else (false, s) := by
  show (if s.isAt kind then _ else _ : Reader Bool).run s = _
  split <;> rfl

/-- Behind the text no semicolon is consumed. -/
theorem eatSemicolon_closes {good : Unit → Prop} :
    Closes good w r false s (liftM (discard (eatMark .semicolon)))
      (liftM (discard (eatMark .semicolon))) := by
  have run (s : ParserState) : (liftM (discard (eatMark .semicolon)) : Parser Unit).run.run s =
      (.ok (), ((eat (.punct .semicolon)).run s).2) := rfl
  have carries := (eatMark_carries (w := w) (r := r) (s := s) .semicolon).discard
  refine ⟨carries.onward, nofun, fun u s' hx hq hr hend => ?_⟩
  rcases hend with hb | ⟨he, -⟩
  · exact (Carries.lift carries).bounded_run hx hq hr hb
  · obtain rfl : ((eat (.punct .semicolon)).run s).2 = s' := congrArg Prod.snd ((run s).symm.trans hx)
    have hat : (s.within w).isAt (.punct .semicolon) = s.isAt (.punct .semicolon) := he.isAtSemicolon
    rw [run, eat_run, eat_run, hat]
    split
    · rename_i hc
      have ha := after_ne_nil he.eof_kind (by rw [beq_iff_eq.1 hc]; exact nofun)
      exact congrArg (Except.ok (), ·) (advance_within (he.bounded_of_ne_nil ha))
    · rfl

/-- Where the mark is consumed nothing is looked at. -/
theorem eatMark_orCloses {mark : Punct} {f g : Bool → Parser α}
    (h : ∀ s', s.Onward s' → Closes good w r false s' (f true) (g true))
    (h' : Closes good w r true s (f false) (g false)) :
    Closes good w r true s (liftM (eatMark mark) >>= f) (liftM (eatMark mark) >>= g) := by
  have run (f : Bool → Parser α) (s : ParserState) : (liftM (eatMark mark) >>= f).run.run s =
      (if s.isAtMark mark then liftM advance >>= fun _ => f true else f false : Parser α).run.run s := by
    rw [run_bind]
    show (f ((eat (.punct mark)).run s).1).run.run ((eat (.punct mark)).run s).2 = _
    rw [eat_run, isAtMark]
    split <;> rfl
  have closes : Closes good w r true s
      (if s.isAtMark mark then liftM advance >>= fun _ => f true else f false)
      (if (s.within w).isAtMark mark then liftM advance >>= fun _ => g true else g false) :=
    .ite (fun hb => by rw [hb.isAtMark])
      (fun hc => (advance_closes (isAtMark_ne_eof hc)).andThen fun _ => h)
      fun _ => h'
  exact ⟨run f s ▸ closes.onward, run f s ▸ closes.takes,
    run f s ▸ run g (s.within w) ▸ closes.same⟩

/-! ## Errors that are recorded -/

/-- Behind an error that is recorded nothing has to be carried over. -/
theorem report_closes {t' : Bool} {e e' : ParseError} {f g : Unit → Parser α}
    (hf : ∀ s', s.Onward s' → Closes good w r t' s' (f ()) (g ())) :
    Closes good w r t s (liftM (report e) >>= f) (liftM (report e') >>= g) := by
  have run : (liftM (report e) >>= f).run.run s = (f ()).run.run (s.report e) := run_bind ..
  have ho := (hf _ (onward_report s e)).onward
  refine .of_fails (run ▸ (onward_report s e).trans ho) fun a s' hx => ?_
  rw [run] at hx
  rw [hx] at ho
  exact (Onward.refl s).not_quiet ho

/-- Where errors are recorded the parser has to be carried over only where it succeeds. -/
theorem Closes.recording {f g : Except ParseError α → Reader (Option α)} {good' : Option α → Prop}
    (h : Closes good w r t s p q) (hg : ∀ a, good' (some a) → good a)
    (hf : ∀ a, f (.ok a) = Pure.pure (some a)) (hf' : ∀ a, g (.ok a) = Pure.pure (some a))
    (ho : ∀ e s', s.Onward s' → s.Onward ((f (.error e)).run s').2)
    (hfail : ∀ e s', s.Onward s' → ¬ s.Quiet ((f (.error e)).run s').2) :
    Closes good' w r t s (liftM (p.run >>= f)) (liftM (q.run >>= g)) := by
  have run {p : Parser α} {f : Except ParseError α → Reader (Option α)} {s s' : ParserState}
      {x : Except ParseError α} (hx : p.run.run s = (x, s')) :
      (liftM (p.run >>= f) : Parser (Option α)).run.run s =
        (.ok ((f x).run s').1, ((f x).run s').2) := by
    rw [lift_run, Reader.run_bind, hx]
  have ho₁ := h.onward
  rcases hx : p.run.run s with ⟨e | a, s₁⟩
  · rw [hx] at ho₁
    refine .of_fails (run hx ▸ ho e s₁ ho₁) fun a? s' hrun => ?_
    cases (run hx).symm.trans hrun
    exact hfail e s₁ ho₁
  · have hp := run (f := f) hx
    rw [hx] at ho₁
    rw [hf] at hp
    refine ⟨hp ▸ ho₁, fun ht a? s' hrun hq hgood => ?_, fun a? s' hrun hq hr hend => ?_⟩
    all_goals cases hp.symm.trans hrun
    · exact h.takes ht a s₁ hx hq (hg a hgood)
    · rw [run (h.same a s₁ hx hq hr (hend.imp_right (·.imp_right (hg a)))), hf']
      rfl

theorem orReport_closes {good' : Option α → Prop} (h : Closes good w r t s p q)
    (hg : ∀ a, good' (some a) → good a) :
    Closes good' w r t s (liftM (orReport p)) (liftM (orReport q)) :=
  h.recording hg (fun _ => rfl) (fun _ => rfl) (fun e _ ho => ho.trans (onward_report _ e))
    fun _ _ ho => ho.not_quiet (.refl _)

theorem orRecover_closes {good' : Option α → Prop} (h : Closes good w r t s p q)
    (hg : ∀ a, good' (some a) → good a) :
    Closes good' w r t s (liftM (orRecover p)) (liftM (orRecover q)) :=
  h.recording hg (fun _ => rfl) (fun _ => rfl)
    (fun e s' ho => ho.trans ((onward_report s' e).trans (synchronize_onward _)))
    fun _ _ ho => ho.not_quiet (synchronize_onward _)

theorem orReport_carries (h : Carries w r false s p q) :
    Reader.Carries w r false s (orReport p) (orReport q) :=
  have closes : Closes (fun _ => False) w r false s (liftM (orReport p)) (liftM (orReport q)) :=
    orReport_closes (.of_carries h fun _ => id) fun _ => id
  closes.carriesRead

theorem orRecover_carries (h : Carries w r false s p q) :
    Reader.Carries w r false s (orRecover p) (orRecover q) :=
  have closes : Closes (fun _ => False) w r false s (liftM (orRecover p)) (liftM (orRecover q)) :=
    orRecover_closes (.of_carries h fun _ => id) fun _ => id
  closes.carriesRead

theorem expectClosing_closes {good : Unit → Prop} (mark : Punct) :
    Closes good w r true s (liftM (expectClosing mark)) (liftM (expectClosing mark)) :=
  (orReport_closes (expect_closes (punct_ne_eof mark)) fun _ h => h).discard

end

/-! ## Declarations that are passed over -/

theorem synchronizeStep_closes {good : Round Unit Unit → Prop} (hb : s.Bounded w) :
    Closes good w r false s (liftM synchronizeStep) (liftM synchronizeStep) := by
  refine .liftGet (.liftChoice (by rw [hb.isAtEof, hb.isAtMark]) (fun _ => .pure rfl) fun hend =>
    .liftChoice (by rw [hb.isAtMark]) (fun hc => ?_) fun _ =>
    .liftChoice (by rw [hb.isAtMark]) (fun hc => ?_) fun _ => ?_)
  · have closes : Closes (fun _ => True) w r true s (liftM (discard advance))
        (liftM (discard advance)) := (advance_closes (isAtMark_ne_eof hc)).discard
    exact .liftBind (closes.lax.andThen fun _ _ _ => .pure rfl)
  · exact .liftBind ((skipGroup_closes (isAtMark_ne_eof hc)).lax.andThen fun _ _ _ =>
      .liftBind (eatSemicolon_closes.andThen fun _ _ _ => .pure rfl))
  · refine .liftBind ((skipGroup_closes fun h => hend ?_).lax.andThen fun _ _ _ => .pure rfl)
    rw [isAtEof, isAt, h]
    rfl

/-- Where the end is still to be found, the tokens to come are bounded as before. -/
theorem synchronizeStep_bounded (hb : s.Bounded w) (h : synchronizeStep.run s = (.next (), s'))
    (hq : s.Quiet s') : s'.Bounded w := by
  have run : synchronizeStep.run s = (if s.isAtEof || s.isAtMark .rightBrace then _
      else if s.isAtMark .semicolon then _ else if s.isAtMark .leftBrace then _ else _ :
      Reader (Round Unit Unit)).run s := rfl
  rw [run] at h
  split at h
  · cases h
  split at h
  · cases h
  split at h
  · cases h
  · rename_i hend hsemicolon hbrace
    cases h
    refine hb.skipGroup hq (eq_false_of_ne_true fun hk => ?_) fun hk => hbrace (beq_iff_eq.2 hk)
    rcases endsDeclaration_iff.1 hk with hk | hk
    · exact hsemicolon (beq_iff_eq.2 hk)
    · exact hend (Bool.or_eq_true_iff.2 (.inr (beq_iff_eq.2 hk)))

theorem synchronizeWithin_onward (n : Nat) (s : ParserState) :
    s.Onward ((loopWithin (fun _ => synchronizeStep) n ()).run s).2 :=
  have carries : Reader.Carries ⟨[], [], [], [], s.eof⟩ false false s
      (loopWithin (fun _ => synchronizeStep) n ()) (loopWithin (fun _ => synchronizeStep) n ()) :=
    loopWithin_carries (le_refl n) (.refl s)
      (fun _ _ _ => synchronizeStep_carries.mono fun _ _ => ⟨⟩) ()
  carries.onward

theorem synchronizeWithin_run {n m : Nat} (hn : n ≤ m) (hb : s.Bounded w)
    (h : (loopWithin (fun _ => synchronizeStep) n ()).run s = ((), s')) (hq : s.Quiet s')
    (hend : s'.Bounded w ∨ s.Ends w) :
    (loopWithin (fun _ => synchronizeStep) m ()).run (s.within w) = ((), s'.within w) := by
  induction n generalizing m s with
  | zero =>
    cases h
    exact absurd hq ((Onward.refl s).fault_not_quiet _)
  | succ n ih =>
    obtain ⟨m, rfl⟩ : ∃ m', m = m' + 1 := ⟨m - 1, by omega⟩
    have closes : Closes (fun _ => True) w false false s (liftM synchronizeStep)
        (liftM synchronizeStep) := synchronizeStep_closes hb
    have ho : s.Onward (synchronizeStep.run s).2 := closes.onward
    rw [loopWithin_run] at h ⊢
    rcases hx : synchronizeStep.run s with ⟨_ | _, s₁⟩
    · rw [hx] at h ho
      dsimp only at h
      split at h
      · rename_i hlt
        have hl : s₁.Onward s' := by
          have := synchronizeWithin_onward n s₁
          rwa [h] at this
        have hq₁ := ho.quiet_left hl hq
        have hb₁ := synchronizeStep_bounded hb hx hq₁
        have hlt' : (s₁.within w).after.length < (s.within w).after.length := by
          rw [length_after_within, length_after_within]
          omega
        rw [closes.reads hx hq₁ nofun (.inl hb₁)]
        show (if _ then _ else _ : Reader Unit).run (s₁.within w) = _
        rw [if_pos hlt']
        exact ih (by omega) hb₁ h (ho.quiet_right hl hq) (hend.imp_right ho.ends)
      · cases h
        exact absurd hq (ho.fault_not_quiet _)
    · rw [hx] at h ho
      cases h
      rw [closes.reads hx hq nofun (hend.imp_right (⟨·, ⟨⟩⟩))]
      rfl

/-- A declaration that is passed over ends where it ended. -/
theorem synchronize_closes {good : Unit → Prop} (h : s.peek.kind ≠ .eof) :
    Closes good w r true s (liftM synchronize) (liftM synchronize) := by
  have ho := synchronize_onward s
  refine ⟨ho, fun _ _ _ _ _ _ he => after_ne_nil he h, fun u s' hx hq _ hend => ?_⟩
  rw [lift_run] at hx ⊢
  obtain ⟨-, rfl⟩ := Prod.mk.inj hx
  have hb : s.Bounded w := hend.elim ho.bounded fun ⟨he, _⟩ =>
    he.bounded_of_ne_nil (after_ne_nil he.eof_kind h)
  have hlen := length_after_within s w
  have := synchronizeWithin_run (m := (s.within w).after.length + 1) (by omega) hb rfl hq
    (hend.imp_right And.left)
  rw [show synchronize.run (s.within w) = _ from this]
  rfl

end Parser

end CommandModules

/-
  Command modules — what a value says of the tokens it was read from.

  * `ParserState.Takes ts s s'`: from `s` a parser has taken the tokens `ts` and has
    come to `s'`;
  * `ParserState.Spelt`: each stretch of the tokens is spelled by the text that it is
    cut from, as it is in a text without errors;
  * `Reader.Gives s p R`: where the reader `p` has recorded no error from `s` on, `R`
    holds of its value, of the tokens that it took and of the state it left;
  * `Parser.Gives` says the same of a parser that succeeds.

  As long as nothing is known of what follows, it is not known either that no error
  is recorded; so `R` is known behind a continuation only, in what holds of it.
-/
import CommandModules.Proofs.Safe.Unit

namespace CommandModules

open ParserState Text

/-! ## Tokens taken -/

namespace ParserState

/-- From `s` a parser has taken the tokens `ts` and has come to `s'`. -/
structure Takes (ts : List Token) (s s' : ParserState) : Prop where
  moves : Moves ts.length s s'
  after_eq : s.after = ts ++ s'.after
  before_eq : s'.before = ts.reverse ++ s.before

theorem Moves.takes {k : Nat} {s s' : ParserState} (h : Moves k s s') :
    ∃ ts, ts.length = k ∧ Takes ts s s' := by
  obtain ⟨ts, rfl, ha, hb⟩ := h.tokens_eq
  exact ⟨ts, rfl, h, ha, hb⟩

/-- Is each stretch of the tokens spelled by the text that it is cut from? -/
def Spelt (s : ParserState) : Prop :=
  ∀ as bs cs t u, s.before.reverse ++ s.after = as ++ (bs ++ cs) → bs.head? = some t →
    bs.getLast? = some u → ∃ text,
      between? t.span.offset u.span.stop s.source = some text ∧ Spells text (erase bs)

namespace Takes

variable {ts us : List Token} {s s' s'' : ParserState}

theorem refl (s : ParserState) : Takes [] s s :=
  ⟨.refl s, rfl, rfl⟩

theorem trans (h : Takes ts s s') (h' : Takes us s' s'') : Takes (ts ++ us) s s'' where
  moves := by
    rw [List.length_append]
    exact h.moves.trans h'.moves
  after_eq := by rw [h.after_eq, h'.after_eq, List.append_assoc]
  before_eq := by rw [h'.before_eq, h.before_eq, List.reverse_append, List.append_assoc]

theorem good {source : List Char} (h : Takes ts s s') (hs : s.Good source) : s'.Good source :=
  h.moves.good hs

theorem spelt (h : Takes ts s s') (hs : s.Spelt) : s'.Spelt := by
  intro as bs cs t u htokens
  rw [h.moves.source_eq]
  refine hs as bs cs t u ?_
  rw [← htokens, h.after_eq, h.before_eq]
  simp

theorem errors_eq_nil (h : Takes ts s s') (he : s'.errors = []) : s.errors = [] := by
  obtain ⟨es, heq, -⟩ := h.moves.errors_eq
  rw [heq] at he
  exact (List.append_eq_nil_iff.1 he).1

end Takes

end ParserState

/-! ## Readers -/

variable {α β σ : Type} {source : List Char} {s : ParserState}

/-- If `p` records no error from the state `s` on, then `R` holds of its value, of the
    tokens that it takes and of the state it leaves. -/
def Reader.Gives (source : List Char) (s : ParserState) (p : Reader α)
    (R : α → List Token → ParserState → Prop) : Prop :=
  s.Good source → s.Spelt → ∃ ts, Takes ts s (p.run s).2 ∧
    ((p.run s).2.errors = [] → R (p.run s).1 ts (p.run s).2)

namespace Reader.Gives

variable {p : Reader α} {f : α → Reader β} {R R' : α → List Token → ParserState → Prop}
  {T : β → List Token → ParserState → Prop}

theorem pure {a : α} (h : R a [] s) : Gives source s (Pure.pure a) R :=
  fun _ _ => ⟨[], .refl s, fun _ => h⟩

theorem mono (h : Gives source s p R) (hR : ∀ a ts s', R a ts s' → R' a ts s') :
    Gives source s p R' :=
  fun hs hsp => (h hs hsp).imp fun _ ht => ⟨ht.1, fun he => hR _ _ _ (ht.2 he)⟩

/-- What follows `p` is only asked about where `p` ends. -/
theorem bind_run (h : Gives source s p R)
    (hf : ∀ ts, Takes ts s (p.run s).2 → Gives source (p.run s).2 (f (p.run s).1) fun b us s'' =>
      R (p.run s).1 ts (p.run s).2 → T b (ts ++ us) s'') :
    Gives source s (p >>= f) T := by
  intro hs hsp
  obtain ⟨ts, ht, ha⟩ := h hs hsp
  obtain ⟨us, hu, hb⟩ := hf ts ht (ht.good hs) (ht.spelt hsp)
  exact ⟨ts ++ us, ht.trans hu, fun he => hb he (ha (hu.errors_eq_nil he))⟩

theorem bind (h : Gives source s p R)
    (hf : ∀ a ts s', Takes ts s s' → Gives source s' (f a) fun b us s'' =>
      R a ts s' → T b (ts ++ us) s'') :
    Gives source s (p >>= f) T :=
  h.bind_run fun ts => hf _ ts _

theorem get {f : ParserState → Reader β} (h : s.Good source → s.Spelt → Gives source s (f s) T) :
    Gives source s (MonadState.get >>= f) T :=
  fun hs hsp => h hs hsp hs hsp

/-- The continuation may use what is known without regard to errors. -/
theorem bind_safe {R₀ : α → Nat → Prop} (hp : Safe source s p R₀) (h : Gives source s p R)
    (hf : ∀ a ts s', Takes ts s s' → R₀ a ts.length → Gives source s' (f a) fun b us s'' =>
      R a ts s' → T b (ts ++ us) s'') :
    Gives source s (p >>= f) T := by
  intro hs hsp
  obtain ⟨k, hk, hr⟩ := hp hs
  have hlen := hk.length_after
  refine h.bind_run (fun ts ht => hf _ ts _ ht ?_) hs hsp
  have := ht.moves.length_after
  obtain rfl : k = ts.length := by omega
  exact hr

/-- What is known without regard to errors. -/
theorem of_safe {R : α → Nat → Prop} (h : Safe source s p R) :
    Gives source s p fun a ts _ => R a ts.length := by
  intro hs _
  obtain ⟨k, hk, ha⟩ := h hs
  obtain ⟨ts, rfl, ht⟩ := hk.takes
  exact ⟨ts, ht, fun _ => ha⟩

/-- Where an error is recorded already, nothing is asked. -/
theorem of_errors {R₀ : α → Nat → Prop} (hp : Safe source s p R₀) (he : s.errors ≠ []) :
    Gives source s p R := fun hs hsp =>
  (of_safe hp hs hsp).imp fun _ ht => ⟨ht.1, fun h => absurd (ht.1.errors_eq_nil h) he⟩

/-- Nothing but safety is asked of `p`. -/
theorem pass {R₀ : α → Nat → Prop} (hp : Safe source s p R₀)
    (hf : ∀ a ts s', Takes ts s s' → Gives source s' (f a) fun b us s'' => T b (ts ++ us) s'') :
    Gives source s (p >>= f) T :=
  (of_safe hp).bind fun a ts s' ht => (hf a ts s' ht).mono fun _ _ _ hb _ => hb

/-- The continuation `f` behind the branches of a choice. -/
theorem join {c : Prop} [Decidable c] {q : Reader α} (hp : c → Gives source s p R)
    (hq : ¬ c → Gives source s q R)
    (hf : ∀ a ts s', Takes ts s s' → Gives source s' (f a) fun b us s'' =>
      R a ts s' → T b (ts ++ us) s'') :
    Gives source s (have next := f; if c then p >>= next else q >>= next) T := by
  dsimp only
  split
  · exact (hp ‹_›).bind hf
  · exact (hq ‹_›).bind hf

theorem map {g : α → β} (h : Gives source s p fun a ts s' => T (g a) ts s') :
    Gives source s (g <$> p) T :=
  h

theorem discard {R : List Token → ParserState → Prop} (h : Gives source s p fun _ ts s' => R ts s') :
    Gives source s (Functor.discard p) fun _ ts s' => R ts s' :=
  h

end Reader.Gives

/-! ## Parsers -/

/-- `R` holds if a value was handed back. -/
def Given (R : α → List Token → ParserState → Prop) :
    Except ParseError α → List Token → ParserState → Prop
  | .ok a, ts, s' => R a ts s'
  | .error _, _, _ => True

/-- If `p` succeeds and records no error from the state `s` on, then `R` holds of its
    value, of the tokens that it takes and of the state it leaves. -/
def Parser.Gives (source : List Char) (s : ParserState) (p : Parser α)
    (R : α → List Token → ParserState → Prop) : Prop :=
  Reader.Gives source s p.run (Given R)

namespace Parser.Gives

variable {p : Parser α} {f : α → Parser β} {R R' : α → List Token → ParserState → Prop}
  {T : β → List Token → ParserState → Prop}

/-- The tokens may be taken to be those of the text. -/
theorem good (h : s.Good source → Gives source s p R) : Gives source s p R :=
  fun hs => h hs hs

theorem pure {a : α} (h : R a [] s) : Gives source s (Pure.pure a) R :=
  fun _ _ => ⟨[], .refl s, fun _ => h⟩

theorem throw {e : ParseError} : Gives source s (throw e : Parser α) R :=
  fun _ _ => ⟨[], .refl s, fun _ => ⟨⟩⟩

theorem mono (h : Gives source s p R) (hR : ∀ a ts s', R a ts s' → R' a ts s') :
    Gives source s p R' :=
  Reader.Gives.mono h fun r ts s' hr => by
    cases r with
    | ok a => exact hR a ts s' hr
    | error => exact ⟨⟩

theorem bind (h : Gives source s p R)
    (hf : ∀ a ts s', Takes ts s s' → Gives source s' (f a) fun b us s'' =>
      R a ts s' → T b (ts ++ us) s'') :
    Gives source s (p >>= f) T := by
  rw [Gives, ExceptT.run_bind]
  refine Reader.Gives.bind (R := Given R) h fun r ts s' ht => ?_
  cases r with
  | ok a =>
    refine Reader.Gives.mono (hf a ts s' ht) fun r us s'' hr ha => ?_
    cases r with
    | ok b => exact hr ha
    | error => exact ⟨⟩
  | error e => exact Reader.Gives.pure fun _ => ⟨⟩

theorem get {f : ParserState → Parser β} (h : s.Good source → s.Spelt → Gives source s (f s) T) :
    Gives source s (MonadState.get >>= f) T :=
  fun hs hsp => h hs hsp hs hsp

/-- The continuation may use what is known without regard to errors. -/
theorem bind_safe {R₀ : α → Nat → Prop} (hp : Safe source s p R₀) (h : Gives source s p R)
    (hf : ∀ a ts s', Takes ts s s' → R₀ a ts.length → Gives source s' (f a) fun b us s'' =>
      R a ts s' → T b (ts ++ us) s'') :
    Gives source s (p >>= f) T := by
  rw [Gives, ExceptT.run_bind]
  intro hs hsp
  obtain ⟨k, hk, hr⟩ := hp hs
  have hlen := hk.length_after
  revert hs hsp
  refine Reader.Gives.bind_run (R := Given R) h fun ts ht => ?_
  have hts : ts.length = k := by
    have := ht.moves.length_after
    omega
  subst hts
  revert ht
  generalize (p.run.run s).1 = r at hr ⊢
  intro ht
  cases r with
  | ok a =>
    refine Reader.Gives.mono (hf a ts _ ht hr) fun r us s'' hr ha => ?_
    cases r with
    | ok b => exact hr ha
    | error => exact ⟨⟩
  | error e => exact Reader.Gives.pure fun _ => ⟨⟩

/-- What is known without regard to errors. -/
theorem of_safe {R : α → Nat → Prop} (h : Safe source s p R) :
    Gives source s p fun a ts _ => R a ts.length :=
  Reader.Gives.mono (Reader.Gives.of_safe h) fun r ts s' hr => by
    cases r with
    | ok a => exact hr
    | error => exact ⟨⟩

/-- What is known without regard to errors is known besides. -/
theorem and_safe {R₀ : α → Nat → Prop} (h : Gives source s p R) (hp : Safe source s p R₀) :
    Gives source s p fun a ts s' => R a ts s' ∧ R₀ a ts.length := by
  intro hs hsp
  obtain ⟨ts, ht, hr⟩ := h hs hsp
  obtain ⟨us, hu, hr₀⟩ := of_safe hp hs hsp
  obtain rfl : us = ts := List.append_cancel_right (hu.after_eq.symm.trans ht.after_eq)
  refine ⟨us, ht, fun he => ?_⟩
  have hr := hr he
  have hr₀ := hr₀ he
  generalize (p.run.run s).1 = r at hr hr₀ ⊢
  cases r with
  | ok a => exact ⟨hr, hr₀⟩
  | error => exact ⟨⟩

/-- Nothing but safety is asked of `p`. -/
theorem pass {R₀ : α → Nat → Prop} (hp : Safe source s p R₀)
    (hf : ∀ a ts s', Takes ts s s' → Gives source s' (f a) fun b us s'' => T b (ts ++ us) s'') :
    Gives source s (p >>= f) T :=
  (of_safe hp).bind fun a ts s' ht => (hf a ts s' ht).mono fun _ _ _ hb _ => hb

/-- A reader of which nothing but safety is asked, and then the parser `f`. -/
theorem passReader {p : Reader α} {R₀ : α → Nat → Prop} (hp : Reader.Safe source s p R₀)
    (hf : ∀ a ts s', Takes ts s s' → Gives source s' (f a) fun b us s'' => T b (ts ++ us) s'') :
    Gives source s (liftM p >>= f) T :=
  pass (.lift hp) hf

theorem ite {c : Prop} [Decidable c] {q : Parser α} (hp : c → Gives source s p R)
    (hq : ¬ c → Gives source s q R) : Gives source s (if c then p else q) R := by
  split
  · exact hp ‹_›
  · exact hq ‹_›

/-- The continuation `f` behind the branches of a choice. -/
theorem join {c : Prop} [Decidable c] {q : Parser α} (hp : c → Gives source s p R)
    (hq : ¬ c → Gives source s q R)
    (hf : ∀ a ts s', Takes ts s s' → Gives source s' (f a) fun b us s'' =>
      R a ts s' → T b (ts ++ us) s'') :
    Gives source s (have next := f; if c then p >>= next else q >>= next) T := by
  dsimp only
  split
  · exact (hp ‹_›).bind hf
  · exact (hq ‹_›).bind hf

theorem lift {p : Reader α} (h : Reader.Gives source s p R) :
    Gives source s (liftM p : Parser α) R :=
  h

/-- A reader and then the parser `f` of its value. -/
theorem andThen {p : Reader α} (h : Reader.Gives source s p R)
    (hf : ∀ a ts s', Takes ts s s' → Gives source s' (f a) fun b us s'' =>
      R a ts s' → T b (ts ++ us) s'') :
    Gives source s (liftM p >>= f) T :=
  (lift h).bind hf

theorem map {g : α → β} (h : Gives source s p fun a ts s' => T (g a) ts s') :
    Gives source s (g <$> p) T := by
  rw [Gives, ExceptT.run_map]
  refine Reader.Gives.map (Reader.Gives.mono h fun r ts s' hr => ?_)
  cases r <;> exact hr

theorem discard {R : List Token → ParserState → Prop} (h : Gives source s p fun _ ts s' => R ts s') :
    Gives source s (Functor.discard p) fun _ ts s' => R ts s' :=
  map h

end Parser.Gives

/-! ## Values -/

/-- Whatever `p` hands back, `Q` holds of it. -/
def Parser.Returns (p : Parser α) (Q : α → Prop) : Prop :=
  ∀ s a, (p.run.run s).1 = .ok a → Q a

namespace Parser.Returns

variable {p : Parser α} {f : α → Parser β} {Q : β → Prop}

theorem pure {b : β} (h : Q b) : Returns (Pure.pure b) Q := by
  intro s a ha
  cases ha
  exact h

/-- Only what is handed back last counts. -/
theorem bind (h : ∀ a, Returns (f a) Q) : Returns (p >>= f) Q := by
  intro s b hb
  rw [ExceptT.run_bind, StateT.run_bind] at hb
  generalize p.run.run s = x at hb
  obtain ⟨r, s'⟩ := x
  cases r with
  | ok a => exact h a s' b hb
  | error e => cases hb

theorem gives {R : β → Nat → Prop} {p : Parser β} (hs : Safe source s p R) (h : Returns p Q) :
    Gives source s p fun b _ _ => Q b := by
  intro hg _
  obtain ⟨k, hk, -⟩ := hs hg
  obtain ⟨ts, -, ht⟩ := hk.takes
  refine ⟨ts, ht, fun _ => ?_⟩
  cases hr : (p.run.run s).1 with
  | ok b => exact h s b hr
  | error => exact ⟨⟩

end Parser.Returns

/-! ## Loops -/

/-- Behind a round: if the loop goes on, `I` holds, and if it ends, `R`. -/
def Round.Leads (I : σ → List Token → ParserState → Prop) (R : α → List Token → ParserState → Prop) :
    Round σ α → List Token → ParserState → Prop
  | .next x => I x
  | .done a => R a

section
variable {I : σ → List Token → ParserState → Prop} {R : α → List Token → ParserState → Prop}

section
variable {J : σ → Nat → Prop} {T : α → Nat → Prop}

theorem Parser.loopWithin_gives [Inhabited α] {round : σ → Reader (Round σ α)}
    (hc : ∀ x k s', Moves k s s' → J x k → Reader.Safe source s' (round x) (Round.Holds J T k))
    (h : ∀ x ts s', Takes ts s s' → J x ts.length → Reader.Gives source s' (round x) fun r us s'' =>
      I x ts s' → r.Leads I R (ts ++ us) s'')
    {fuel : Nat} {x : σ} {ts : List Token} {s' : ParserState} (ht : Takes ts s s')
    (hj : J x ts.length) (hf : s'.after.length < fuel) :
    Reader.Gives source s' (loopWithin round fuel x) fun a us s'' =>
      I x ts s' → R a (ts ++ us) s'' := by
  induction fuel generalizing s' ts x with
  | zero => omega
  | succ fuel ih =>
    rw [loopWithin]
    refine .get fun hs _ => ?_
    obtain ⟨k, hk, hround⟩ := hc x _ s' ht.moves hj hs
    have hlen := hk.length_after
    refine Reader.Gives.bind_run (h x ts s' ht hj) fun us hu => ?_
    have hus := hu.moves.length_after
    have ht' := ht.trans hu
    revert hu hus ht'
    generalize ((round x).run s').1 = r at hround ⊢
    intro hu hus ht'
    cases r with
    | done a => exact .pure fun hr hx => by rw [List.append_nil]; exact hr hx
    | next y =>
      obtain ⟨hy, hpos⟩ := hround
      obtain rfl : us.length = k := by omega
      refine .get fun _ _ => ?_
      rw [if_pos (by omega)]
      refine (ih ht' (List.length_append ▸ hy) (by omega)).mono fun a vs s'' hr hnext hx => ?_
      rw [← List.append_assoc]
      exact hr (hnext hx)

/-- **What a loop gives**: each round keeps `J`, whether an error is recorded or not, and
    consumes a token if another one follows; and as long as none is recorded, each round
    keeps `I`, and the last one gives `R`. -/
theorem Reader.Gives.loop_safe [Inhabited α] {round : σ → Reader (Round σ α)} {x : σ} (hj : J x 0)
    (hc : ∀ x k s', Moves k s s' → J x k → Reader.Safe source s' (round x) (Round.Holds J T k))
    (hx : I x [] s)
    (h : ∀ x ts s', Takes ts s s' → J x ts.length → Reader.Gives source s' (round x) fun r us s'' =>
      I x ts s' → r.Leads I R (ts ++ us) s'') :
    Reader.Gives source s (Parser.loop round x) R :=
  .get fun _ _ => (Parser.loopWithin_gives hc h (.refl s) hj (Nat.lt_succ_self _)).mono
    fun _ _ _ hr => hr hx

theorem Parser.Gives.loop_safe {round : σ → Parser (Round σ α)} {x : σ} (hj : J x 0)
    (hc : ∀ x k s', Moves k s s' → J x k → Parser.Safe source s' (round x) (Round.Holds J T k))
    (hx : I x [] s)
    (h : ∀ x ts s', Takes ts s s' → J x ts.length → Parser.Gives source s' (round x) fun r us s'' =>
      I x ts s' → r.Leads I R (ts ++ us) s'') :
    Parser.Gives source s (loopOrFail round x) R := by
  refine Reader.Gives.loop_safe (J := J) (T := fun _ _ => True) (I := I) (R := Given R) hj
    (fun x k s' hk hj => ?_) hx fun y ts s' ht hj => ?_
  · refine Reader.Safe.bind (hc x k s' hk hj) fun r m s'' _ hr => ?_
    rcases r with e | (y | a)
    exacts [.pure ⟨⟩, .pure hr, .pure ⟨⟩]
  · refine Reader.Gives.bind (h y ts s' ht hj) fun r us s'' _ => ?_
    rcases r with e | (z | a)
    · exact .pure fun _ _ => ⟨⟩
    · exact .pure fun hr hy => by rw [List.append_nil]; exact hr hy
    · exact .pure fun hr hy => by rw [List.append_nil]; exact hr hy

end

/-- A loop of which nothing more is known where an error is recorded. -/
theorem Reader.Gives.loop [Inhabited α] {round : σ → Reader (Round σ α)} {x : σ}
    (hc : ∀ x k s', Moves k s s' → Reader.Safe source s' (round x) Round.Consumes)
    (hx : I x [] s)
    (h : ∀ x ts s', Takes ts s s' → Reader.Gives source s' (round x) fun r us s'' =>
      I x ts s' → r.Leads I R (ts ++ us) s'') :
    Reader.Gives source s (Parser.loop round x) R :=
  .loop_safe (J := fun _ _ => True) ⟨⟩ (fun x k s' hk _ => (hc x k s' hk).mono fun _ _ => (·.holds))
    hx fun x ts s' ht _ => h x ts s' ht

theorem Parser.Gives.loop {round : σ → Parser (Round σ α)} {x : σ}
    (hc : ∀ x k s', Moves k s s' → Parser.Safe source s' (round x) Round.Consumes)
    (hx : I x [] s)
    (h : ∀ x ts s', Takes ts s s' → Parser.Gives source s' (round x) fun r us s'' =>
      I x ts s' → r.Leads I R (ts ++ us) s'') :
    Parser.Gives source s (loopOrFail round x) R :=
  .loop_safe (J := fun _ _ => True) ⟨⟩ (fun x k s' hk _ => (hc x k s' hk).mono fun _ _ => (·.holds))
    hx fun x ts s' ht _ => h x ts s' ht

end

end CommandModules

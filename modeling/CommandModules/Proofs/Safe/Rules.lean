/-
  Command modules — safe readers and parsers.

  * `Reader.Safe source s p R`: from the good state `s` the reader `p` goes ahead
    without an undefined operation; `R` holds of its value and of the number of
    tokens that it consumes;
  * `Parser.Safe source s p R` says the same of a parser that succeeds; if it
    fails, its error lies in the text;
  * both have a rule for each way of composing readers and parsers; `Reader.Safe.loop`
    and `Parser.Safe.loop` are the rules for loops: a round that another one
    follows has to consume a token.
-/
import CommandModules.Proofs.Safe.State

namespace CommandModules

open ParserState

variable {α β σ : Type} {source : List Char} {s : ParserState}

/-! ## Readers -/

/-- From the state `s`, if it is good, `p` goes ahead safely, and `R` holds of its
    value and of the number of tokens consumed. -/
def Reader.Safe (source : List Char) (s : ParserState) (p : Reader α) (R : α → Nat → Prop) : Prop :=
  s.Good source → ∃ k, Moves k s (p.run s).2 ∧ R (p.run s).1 k

namespace Reader.Safe

variable {p : Reader α} {f : α → Reader β} {R R' : α → Nat → Prop} {T : β → Nat → Prop}

theorem pure {a : α} (h : R a 0) : Safe source s (Pure.pure a) R :=
  fun _ => ⟨0, .refl s, h⟩

theorem mono (h : Safe source s p R) (hR : ∀ a k, R a k → R' a k) : Safe source s p R' :=
  fun hs => (h hs).imp fun _ hk => ⟨hk.1, hR _ _ hk.2⟩

theorem bind (h : Safe source s p R)
    (hf : ∀ a k s', Moves k s s' → R a k → Safe source s' (f a) fun b m => T b (k + m)) :
    Safe source s (p >>= f) T := by
  intro hs
  obtain ⟨k, hk, ha⟩ := h hs
  obtain ⟨m, hm, hb⟩ := hf _ k _ hk ha (hk.good hs)
  exact ⟨k + m, hk.trans hm, hb⟩

/-- What follows `p` may go back, but not before `s`. -/
theorem back (h : Safe source s p R)
    (hf : ∀ a k s', Moves k s s' → R a k → ∃ m, Moves m s ((f a).run s').2 ∧ T ((f a).run s').1 m) :
    Safe source s (p >>= f) T := by
  intro hs
  obtain ⟨k, hk, ha⟩ := h hs
  exact hf _ k _ hk ha

theorem get {f : ParserState → Reader β} (h : s.Good source → Safe source s (f s) T) :
    Safe source s (MonadState.get >>= f) T :=
  fun hs => h hs hs

/-- The continuation `f` behind the branches of a choice. -/
theorem join {c : Prop} [Decidable c] {q : Reader α} (hp : c → Safe source s p R)
    (hq : ¬ c → Safe source s q R)
    (hf : ∀ a k s', Moves k s s' → R a k → Safe source s' (f a) fun b m => T b (k + m)) :
    Safe source s (have next := f; if c then p >>= next else q >>= next) T := by
  dsimp only
  split
  · exact (hp ‹_›).bind hf
  · exact (hq ‹_›).bind hf

/-- The continuation `f` behind a step that is taken only if `c` holds. -/
theorem after {c : Prop} [Decidable c] {p : Reader Unit} {f : Unit → Reader β} {R : Nat → Prop}
    (hp : c → Safe source s p fun _ k => R k) (hq : ¬ c → R 0)
    (hf : ∀ k s', Moves k s s' → R k → Safe source s' (f ()) fun b m => T b (k + m)) :
    Safe source s (have next := f; if c then p >>= next else next ()) T :=
  join (q := Pure.pure ()) hp (fun hc => .pure (hq hc)) fun _ => hf

theorem map {g : α → β} (h : Safe source s p fun a k => T (g a) k) : Safe source s (g <$> p) T :=
  h

theorem discard {R : Nat → Prop} (h : Safe source s p fun _ k => R k) :
    Safe source s (Functor.discard p) fun _ k => R k :=
  h

end Reader.Safe

/-! ## Parsers -/

/-- `R` holds if a value was handed back; an error lies in the text. -/
def Outcome (source : List Char) (R : α → Nat → Prop) : Except ParseError α → Nat → Prop
  | .ok a, k => R a k
  | .error e, _ => e.span.Inside source

theorem Outcome.mono {R R' : α → Nat → Prop} {r : Except ParseError α} {k m : Nat}
    (h : Outcome source R r k) (hR : ∀ a, R a k → R' a m) : Outcome source R' r m := by
  cases r with
  | ok a => exact hR a h
  | error => exact h

/-- From the state `s`, if it is good, `p` goes ahead safely; if it succeeds, `R` holds
    of its value and of the number of tokens consumed, and else its error lies in
    the text. -/
def Parser.Safe (source : List Char) (s : ParserState) (p : Parser α) (R : α → Nat → Prop) : Prop :=
  Reader.Safe source s p.run (Outcome source R)

namespace Parser.Safe

variable {p : Parser α} {f : α → Parser β} {R R' : α → Nat → Prop} {T : β → Nat → Prop}

theorem pure {a : α} (h : R a 0) : Safe source s (Pure.pure a) R :=
  fun _ => ⟨0, .refl s, h⟩

theorem throw {e : ParseError} (h : e.span.Inside source) :
    Safe source s (throw e : Parser α) R :=
  fun _ => ⟨0, .refl s, h⟩

theorem mono (h : Safe source s p R) (hR : ∀ a k, R a k → R' a k) : Safe source s p R' :=
  Reader.Safe.mono h fun _ k hr => hr.mono fun a => hR a k

theorem bind (h : Safe source s p R)
    (hf : ∀ a k s', Moves k s s' → R a k → Safe source s' (f a) fun b m => T b (k + m)) :
    Safe source s (p >>= f) T := by
  rw [Safe, ExceptT.run_bind]
  refine Reader.Safe.bind (R := Outcome source R) h fun r k s' hk hr => ?_
  cases r with
  | ok a =>
    refine Reader.Safe.mono (hf a k s' hk hr) fun r m hm => ?_
    exact hm.mono fun _ => id
  | error e => exact Reader.Safe.pure hr

theorem get {f : ParserState → Parser β} (h : s.Good source → Safe source s (f s) T) :
    Safe source s (MonadState.get >>= f) T :=
  fun hs => h hs hs

theorem ite {c : Prop} [Decidable c] {q : Parser α} (hp : c → Safe source s p R)
    (hq : ¬ c → Safe source s q R) : Safe source s (if c then p else q) R := by
  split
  · exact hp ‹_›
  · exact hq ‹_›

/-- The continuation `f` behind the branches of a choice. -/
theorem join {c : Prop} [Decidable c] {q : Parser α} (hp : c → Safe source s p R)
    (hq : ¬ c → Safe source s q R)
    (hf : ∀ a k s', Moves k s s' → R a k → Safe source s' (f a) fun b m => T b (k + m)) :
    Safe source s (have next := f; if c then p >>= next else q >>= next) T := by
  dsimp only
  split
  · exact (hp ‹_›).bind hf
  · exact (hq ‹_›).bind hf

/-- The continuation `f` behind a step that is taken only if `c` holds. -/
theorem after {c : Prop} [Decidable c] {p : Parser Unit} {f : Unit → Parser β} {R : Nat → Prop}
    (hp : c → Safe source s p fun _ k => R k) (hq : ¬ c → R 0)
    (hf : ∀ k s', Moves k s s' → R k → Safe source s' (f ()) fun b m => T b (k + m)) :
    Safe source s (have next := f; if c then p >>= next else next ()) T :=
  join (q := Pure.pure ()) hp (fun hc => .pure (hq hc)) fun _ => hf

theorem lift {p : Reader α} (h : Reader.Safe source s p R) :
    Safe source s (liftM p : Parser α) R :=
  h

/-- A reader and then the parser `f` of its value. -/
theorem andThen {p : Reader α} (h : Reader.Safe source s p R)
    (hf : ∀ a k s', Moves k s s' → R a k → Safe source s' (f a) fun b m => T b (k + m)) :
    Safe source s (liftM p >>= f) T :=
  (lift h).bind hf

theorem map {g : α → β} (h : Safe source s p fun a k => T (g a) k) :
    Safe source s (g <$> p) T := by
  rw [Safe, ExceptT.run_map]
  refine Reader.Safe.map (Reader.Safe.mono h fun r k hr => ?_)
  cases r <;> exact hr

theorem discard {R : Nat → Prop} (h : Safe source s p fun _ k => R k) :
    Safe source s (Functor.discard p) fun _ k => R k :=
  map h

end Parser.Safe

/-! ## Loops -/

/-- Behind a round that began `j` tokens into its loop: the loop goes on only if the
    round has consumed a token, and then `I` holds; if it ends, `R` holds. -/
def Round.Holds (I : σ → Nat → Prop) (R : α → Nat → Prop) (j : Nat) : Round σ α → Nat → Prop
  | .next x, k => I x (j + k) ∧ 0 < k
  | .done a, k => R a (j + k)

/-- The loop goes on only if the round has consumed a token. -/
def Round.Consumes (r : Round σ α) (k : Nat) : Prop :=
  r.Holds (fun _ _ => True) (fun _ _ => True) 0 k

theorem Round.Consumes.holds {j k : Nat} {r : Round σ α} (h : r.Consumes k) :
    r.Holds (fun _ _ => True) (fun _ _ => True) j k := by
  cases r
  exacts [⟨⟨⟩, h.2⟩, ⟨⟩]

namespace Parser

variable {I : σ → Nat → Prop} {R : α → Nat → Prop}

theorem loopWithin_safe [Inhabited α] {round : σ → Reader (Round σ α)} {fuel k : Nat} {x : σ}
    {s' : ParserState} (h : ∀ x k s', Moves k s s' → I x k →
      Reader.Safe source s' (round x) (Round.Holds I R k))
    (hx : I x k) (hk : Moves k s s') (hf : s'.after.length < fuel) :
    Reader.Safe source s' (loopWithin round fuel x) fun a m => R a (k + m) := by
  induction fuel generalizing s' k x with
  | zero => omega
  | succ fuel ih =>
    rw [loopWithin]
    refine .get fun _ => (h x k s' hk hx).bind fun r m s'' hm hr => ?_
    cases r with
    | done a => exact .pure hr
    | next y =>
      obtain ⟨hy, hpos⟩ := hr
      have := hm.length_after
      refine .get fun _ => ?_
      rw [if_pos (by omega)]
      exact (ih hy (hk.trans hm) (by omega)).mono fun a n hn => by rwa [← Nat.add_assoc]

end Parser

/-- **Loops are safe** if each round keeps `I` and consumes a token when another one
    follows. -/
theorem Reader.Safe.loop [Inhabited α] {I : σ → Nat → Prop} {R : α → Nat → Prop}
    {round : σ → Reader (Round σ α)} {x : σ} (hx : I x 0)
    (h : ∀ x k s', Moves k s s' → I x k →
      Reader.Safe source s' (round x) (Round.Holds I R k)) :
    Reader.Safe source s (Parser.loop round x) R :=
  .get fun _ => (Parser.loopWithin_safe h hx (.refl s) (Nat.lt_succ_self _)).mono
    fun _ k hr => by simpa using hr

theorem Reader.Safe.loop_consumes [Inhabited α] {round : σ → Reader (Round σ α)} {x : σ}
    (h : ∀ x k s', Moves k s s' → Reader.Safe source s' (round x) Round.Consumes) :
    Reader.Safe source s (Parser.loop round x) fun _ _ => True :=
  .loop (I := fun _ _ => True) ⟨⟩ fun x k s' hk _ => (h x k s' hk).mono fun _ _ => (·.holds)

theorem Parser.Safe.loop {I : σ → Nat → Prop} {R : α → Nat → Prop}
    {round : σ → Parser (Round σ α)} {x : σ} (hx : I x 0)
    (h : ∀ x k s', Moves k s s' → I x k → Safe source s' (round x) (Round.Holds I R k)) :
    Safe source s (loopOrFail round x) R := by
  refine Reader.Safe.loop (I := I) hx fun y k s' hk hy => ?_
  refine Reader.Safe.bind (h y k s' hk hy) fun r m s'' _ hr => ?_
  rcases r with e | (y | a) <;> exact .pure hr

theorem Parser.Safe.loop_consumes {round : σ → Parser (Round σ α)} {x : σ}
    (h : ∀ x k s', Moves k s s' → Safe source s' (round x) Round.Consumes) :
    Safe source s (loopOrFail round x) fun _ _ => True :=
  .loop (I := fun _ _ => True) ⟨⟩ fun x k s' hk _ => (h x k s' hk).mono fun _ _ => (·.holds)

end CommandModules

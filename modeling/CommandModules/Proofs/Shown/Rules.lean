/-
  Command modules — reading known tokens.

  * `ParserState.Shows s ts`: the tokens ahead of `s` are `ts`, their places aside;
  * `Reader.Passes source s p C R`: from `s` the reader `p` records no error just if `C`
    holds, and then `R` holds of its value and of the state that it leaves;
  * `Parser.Passes` says the same of a parser, which succeeds just if `C` holds;
  * a reader or parser `Accepts` if it passes in any case.

  Only one part of what is read depends on a condition: `bind` is the rule for what
  stands before that part, `bind_left` the one for what stands behind it, where an
  error that is recorded has to stay.
-/
import CommandModules.Proofs.Safe.Unit

namespace CommandModules

open ParserState

/-- The tokens ahead are these, their places aside. -/
def ParserState.Shows (s : ParserState) (ts : List Token) : Prop :=
  erase s.after = ts

variable {α β σ : Type} {source : List Char} {s : ParserState} {C : Prop}

/-! ## Readers -/

/-- From the state `s`, if it is good, `p` records no error just if `C` holds; if it
    does, then `R` holds of its value and of the state it leaves. -/
def Reader.Passes (source : List Char) (s : ParserState) (p : Reader α) (C : Prop)
    (R : α → ParserState → Prop) : Prop :=
  s.Good source → ∃ k, Moves k s (p.run s).2 ∧
    (C → (p.run s).2.errors = s.errors ∧ R (p.run s).1 (p.run s).2) ∧
    (¬ C → (p.run s).2.errors ≠ [])

/-- From the state `s`, if it is good, `p` records no error, and `R` holds of its value
    and of the state it leaves. -/
abbrev Reader.Accepts (source : List Char) (s : ParserState) (p : Reader α)
    (R : α → ParserState → Prop) : Prop :=
  Passes source s p True R

/-- Errors that were recorded stay. -/
theorem ParserState.Moves.errors_ne_nil {k : Nat} {s s' : ParserState} (h : Moves k s s')
    (he : s.errors ≠ []) : s'.errors ≠ [] := by
  obtain ⟨es, heq, -⟩ := h.errors_eq
  rw [heq]
  exact List.append_ne_nil_of_left_ne_nil he es

namespace Reader.Passes

variable {p : Reader α} {f : α → Reader β} {R R' : α → ParserState → Prop}
  {T : β → ParserState → Prop}

theorem pure {a : α} (h : R a s) : Accepts source s (Pure.pure a) R :=
  fun _ => ⟨0, .refl s, fun _ => ⟨rfl, h⟩, fun h => absurd ⟨⟩ h⟩

theorem mono (h : Passes source s p C R) (hR : ∀ a s', R a s' → R' a s') :
    Passes source s p C R' :=
  fun hs => (h hs).imp fun _ hk => ⟨hk.1, fun hC => (hk.2.1 hC).imp_right (hR _ _), hk.2.2⟩

/-- What follows may depend on the tokens that were consumed. -/
theorem bind_moves (h : Accepts source s p R)
    (hf : ∀ a k s', Moves k s s' → R a s' → Passes source s' (f a) C T) :
    Passes source s (p >>= f) C T := by
  intro hs
  obtain ⟨k, hk, ha, -⟩ := h hs
  obtain ⟨he, hR⟩ := ha ⟨⟩
  obtain ⟨m, hm, hb, hn⟩ := hf _ _ _ hk hR (hk.good hs)
  exact ⟨k + m, hk.trans hm, fun hC => ⟨(hb hC).1.trans he, (hb hC).2⟩, hn⟩

theorem bind (h : Accepts source s p R) (hf : ∀ a s', R a s' → Passes source s' (f a) C T) :
    Passes source s (p >>= f) C T :=
  h.bind_moves fun a _ s' _ => hf a s'

/-- The condition is asked of `p`; behind it, errors stay. -/
theorem bind_left_safe {R₀ : α → Nat → Prop} {S : β → Nat → Prop} (hp : Safe source s p R₀)
    (h : Passes source s p C R)
    (hs : ∀ a k s', Moves k s s' → R₀ a k → Safe source s' (f a) S)
    (hf : ∀ a s', R a s' → Accepts source s' (f a) T) : Passes source s (p >>= f) C T := by
  intro hg
  obtain ⟨k, hk, hr⟩ := hp hg
  obtain ⟨-, -, ha, hn⟩ := h hg
  obtain ⟨m, hm, -⟩ := hs (p.run s).1 k _ hk hr (hk.good hg)
  refine ⟨k + m, hk.trans hm, fun hC => ?_, fun hC => hm.errors_ne_nil (hn hC)⟩
  obtain ⟨he, hR⟩ := ha hC
  obtain ⟨-, -, hb, -⟩ := hf _ _ hR (hk.good hg)
  exact ⟨(hb ⟨⟩).1.trans he, (hb ⟨⟩).2⟩

theorem safe (h : Passes source s p C R) : Safe source s p fun _ _ => True :=
  fun hg => (h hg).imp fun _ hk => ⟨hk.1, ⟨⟩⟩

theorem bind_left {S : β → Nat → Prop} (h : Passes source s p C R)
    (hs : ∀ a k s', Moves k s s' → Safe source s' (f a) S)
    (hf : ∀ a s', R a s' → Accepts source s' (f a) T) : Passes source s (p >>= f) C T :=
  bind_left_safe h.safe h (fun a k s' hk _ => hs a k s' hk) hf

theorem get {f : ParserState → Reader β} (h : s.Good source → Passes source s (f s) C T) :
    Passes source s (MonadState.get >>= f) C T :=
  fun hs => h hs hs

theorem discard {R : ParserState → Prop} (h : Passes source s p C fun _ s' => R s') :
    Passes source s (Functor.discard p) C fun _ s' => R s' :=
  h

/-- A reader that is known to be safe, by what it records and leaves. -/
theorem of_safe {S : α → Nat → Prop} (hs : Safe source s p S)
    (h : s.Good source → (p.run s).2.errors = s.errors ∧ R (p.run s).1 (p.run s).2) :
    Accepts source s p R :=
  fun hg => (hs hg).imp fun _ hk => ⟨hk.1, fun _ => h hg, fun h => absurd ⟨⟩ h⟩

end Reader.Passes

/-! ## Parsers -/

/-- From the state `s`, if it is good, `p` succeeds and records no error just if `C`
    holds; if it does, then `R` holds of its value and of the state it leaves. -/
def Parser.Passes (source : List Char) (s : ParserState) (p : Parser α) (C : Prop)
    (R : α → ParserState → Prop) : Prop :=
  s.Good source → ∃ k, Moves k s (p.run.run s).2 ∧
    (C → (p.run.run s).2.errors = s.errors ∧ ∃ a, (p.run.run s).1 = .ok a ∧ R a (p.run.run s).2) ∧
    (¬ C → (p.run.run s).2.errors ≠ [] ∨ ∃ e, (p.run.run s).1 = .error e)

/-- From the state `s`, if it is good, `p` succeeds and records no error, and `R` holds of
    its value and of the state it leaves. -/
abbrev Parser.Accepts (source : List Char) (s : ParserState) (p : Parser α)
    (R : α → ParserState → Prop) : Prop :=
  Passes source s p True R

/-- From the state `s`, if it is good, `p` fails or records an error. -/
abbrev Parser.Rejects (source : List Char) (s : ParserState) (p : Parser α) : Prop :=
  Passes source s p False fun _ _ => True

namespace Parser.Passes

variable {p : Parser α} {f : α → Parser β} {R R' : α → ParserState → Prop}
  {T : β → ParserState → Prop}

theorem pure {a : α} (h : R a s) : Accepts source s (Pure.pure a) R :=
  fun _ => ⟨0, .refl s, fun _ => ⟨rfl, a, rfl, h⟩, fun h => absurd ⟨⟩ h⟩

theorem throw {e : ParseError} : Rejects source s (throw e : Parser α) :=
  fun _ => ⟨0, .refl s, nofun, fun _ => .inr ⟨e, rfl⟩⟩

theorem mono (h : Passes source s p C R) (hR : ∀ a s', R a s' → R' a s') :
    Passes source s p C R' :=
  fun hs => (h hs).imp fun _ hk =>
    ⟨hk.1, fun hC => (hk.2.1 hC).imp_right fun ⟨a, ha, h⟩ => ⟨a, ha, hR a _ h⟩, hk.2.2⟩

theorem of_iff {D : Prop} (h : Passes source s p C R) (hD : D ↔ C) : Passes source s p D R := by
  rwa [propext hD]

/-- Both sides of the condition at once. -/
theorem of_cases (h : C → Accepts source s p R) (h' : ¬ C → Rejects source s p) :
    Passes source s p C R := by
  intro hs
  by_cases hC : C
  · exact ((h hC).of_iff (iff_true_intro hC)) hs
  · obtain ⟨k, hk, -, hn⟩ := h' hC hs
    exact ⟨k, hk, fun h => absurd h hC, fun _ => hn not_false⟩

theorem run_bind_ok {a : α} (h : (p.run.run s).1 = .ok a) :
    (p >>= f).run.run s = (f a).run.run (p.run.run s).2 := by
  rw [ExceptT.run_bind, StateT.run_bind]
  generalize p.run.run s = x at h
  obtain ⟨r, s'⟩ := x
  cases h
  rfl

theorem run_bind_error {e : ParseError} (h : (p.run.run s).1 = .error e) :
    (p >>= f).run.run s = (.error e, (p.run.run s).2) := by
  rw [ExceptT.run_bind, StateT.run_bind]
  generalize p.run.run s = x at h
  obtain ⟨r, s'⟩ := x
  cases h
  rfl

/-- What follows may depend on the tokens that were consumed. -/
theorem bind_moves (h : Accepts source s p R)
    (hf : ∀ a k s', Moves k s s' → R a s' → Passes source s' (f a) C T) :
    Passes source s (p >>= f) C T := by
  intro hs
  obtain ⟨k, hk, ha, -⟩ := h hs
  obtain ⟨he, a, hok, hR⟩ := ha ⟨⟩
  obtain ⟨m, hm, hb, hn⟩ := hf a k _ hk hR (hk.good hs)
  rw [run_bind_ok hok]
  exact ⟨k + m, hk.trans hm, fun hC => ⟨(hb hC).1.trans he, (hb hC).2⟩, hn⟩

theorem bind (h : Accepts source s p R) (hf : ∀ a s', R a s' → Passes source s' (f a) C T) :
    Passes source s (p >>= f) C T :=
  h.bind_moves fun a _ s' _ => hf a s'

/-- The condition is asked of `p`; behind it, errors stay. -/
theorem bind_left_safe {R₀ : α → Nat → Prop} {S : β → Nat → Prop} (hp : Safe source s p R₀)
    (h : Passes source s p C R) (hs : ∀ a k s', Moves k s s' → R₀ a k → Safe source s' (f a) S)
    (hf : ∀ a s', R a s' → Accepts source s' (f a) T) : Passes source s (p >>= f) C T := by
  intro hg
  obtain ⟨k, hk, hr₀⟩ := hp hg
  obtain ⟨-, -, ha, hn⟩ := h hg
  cases hr : (p.run.run s).1 with
  | ok a =>
    rw [hr] at hr₀
    obtain ⟨m, hm, -⟩ := hs a k _ hk hr₀ (hk.good hg)
    rw [run_bind_ok hr]
    refine ⟨k + m, hk.trans hm, fun hC => ?_, fun hC => ?_⟩
    · obtain ⟨he, a', hok, hR⟩ := ha hC
      obtain rfl : a = a' := Except.ok.inj (hr.symm.trans hok)
      obtain ⟨-, -, hb, -⟩ := hf a _ hR (hk.good hg)
      exact ⟨(hb ⟨⟩).1.trans he, (hb ⟨⟩).2⟩
    · refine .inl (hm.errors_ne_nil ((hn hC).resolve_right ?_))
      rintro ⟨e, he⟩
      rw [hr] at he
      cases he
  | error e =>
    rw [run_bind_error hr]
    refine ⟨k, hk, fun hC => ?_, fun _ => .inr ⟨e, rfl⟩⟩
    obtain ⟨-, a, hok, -⟩ := ha hC
    rw [hr] at hok
    cases hok

/-- Nothing but safety is asked of what follows `p` where the condition does not hold. -/
theorem bind_left {R₀ : α → Nat → Prop} {S : β → Nat → Prop} (hp : Safe source s p R₀)
    (h : Passes source s p C R) (hs : ∀ a k s', Moves k s s' → Safe source s' (f a) S)
    (hf : ∀ a s', R a s' → Accepts source s' (f a) T) : Passes source s (p >>= f) C T :=
  bind_left_safe hp h (fun a k s' hk _ => hs a k s' hk) hf

theorem get {f : ParserState → Parser β} (h : s.Good source → Passes source s (f s) C T) :
    Passes source s (MonadState.get >>= f) C T :=
  fun hs => h hs hs

/-- The tokens may be taken to be those of the text. -/
theorem good (h : s.Good source → Passes source s p C R) : Passes source s p C R :=
  fun hs => h hs hs

theorem lift {p : Reader α} (h : Reader.Passes source s p C R) :
    Passes source s (liftM p : Parser α) C R := by
  intro hs
  obtain ⟨k, hk, ha, hn⟩ := h hs
  exact ⟨k, hk, fun hC => ⟨(ha hC).1, _, rfl, (ha hC).2⟩, fun hC => .inl (hn hC)⟩

/-- A reader and then the parser `f` of its value. -/
theorem andThen {p : Reader α} (h : Reader.Accepts source s p R)
    (hf : ∀ a s', R a s' → Passes source s' (f a) C T) :
    Passes source s (liftM p >>= f) C T :=
  (lift h).bind hf

theorem map {g : α → β} (h : Passes source s p C fun a s' => T (g a) s') :
    Passes source s (g <$> p) C T := by
  intro hs
  obtain ⟨k, hk, ha, hn⟩ := h hs
  have hrun : (g <$> p).run.run s = ((p.run.run s).1.map g, (p.run.run s).2) := by
    rw [ExceptT.run_map]
    rfl
  rw [hrun]
  refine ⟨k, hk, fun hC => ?_, fun hC => (hn hC).imp_right ?_⟩
  · obtain ⟨he, a, hok, hR⟩ := ha hC
    exact ⟨he, g a, by rw [hok]; rfl, hR⟩
  · rintro ⟨e, he⟩
    exact ⟨e, by rw [he]; rfl⟩

theorem discard {R : ParserState → Prop} (h : Passes source s p C fun _ s' => R s') :
    Passes source s (Functor.discard p) C fun _ s' => R s' :=
  map h

end Parser.Passes

/-! ## The state behind a reader -/

/-- From `s` a parser can go to `s'`, and records no error on the way. -/
def ParserState.LeadsTo (s s' : ParserState) : Prop :=
  (∃ k, Moves k s s') ∧ s'.errors = s.errors

theorem ParserState.LeadsTo.refl (s : ParserState) : s.LeadsTo s :=
  ⟨⟨0, .refl s⟩, rfl⟩

theorem ParserState.LeadsTo.trans {s s' s'' : ParserState} (h : s.LeadsTo s') (h' : s'.LeadsTo s'') :
    s.LeadsTo s'' := by
  obtain ⟨⟨k, hk⟩, he⟩ := h
  obtain ⟨⟨m, hm⟩, he'⟩ := h'
  exact ⟨⟨k + m, hk.trans hm⟩, he'.trans he⟩

theorem Reader.Passes.leading {p : Reader α} {R : α → ParserState → Prop}
    (h : Accepts source s p R) : Accepts source s p fun a s' => R a s' ∧ s.LeadsTo s' := by
  intro hg
  obtain ⟨k, hk, ha, -⟩ := h hg
  obtain ⟨he, hR⟩ := ha ⟨⟩
  exact ⟨k, hk, fun _ => ⟨he, hR, ⟨k, hk⟩, he⟩, fun h => absurd ⟨⟩ h⟩

theorem Parser.Passes.leading {p : Parser α} {R : α → ParserState → Prop}
    (h : Accepts source s p R) : Accepts source s p fun a s' => R a s' ∧ s.LeadsTo s' := by
  intro hg
  obtain ⟨k, hk, ha, -⟩ := h hg
  obtain ⟨he, a, hok, hR⟩ := ha ⟨⟩
  exact ⟨k, hk, fun _ => ⟨he, a, hok, hR, ⟨k, hk⟩, he⟩, fun h => absurd ⟨⟩ h⟩

/-! ## Recovery -/

theorem orRecover_run_ok {p : Parser α} {a : α} {s' : ParserState}
    (h : p.run.run s = (.ok a, s')) : (Parser.orRecover p).run s = (some a, s') := by
  rw [Parser.orRecover, StateT.run_bind, h]
  rfl

theorem orRecover_run_error {p : Parser α} {e : ParseError} {s' : ParserState}
    (h : p.run.run s = (.error e, s')) : (Parser.orRecover p).run s =
      (Parser.report e >>= fun _ => Parser.synchronize >>= fun _ => Pure.pure none).run s' := by
  rw [Parser.orRecover, StateT.run_bind, h]
  rfl

/-- What is read passes if the error of a parser that fails is recorded. -/
theorem Parser.Passes.orRecover {p : Parser α} {R : α → ParserState → Prop} {S : α → Nat → Prop}
    (hs : Safe source s p S) (h : Passes source s p C R) :
    Reader.Passes source s (Parser.orRecover p) C fun a? s' => ∃ a, a? = some a ∧ R a s' := by
  intro hg
  obtain ⟨k, hk, -⟩ := orRecover_safe hs hg
  refine ⟨k, hk, ?_⟩
  obtain ⟨m, hm, ha, hn⟩ := h hg
  obtain ⟨m', hm', hin⟩ := hs hg
  rcases hrun : p.run.run s with ⟨r, s'⟩
  rw [hrun] at hm ha hn hm' hin
  cases r with
  | ok a =>
    rw [orRecover_run_ok hrun]
    refine ⟨fun hC => ?_, fun hC => (hn hC).resolve_right nofun⟩
    obtain ⟨he, b, hb, hR⟩ := ha hC
    exact ⟨he, b, congrArg some (Except.ok.inj hb), hR⟩
  | error e =>
    rw [orRecover_run_error hrun]
    refine ⟨fun hC => ?_, fun _ => ?_⟩
    · obtain ⟨-, b, hb, -⟩ := ha hC
      cases hb
    · obtain ⟨j, hj, -⟩ := report_safe hin (hm.good hg)
      obtain ⟨l, hl, -⟩ := synchronize_safe (hj.good (hm.good hg))
      exact hl.errors_ne_nil (List.append_ne_nil_of_right_ne_nil s'.errors (by simp))

/-! ## Loops -/

/-- Behind a round: if the loop goes on, `I` holds and less than `n` tokens are ahead, and
    if it ends, `R` holds. -/
def Round.Leaves (I : σ → ParserState → Prop) (R : α → ParserState → Prop) (n : Nat) :
    Round σ α → ParserState → Prop
  | .next x, s => I x s ∧ s.after.length < n
  | .done a, s => R a s

section
variable {I : σ → ParserState → Prop} {R : α → ParserState → Prop}

theorem Parser.loopWithin_accepts [Inhabited α] {round : σ → Reader (Round σ α)}
    (h : ∀ x s', I x s' → Reader.Accepts source s' (round x) (Round.Leaves I R s'.after.length))
    {fuel : Nat} {x : σ} (hx : I x s) (hf : s.after.length < fuel) :
    Reader.Accepts source s (loopWithin round fuel x) R := by
  induction fuel generalizing s x with
  | zero => omega
  | succ fuel ih =>
    refine .get fun _ => (h x s hx).bind fun r s' hr => ?_
    cases r with
    | done a => exact .pure hr
    | next y =>
      obtain ⟨hy, hlen⟩ := hr
      refine .get fun _ => ?_
      rw [if_pos hlen]
      exact ih hy (by omega)

/-- **A loop passes** if each round keeps `I` and consumes a token when another one
    follows. -/
theorem Reader.Passes.loop [Inhabited α] {round : σ → Reader (Round σ α)} {x : σ} (hx : I x s)
    (h : ∀ x s', I x s' → Accepts source s' (round x) (Round.Leaves I R s'.after.length)) :
    Accepts source s (Parser.loop round x) R :=
  .get fun _ => Parser.loopWithin_accepts h hx (Nat.lt_succ_self _)

/-- The condition is asked of the first round. -/
theorem Reader.Passes.loop_first [Inhabited α] {round : σ → Reader (Round σ α)} {x : σ}
    (hs : ∀ x k s', Moves k s s' → Safe source s' (round x) Round.Consumes)
    (hx : Passes source s (round x) C fun r s' => ∃ y, r = .next y ∧ I y s' ∧
      s'.after.length < s.after.length)
    (h : ∀ x s', I x s' → Accepts source s' (round x) (Round.Leaves I R s'.after.length)) :
    Passes source s (Parser.loop round x) C R := by
  refine .get fun _ => ?_
  show Passes source s (Parser.loopWithin round (s.after.length + 1) x) C R
  rw [Parser.loopWithin]
  refine .get fun _ => .bind_left_safe (S := fun _ _ => True) (hs x 0 s (.refl s)) hx
    (fun r k s' hk hr => ?_) fun r s' hr => ?_
  · cases r with
    | done a => exact .pure ⟨⟩
    | next y =>
      have hpos : 0 < k := hr.2
      have := hk.length_after
      refine .get fun _ => ?_
      rw [if_pos (by omega)]
      refine (Parser.loopWithin_safe (I := fun _ _ => True) (R := fun _ _ => True)
        (fun z m s'' hm _ => (hs z _ s'' (hk.trans hm)).mono fun r j hj => ?_) ⟨⟩ (.refl s')
        (by omega)).mono fun _ _ _ => ⟨⟩
      cases r
      exacts [⟨⟨⟩, hj.2⟩, ⟨⟩]
  · obtain ⟨y, rfl, hy, hlen⟩ := hr
    refine .get fun _ => ?_
    rw [if_pos hlen]
    exact Parser.loopWithin_accepts h hy hlen

theorem Parser.Passes.run {p : Parser α} {T : α → ParserState → Prop}
    (h : Accepts source s p T) :
    Reader.Accepts source s p.run fun r s' => ∃ a, r = .ok a ∧ T a s' :=
  fun hs => (h hs).imp fun _ hk => ⟨hk.1, hk.2.1, fun h => absurd ⟨⟩ h⟩

theorem Parser.Passes.of_run {p : Reader (Except ParseError α)} {T : α → ParserState → Prop}
    (h : Reader.Accepts source s p fun r s' => ∃ a, r = .ok a ∧ T a s') :
    Accepts source s (ExceptT.mk p) T :=
  fun hs => (h hs).imp fun _ hk => ⟨hk.1, hk.2.1, fun h => absurd ⟨⟩ h⟩

theorem Parser.Passes.loop {round : σ → Parser (Round σ α)} {x : σ} (hx : I x s)
    (h : ∀ x s', I x s' → Accepts source s' (round x) (Round.Leaves I R s'.after.length)) :
    Accepts source s (loopOrFail round x) R := by
  refine .of_run (.loop (I := I) hx fun y s' hy => (h y s' hy).run.bind fun r s'' hr => ?_)
  obtain ⟨r, rfl, hr⟩ := hr
  cases r with
  | next z => exact .pure hr
  | done a => exact .pure ⟨a, rfl, hr⟩

end

/-! ## Failing at once -/

/-- From the state `s`, if it is good, `p` fails and leaves the state as it is. -/
def Parser.Fails (source : List Char) (s : ParserState) (p : Parser α) : Prop :=
  s.Good source → ∃ e, p.run.run s = (.error e, s)

namespace Parser.Fails

variable {p : Parser α} {f : α → Parser β}

theorem get {f : ParserState → Parser β} (h : Fails source s (f s)) :
    Fails source s (MonadState.get >>= f) :=
  h

theorem bind (h : Fails source s p) : Fails source s (p >>= f) := by
  intro hs
  obtain ⟨e, he⟩ := h hs
  refine ⟨e, ?_⟩
  rw [Passes.run_bind_error (congrArg Prod.fst he), he]

theorem discard (h : Fails source s p) : Fails source s (Functor.discard p) := by
  intro hs
  obtain ⟨e, he⟩ := h hs
  refine ⟨e, ?_⟩
  show (Functor.map (fun _ => PUnit.unit) p).run.run s = _
  rw [ExceptT.run_map, StateT.run_map, he]
  rfl

/-- What stands before may do nothing. -/
theorem after {a : α} (hp : p.run.run s = (.ok a, s)) (h : Fails source s (f a)) :
    Fails source s (p >>= f) := by
  intro hs
  obtain ⟨e, he⟩ := h hs
  refine ⟨e, ?_⟩
  rw [Passes.run_bind_ok (congrArg Prod.fst hp), hp]
  exact he

theorem loop {round : σ → Parser (Round σ α)} {x : σ} (h : Fails source s (round x)) :
    Fails source s (loopOrFail round x) := by
  intro hs
  obtain ⟨e, he⟩ := h hs
  have hround : (tryRound round x).run s = (.done (.error e), s) := by
    rw [tryRound, StateT.run_bind, he]
    rfl
  refine ⟨e, ?_⟩
  show (loopWithin (tryRound round) (s.after.length + 1) x).run s = _
  rw [loopWithin, StateT.run_bind, StateT.run_get, pure_bind, StateT.run_bind, hround]
  rfl

theorem rejects (h : Fails source s p) : Rejects source s p := by
  intro hs
  obtain ⟨e, he⟩ := h hs
  rw [he]
  exact ⟨0, .refl s, nofun, fun _ => .inr ⟨e, rfl⟩⟩

end Parser.Fails

end CommandModules

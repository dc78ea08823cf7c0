/-
  Command modules — readers that do the same in a longer text.

  * `Reader.Carries w r k s p q`: if `p` records nothing from `s` on, and its tokens do not end
    where it does, then `q` does in the longer text what `p` does, in a later place;
  * `Parser.Carries w r k s p q` says it of parsers that succeed;
  * if `r` is set, the token before `s` is relied on; if `k` is set, no token is consumed that
    ends a declaration, and failing is carried over as well: such readers can look ahead;
  * both have a rule for each way of composing readers and parsers.
-/
import CommandModules.Proofs.Joined.Frame

namespace CommandModules

variable {α β σ : Type} {w : Frame} {r k : Bool} {s : ParserState}

/-- How a reader goes on. -/
theorem Reader.run_bind (p : Reader α) (f : α → Reader β) (s : ParserState) :
    (p >>= f).run s = (f (p.run s).1).run (p.run s).2 :=
  rfl

theorem Reader.run_get (s : ParserState) : (get : Reader ParserState).run s = (s, s) :=
  rfl

/-- How a parser goes on. -/
theorem Parser.run_bind (p : Parser α) (f : α → Parser β) (s : ParserState) :
    (p >>= f).run.run s = match p.run.run s with
      | (.ok a, s') => (f a).run.run s'
      | (.error e, s') => (.error e, s') := by
  show (ExceptT.bindCont f (p.run.run s).1).run (p.run.run s).2 = _
  rcases p.run.run s with ⟨_ | _, _⟩ <;> rfl

/-- A reader as a parser. -/
theorem Parser.lift_run (p : Reader α) (s : ParserState) :
    (liftM p : Parser α).run.run s = (.ok (p.run s).1, (p.run s).2) :=
  rfl

/-- How a loop goes on. -/
theorem Parser.loopWithin_run [Inhabited α] (round : σ → Reader (Round σ α)) (n : Nat) (x : σ)
    (s : ParserState) : (loopWithin round (n + 1) x).run s = match (round x).run s with
      | (.done a, s') => (a, s')
      | (.next y, s') =>
        (if s'.after.length < s.after.length then loopWithin round n y else stall : Reader α).run s' := by
  rw [loopWithin, StateT.run_bind]
  show StateT.run (round x >>= _) s = _
  rw [StateT.run_bind]
  rcases (round x).run s with ⟨_ | _, _⟩ <;> rfl

/-! ## Readers -/

section
variable [Shift α] [Shift β] [Shift σ]

/-- What `p` does from `s` on, `q` does in the longer text, if nothing is recorded and the value
    is `good`. -/
structure Reader.CarriesIf (good : α → Prop) (w : Frame) (r k : Bool) (s : ParserState)
    (p q : Reader α) : Prop where
  onward : s.Onward (p.run s).2
  keeps : k = true → s.Bounded w → (p.run s).2.Bounded w
  same : s.Quiet (p.run s).2 → (r = true → s.Ready w) → (p.run s).2.Bounded w →
    good (p.run s).1 → q.run (s.within w) = (shift w.distance (p.run s).1, (p.run s).2.within w)

/-- What `p` does from `s` on, `q` does in the longer text, if nothing is recorded. -/
abbrev Reader.Carries (w : Frame) (r k : Bool) (s : ParserState) (p q : Reader α) : Prop :=
  Reader.CarriesIf (fun _ => True) w r k s p q

/-- What `p` does from `s` on, `q` does in the longer text, if nothing is recorded and `p`
    succeeds; if `k` is set, also if it fails. -/
def Parser.Carries (w : Frame) (r k : Bool) (s : ParserState) (p q : Parser α) : Prop :=
  Reader.CarriesIf (fun x => k = true ∨ x.isOk = true) w r k s p.run q.run

namespace Reader.CarriesIf

variable {good : α → Prop} {p q p' q' : Reader α} {f g : α → Reader β}

theorem pureAt {a b : α} (h : (r = true → s.Ready w) → s.Bounded w → b = shift w.distance a) :
    CarriesIf good w r k s (Pure.pure a) (Pure.pure b) :=
  ⟨.refl s, fun _ hb => hb, fun _ hr hb _ => congrArg (·, s.within w) (h hr hb)⟩

theorem pure {a b : α} (h : b = shift w.distance a) :
    CarriesIf good w r k s (Pure.pure a) (Pure.pure b) :=
  .pureAt fun _ _ => h

theorem mono {good' : α → Prop} (h : CarriesIf good w r k s p q) (hg : ∀ a, good' a → good a) :
    CarriesIf good' w r k s p q :=
  ⟨h.onward, h.keeps, fun hq hr hb hgood => h.same hq hr hb (hg _ hgood)⟩

/-- In the longer text another reader may do the same. -/
theorem congr (h : CarriesIf good w r k s p q)
    (hq : (r = true → s.Ready w) → s.Bounded w → q' = q) : CarriesIf good w r k s p q' := by
  refine ⟨h.onward, h.keeps, fun hquiet hr hb hg => ?_⟩
  rw [hq hr (h.onward.bounded hb)]
  exact h.same hquiet hr hb hg

/-- Where something is recorded, nothing has to be carried over. -/
theorem of_recorded (ho : s.Onward (p.run s).2) (hk : k = true → s.Bounded w → (p.run s).2.Bounded w)
    (h : ¬ s.Quiet (p.run s).2) : CarriesIf good w r k s p q :=
  ⟨ho, hk, fun hq => absurd hq h⟩

/-- The value of `p` has to be good only if what follows records nothing and has a good value. -/
theorem bindIf {good' : β → Prop} (h : CarriesIf good w r k s p q)
    (hg : ∀ a s', s.Onward s' → s.Quiet ((f a).run s').2 → good' ((f a).run s').1 → good a)
    (hf : ∀ a s', s.Onward s' → CarriesIf good' w r k s' (f a) (g (shift w.distance a))) :
    CarriesIf good' w r k s (p >>= f) (q >>= g) := by
  have hf := hf (p.run s).1 _ h.onward
  refine ⟨h.onward.trans hf.onward, fun hk hb => hf.keeps hk (h.keeps hk hb), ?_⟩
  intro hq hr hb hgood
  have hp := h.same (h.onward.quiet_left hf.onward hq) hr (hf.onward.bounded hb)
    (hg _ _ h.onward hq hgood)
  show (g (q.run (s.within w)).1).run (q.run (s.within w)).2 = _
  rw [hp]
  exact hf.same (h.onward.quiet_right hf.onward hq) (fun hr' => h.onward.ready (hr hr')) hb hgood

theorem bind {good : β → Prop} (h : Carries w r k s p q)
    (hf : ∀ a s', s.Onward s' → CarriesIf good w r k s' (f a) (g (shift w.distance a))) :
    CarriesIf good w r k s (p >>= f) (q >>= g) :=
  h.bindIf (fun _ _ _ _ _ => ⟨⟩) hf

theorem get {f g : ParserState → Reader α} (h : CarriesIf good w r k s (f s) (g (s.within w))) :
    CarriesIf good w r k s (MonadState.get >>= f) (MonadState.get >>= g) :=
  ⟨h.onward, h.keeps, h.same⟩

theorem change {f g : ParserState → ParserState} (ho : s.Onward (f s))
    (hk : k = true → s.Bounded w → (f s).Bounded w)
    (h : s.Quiet (f s) → (f s).Bounded w → g (s.within w) = (f s).within w) :
    Carries w r k s (modify f : Reader Unit) (modify g) :=
  ⟨ho, hk, fun hq _ hb _ => congrArg ((), ·) (h hq hb)⟩

theorem map {f g : α → β} (h : Carries w r k s p q)
    (hf : ∀ a, g (shift w.distance a) = shift w.distance (f a)) :
    Carries w r k s (f <$> p) (g <$> q) := by
  refine ⟨h.onward, h.keeps, fun hq hr hb _ => ?_⟩
  show (g (q.run (s.within w)).1, (q.run (s.within w)).2) = _
  rw [h.same hq hr hb ⟨⟩, hf]
  rfl

theorem discard (h : Carries w r k s p q) :
    Carries w r k s (Functor.discard p) (Functor.discard q) :=
  h.map fun _ => rfl

theorem ite {c d : Prop} [Decidable c] [Decidable d] (hc : s.Bounded w → (d ↔ c))
    (h : c → CarriesIf good w r k s p q) (h' : ¬ c → CarriesIf good w r k s p' q') :
    CarriesIf good w r k s (if c then p else p') (if d then q else q') := by
  by_cases hc' : c
  · rw [if_pos hc']
    have h := h hc'
    refine ⟨h.onward, h.keeps, fun hq hr hb hg => ?_⟩
    rw [if_pos ((hc (h.onward.bounded hb)).2 hc')]
    exact h.same hq hr hb hg
  · rw [if_neg hc']
    have h := h' hc'
    refine ⟨h.onward, h.keeps, fun hq hr hb hg => ?_⟩
    rw [if_neg (mt (hc (h.onward.bounded hb)).1 hc')]
    exact h.same hq hr hb hg

/-- The continuations behind the branches of a choice. -/
theorem join {good : β → Prop} {c d : Prop} [Decidable c] [Decidable d]
    (hc : s.Bounded w → (d ↔ c)) (h : c → Carries w r k s p q) (h' : ¬ c → Carries w r k s p' q')
    (hf : ∀ a s', s.Onward s' → CarriesIf good w r k s' (f a) (g (shift w.distance a))) :
    CarriesIf good w r k s (have next := f; if c then p >>= next else p' >>= next)
      (have next := g; if d then q >>= next else q' >>= next) :=
  ite hc (fun hc => (h hc).bind hf) fun hc => (h' hc).bind hf

/-- The continuations behind a step that is taken under a condition only. -/
theorem after {good : β → Prop} {c d : Prop} [Decidable c] [Decidable d] {p q : Reader Unit}
    {f g : Unit → Reader β} (hc : s.Bounded w → (d ↔ c)) (h : c → Carries w r k s p q)
    (hf : ∀ s', s.Onward s' → CarriesIf good w r k s' (f ()) (g ())) :
    CarriesIf good w r k s (have next := f; if c then p >>= next else next ())
      (have next := g; if d then q >>= next else next ()) :=
  ite hc (fun hc => (h hc).bind fun _ s' hs => hf s' hs) fun _ => hf s (.refl s)

end Reader.CarriesIf

/-! ## Parsers -/

namespace Parser.Carries

variable {p q p' q' : Parser α} {f g : α → Parser β}

theorem pureAt {a b : α} (h : (r = true → s.Ready w) → s.Bounded w → b = shift w.distance a) :
    Carries w r k s (Pure.pure a) (Pure.pure b) :=
  Reader.CarriesIf.pureAt fun hr hb => congrArg Except.ok (h hr hb)

theorem pure {a b : α} (h : b = shift w.distance a) :
    Carries w r k s (Pure.pure a) (Pure.pure b) :=
  .pureAt fun _ _ => h

theorem throw {e e' : ParseError}
    (h : k = true → (r = true → s.Ready w) → s.Bounded w → e' = shift w.distance e) :
    Carries w r k s (MonadExcept.throw e : Parser α) (MonadExcept.throw e') := by
  refine ⟨.refl s, fun _ hb => hb, fun _ hr hb hg => ?_⟩
  have hk : k = true := hg.resolve_right Bool.false_ne_true
  exact congrArg (fun e => (Except.error e, s.within w)) (h hk hr hb)

theorem congr (h : Carries w r k s p q)
    (hq : (r = true → s.Ready w) → s.Bounded w → q' = q) : Carries w r k s p q' :=
  Reader.CarriesIf.congr h fun hr hb => congrArg ExceptT.run (hq hr hb)

/-- A parser that keeps to the tokens that end no declaration is carried over anyway. -/
theorem weaken (h : Carries w r true s p q) : Carries w r k s p q :=
  ⟨h.onward, fun _ => h.keeps rfl, fun hq hr hb _ => h.same hq hr hb (.inl rfl)⟩

theorem anywhere (h : Carries w false k s p q) : Carries w r k s p q :=
  ⟨h.onward, h.keeps, fun hq _ => h.same hq nofun⟩

/-- What follows may rely on what `p` consumes. -/
theorem bind_of {r' : Bool} (h : Carries w r k s p q)
    (hf : ∀ a s', p.run.run s = (.ok a, s') → s.Onward s' →
      Carries w r' k s' (f a) (g (shift w.distance a)))
    (hr : ∀ a s', p.run.run s = (.ok a, s') → s.Bounded w → (r = true → s.Ready w) → r' = true →
      s'.Ready w) :
    Carries w r k s (p >>= f) (q >>= g) := by
  have hq := Parser.run_bind q g (s.within w)
  have hp := Parser.run_bind p f s
  obtain ⟨ho, hk, hs⟩ := h
  rcases hx : p.run.run s with ⟨e | a, s'⟩
  · rw [hx] at hp ho hk hs
    refine ⟨hp ▸ ho, hp ▸ hk, ?_⟩
    rw [hp]
    intro hquiet hready hb hgood
    rw [hq, hs hquiet hready hb (hgood.imp_right fun h => h)]
    rfl
  · rw [hx] at hp ho hk hs
    obtain ⟨ho', hk', hs'⟩ := hf a s' hx ho
    refine ⟨hp ▸ ho.trans ho', ?_, ?_⟩
    · rw [hp]
      exact fun hk₀ hb => hk' hk₀ (hk hk₀ hb)
    · rw [hp]
      intro hquiet hready hb hgood
      rw [hq, hs (ho.quiet_left ho' hquiet) hready (ho'.bounded hb) (.inr rfl)]
      have hs := (ho.trans ho').bounded hb
      exact hs' (ho.quiet_right ho' hquiet) (hr a s' hx hs hready) hb hgood

/-- What follows may use where `p` ends. -/
theorem bind_at (h : Carries w r k s p q)
    (hf : ∀ a s', p.run.run s = (.ok a, s') → Carries w r k s' (f a) (g (shift w.distance a))) :
    Carries w r k s (p >>= f) (q >>= g) := by
  refine h.bind_of (fun a s' hx _ => hf a s' hx) fun a s' hx _ hr hr' => ?_
  have ho := h.onward
  rw [hx] at ho
  exact ho.ready (hr hr')

theorem bind (h : Carries w r k s p q)
    (hf : ∀ a s', s.Onward s' → Carries w r k s' (f a) (g (shift w.distance a))) :
    Carries w r k s (p >>= f) (q >>= g) := by
  refine h.bind_at fun a s' hx => hf a s' ?_
  have ho := h.onward
  rwa [hx] at ho

theorem get {f g : ParserState → Parser α} (h : Carries w r k s (f s) (g (s.within w))) :
    Carries w r k s (MonadState.get >>= f) (MonadState.get >>= g) :=
  ⟨h.onward, h.keeps, h.same⟩

/-- What is handed back may tell where the syntax ends. -/
theorem pureSpan {f g : Span → α} {start : Span}
    (h : ∀ span, g (shift w.distance span) = shift w.distance (f span)) :
    Carries w true k s (do return f ((← MonadState.get).spanFrom start))
      (do return g ((← MonadState.get).spanFrom (shift w.distance start))) :=
  get (pureAt fun hr _ => by rw [(hr rfl).spanFrom, h])

/-- The same for a node of one of several kinds. -/
theorem pureNode {γ : Type} {c c' : γ → α} {f g : Span → γ} {start : Span}
    (h : ∀ span, c' (g (shift w.distance span)) = shift w.distance (c (f span))) :
    Carries w true k s (do return c (f ((← MonadState.get).spanFrom start)))
      (do return c' (g ((← MonadState.get).spanFrom (shift w.distance start)))) :=
  get (pureAt fun hr _ => by rw [(hr rfl).spanFrom, h])

theorem lift {p q : Reader α} (h : Reader.Carries w r k s p q) :
    Carries w r k s (liftM p : Parser α) (liftM q : Parser α) := by
  refine ⟨h.onward, h.keeps, fun hq hr hb _ => ?_⟩
  show (Except.ok (q.run (s.within w)).1, (q.run (s.within w)).2) = _
  rw [h.same hq hr hb ⟨⟩]
  rfl

/-- Readers and then the parsers of their values. -/
theorem andThen {p q : Reader α} (h : Reader.Carries w r k s p q)
    (hf : ∀ a s', s.Onward s' → Carries w r k s' (f a) (g (shift w.distance a))) :
    Carries w r k s (liftM p >>= f) (liftM q >>= g) :=
  (lift h).bind hf

theorem map {f g : α → β} (h : Carries w r k s p q)
    (hf : ∀ a, g (shift w.distance a) = shift w.distance (f a)) :
    Carries w r k s (f <$> p) (g <$> q) :=
  h.bind fun _ _ _ => .pure (hf _)

theorem discard (h : Carries w r k s p q) :
    Carries w r k s (Functor.discard p) (Functor.discard q) :=
  h.map fun _ => rfl

theorem ite {c d : Prop} [Decidable c] [Decidable d] (hc : s.Bounded w → (d ↔ c))
    (h : c → Carries w r k s p q) (h' : ¬ c → Carries w r k s p' q') :
    Carries w r k s (if c then p else p') (if d then q else q') := by
  rw [Carries, apply_ite ExceptT.run, apply_ite ExceptT.run]
  exact Reader.CarriesIf.ite hc h h'

/-- The continuations behind the branches of a choice. -/
theorem join {c d : Prop} [Decidable c] [Decidable d] (hc : s.Bounded w → (d ↔ c))
    (h : c → Carries w r k s p q) (h' : ¬ c → Carries w r k s p' q')
    (hf : ∀ a s', s.Onward s' → Carries w r k s' (f a) (g (shift w.distance a))) :
    Carries w r k s (have next := f; if c then p >>= next else p' >>= next)
      (have next := g; if d then q >>= next else q' >>= next) :=
  ite hc (fun hc => (h hc).bind hf) fun hc => (h' hc).bind hf

/-- The continuations behind a step that is taken under a condition only. -/
theorem after {c d : Prop} [Decidable c] [Decidable d] {p q : Parser Unit} {f g : Unit → Parser β}
    (hc : s.Bounded w → (d ↔ c)) (h : c → Carries w r k s p q)
    (hf : ∀ s', s.Onward s' → Carries w r k s' (f ()) (g ())) :
    Carries w r k s (have next := f; if c then p >>= next else next ())
      (have next := g; if d then q >>= next else next ()) :=
  ite hc (fun hc => (h hc).bind fun _ s' hs => hf s' hs) fun _ => hf s (.refl s)

end Parser.Carries

/-! ## Loops -/

/-- The value that ends a loop is `good`. -/
def Round.Ends (good : α → Prop) : Round σ α → Prop
  | .next _ => True
  | .done a => good a

namespace Parser

theorem stall_carries [Inhabited α] {good : α → Prop} {q : Reader α} :
    Reader.CarriesIf good w r k s stall q :=
  .of_recorded ((ParserState.Onward.refl s).fault _) (fun _ hb => hb.same rfl rfl)
    ((ParserState.Onward.refl s).fault_not_quiet _)

variable [Inhabited α] {good : α → Prop} {round round' : σ → Reader (Round σ α)}

theorem loopWithin_carries {n m : Nat} (hn : n ≤ m) {s' : ParserState} (hs : s.Onward s')
    (h : ∀ x s', s.Onward s' →
      Reader.CarriesIf (Round.Ends good) w r k s' (round x) (round' (shift w.distance x))) (x : σ) :
    Reader.CarriesIf good w r k s' (loopWithin round n x)
      (loopWithin round' m (shift w.distance x)) := by
  induction n generalizing m s' x with
  | zero => exact stall_carries
  | succ n ih =>
    obtain ⟨m, rfl⟩ : ∃ m', m = m' + 1 := ⟨m - 1, by omega⟩
    refine .get ((h x s' hs).bindIf (fun x' _ _ _ => ?_) fun x' s₁ hs₁ => ?_)
    · cases x' with
      | next => exact fun _ => ⟨⟩
      | done => exact id
    · cases x' with
      | done a => exact .pure rfl
      | next y =>
        refine .get (.ite (fun _ => ?_) (fun _ => ih (by omega) (hs.trans hs₁) y)
          fun _ => stall_carries)
        rw [ParserState.length_after_within, ParserState.length_after_within, Nat.add_lt_add_iff_right]

theorem loop_carries (h : ∀ x s', s.Onward s' →
    Reader.CarriesIf (Round.Ends good) w r k s' (round x) (round' (shift w.distance x))) (x : σ) :
    Reader.CarriesIf good w r k s (loop round x) (loop round' (shift w.distance x)) := by
  refine .get (loopWithin_carries ?_ (.refl s) h x)
  rw [ParserState.length_after_within]
  omega

omit [Inhabited α] in
theorem loopOrFail_carries {round round' : σ → Parser (Round σ α)} (h : ∀ x s', s.Onward s' →
    Parser.Carries w r k s' (round x) (round' (shift w.distance x))) (x : σ) :
    Parser.Carries w r k s (loopOrFail round x) (loopOrFail round' (shift w.distance x)) := by
  refine loop_carries (fun x s' hs => (h x s' hs).bindIf (fun x' _ _ _ => ?_) fun x' s₁ hs₁ => ?_) x
  · rcases x' with e | (y | a)
    exacts [id, fun _ => .inr rfl, fun _ => .inr rfl]
  · rcases x' with e | (y | a) <;> exact .pure rfl

end Parser

end

end CommandModules

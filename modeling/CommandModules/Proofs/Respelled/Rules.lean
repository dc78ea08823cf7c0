/-
  Command modules — two texts that are read abreast.

  Two texts without errors that have the same tokens are read at the same time.

  * `ParserState.Abreast s t`: the states are at the same place in such texts;
  * `Reader.Abreast p q R`: from such states `p` and `q` come to such states again, and `R`
    holds of their values if no error was recorded; `Parser.Abreast p q R` says the same of
    parsers, which succeed or fail together;
  * `Reader.Abreast.of_gives`: the two runs take the same tokens, so what a value says of the
    tokens that it was read from, the two values say of the same tokens.

  That the values differ in places only is known without regard to errors, so the two runs
  take the same branches.
-/
import Mathlib.Data.List.Forall2
import CommandModules.Proofs.Alike.Unit
import CommandModules.Proofs.Taken.Rules

namespace CommandModules

variable {α β σ : Type}

/-! ## States -/

namespace ParserState

/-- The tokens stand in the text, and each stretch of them is spelled by it. -/
structure Sound (s : ParserState) : Prop where
  good : s.Good s.source
  spelt : s.Spelt

/-- The states are at the same place, in two texts that have the same tokens. -/
structure Abreast (s t : ParserState) : Prop where
  alike : s.Alike t
  left : s.Sound
  right : t.Sound

variable {s t s' t' : ParserState} {ts us : List Token}

theorem Takes.sound (h : Takes ts s s') (hs : s.Sound) : s'.Sound :=
  ⟨h.moves.source_eq ▸ h.good hs.good, h.spelt hs.spelt⟩

/-- Errors and faults do not matter. -/
theorem Sound.congr (hs : s.Sound) (errors : List ParseError) (faults : List Fault) :
    ({ s with errors, faults } : ParserState).Sound :=
  ⟨⟨rfl, hs.good.placed, hs.good.ordered, hs.good.eof_kind, hs.good.ne_eof, hs.good.worded⟩, hs.spelt⟩

/-- From places that are alike to places that are alike, the same tokens are taken. -/
theorem Alike.takes_eq (h : s.Alike t) (h' : s'.Alike t') (hs : Takes ts s s')
    (ht : Takes us t t') : erase ts = erase us := by
  have ha := h.after_eq
  rw [hs.after_eq, ht.after_eq, erase_append, erase_append, h'.after_eq] at ha
  exact List.append_cancel_right ha

end ParserState

open ParserState (Takes)

variable [Erase α] [Erase β] [Erase σ]

/-! ## Readers -/

/-- From states that are abreast, the readers come to states that are abreast, with values
    that differ in places only; if no error is recorded then, none was before, and `R` holds
    of the values. -/
def Reader.Abreast (p q : Reader α) (R : α → α → Prop) : Prop :=
  ∀ s t : ParserState, s.Abreast t → (p.run s).2.Abreast (q.run t).2 ∧
    erase (p.run s).1 = erase (q.run t).1 ∧
    ((p.run s).2.errors = [] → s.errors = [] ∧ R (p.run s).1 (q.run t).1)

namespace Reader.Abreast

variable {p q p' q' : Reader α} {f g : α → Reader β} {R R' : α → α → Prop} {T : β → β → Prop}

theorem pure {a b : α} (h : erase a = erase b) (hR : R a b) :
    Abreast (Pure.pure a) (Pure.pure b) R :=
  fun _ _ hs => ⟨hs, h, fun he => ⟨he, hR⟩⟩

theorem mono (h : Abreast p q R) (hR : ∀ a b, R a b → R' a b) : Abreast p q R' := by
  intro s t hs
  obtain ⟨hs', ha, hr⟩ := h s t hs
  exact ⟨hs', ha, fun he => (hr he).imp_right (hR _ _)⟩

/-- What holds of the first values is known behind the continuations. -/
theorem bind (h : Abreast p q R)
    (hf : ∀ a b, erase a = erase b → Abreast (f a) (g b) fun c d => R a b → T c d) :
    Abreast (p >>= f) (q >>= g) T := by
  intro s t hs
  obtain ⟨hs', ha, hr⟩ := h s t hs
  obtain ⟨hs'', hb, hT⟩ := hf _ _ ha _ _ hs'
  refine ⟨hs'', hb, fun he => ?_⟩
  obtain ⟨he', hT⟩ := hT he
  obtain ⟨he, hR⟩ := hr he'
  exact ⟨he, hT hR⟩

/-- Nothing is asked of the first values. -/
theorem pass (h : Abreast p q fun _ _ => True)
    (hf : ∀ a b, erase a = erase b → Abreast (f a) (g b) T) : Abreast (p >>= f) (q >>= g) T :=
  h.bind fun a b hab => (hf a b hab).mono fun _ _ hT _ => hT

theorem get {f g : ParserState → Reader β} (h : ∀ s t, s.Abreast t → Abreast (f s) (g t) T) :
    Abreast (MonadState.get >>= f) (MonadState.get >>= g) T :=
  fun s t hs => h s t hs s t hs

theorem map {f g : α → β} (h : Abreast p q R)
    (hf : ∀ a b, erase a = erase b → erase (f a) = erase (g b)) (hT : ∀ a b, R a b → T (f a) (g b)) :
    Abreast (f <$> p) (g <$> q) T := by
  intro s t hs
  obtain ⟨hs', ha, hr⟩ := h s t hs
  exact ⟨hs', hf _ _ ha, fun he => (hr he).imp_right (hT _ _)⟩

theorem ite {c d : Prop} [Decidable c] [Decidable d] (hc : c ↔ d) (h : Abreast p q R)
    (h' : Abreast p' q' R) : Abreast (if c then p else p') (if d then q else q') R := by
  by_cases hd : d
  · rwa [if_pos (hc.2 hd), if_pos hd]
  · rwa [if_neg (mt hc.1 hd), if_neg hd]

/-- The continuations behind the branches of a choice. -/
theorem join {c d : Prop} [Decidable c] [Decidable d] (hc : c ↔ d) (h : Abreast p q R)
    (h' : Abreast p' q' R)
    (hf : ∀ a b, erase a = erase b → Abreast (f a) (g b) fun c d => R a b → T c d) :
    Abreast (have next := f; if c then p >>= next else p' >>= next)
      (have next := g; if d then q >>= next else q' >>= next) T :=
  ite hc (h.bind hf) (h'.bind hf)

/-- **What values say of their tokens** the two values say of the same tokens. -/
theorem of_gives {P : α → List Token → Prop} (h : Alike p q)
    (hp : ∀ source s, Gives source s p fun a ts _ => P a ts)
    (hq : ∀ source s, Gives source s q fun a ts _ => P a ts) :
    Abreast p q fun a b => ∃ ts us, erase ts = erase us ∧ P a ts ∧ P b us := by
  intro s t hs
  obtain ⟨ha, hs'⟩ := h s t hs.alike
  obtain ⟨ts, ht, hP⟩ := hp s.source s hs.left.good hs.left.spelt
  obtain ⟨us, hu, hQ⟩ := hq t.source t hs.right.good hs.right.spelt
  refine ⟨⟨hs', ht.sound hs.left, hu.sound hs.right⟩, ha, fun he => ?_⟩
  have he' : (q.run t).2.errors = [] := by
    rw [← List.length_eq_zero_iff, ← length_erase, ← hs'.errors_eq, he]
    rfl
  exact ⟨ht.errors_eq_nil he, ts, us, hs.alike.takes_eq hs' ht hu, hP he, hQ he'⟩

/-- Readers of whose values nothing is asked. -/
theorem of_safe {P Q : List Char → ParserState → α → Nat → Prop} (h : Alike p q)
    (hp : ∀ source s, Safe source s p (P source s))
    (hq : ∀ source s, Safe source s q (Q source s)) : Abreast p q fun _ _ => True :=
  have gives {p : Reader α} {P : List Char → ParserState → α → Nat → Prop}
      (hp : ∀ source s, Safe source s p (P source s)) (source s) :
      Gives source s p fun _ _ _ => True :=
    .of_safe (R := fun _ _ => True) ((hp source s).mono fun _ _ _ => ⟨⟩)
  (of_gives h (gives hp) (gives hq)).mono fun _ _ _ => ⟨⟩

/-- Nothing is asked of the value that is read first. -/
theorem skip {P : List Char → ParserState → α → Nat → Prop} (h : Alike p p)
    (hp : ∀ source s, Safe source s p (P source s))
    (hf : ∀ a b, erase a = erase b → Abreast (f a) (g b) T) : Abreast (p >>= f) (p >>= g) T :=
  (of_safe h hp hp).pass hf

end Reader.Abreast

/-! ## Parsers -/

/-- `R` holds if values were handed back. -/
def Agree (R : α → α → Prop) : Except ParseError α → Except ParseError α → Prop
  | .ok a, .ok b => R a b
  | _, _ => True

/-- The same of parsers; if they succeed and no error is recorded, `R` holds of their values. -/
def Parser.Abreast (p q : Parser α) (R : α → α → Prop) : Prop :=
  Reader.Abreast p.run q.run (Agree R)

namespace Parser.Abreast

variable {p q p' q' : Parser α} {f g : α → Parser β} {R R' : α → α → Prop} {T : β → β → Prop}

theorem pure {a b : α} (h : erase a = erase b) (hR : R a b) :
    Abreast (Pure.pure a) (Pure.pure b) R :=
  Reader.Abreast.pure (by rw [erase_ok, erase_ok, h]) hR

theorem throw {e e' : ParseError} (h : erase e = erase e') :
    Abreast (MonadExcept.throw e : Parser α) (MonadExcept.throw e') R :=
  Reader.Abreast.pure (by rw [erase_error, erase_error, h]) ⟨⟩

theorem mono (h : Abreast p q R) (hR : ∀ a b, R a b → R' a b) : Abreast p q R' :=
  Reader.Abreast.mono h fun r r' hr => by
    rcases r with _ | a <;> rcases r' with _ | b
    exacts [⟨⟩, ⟨⟩, ⟨⟩, hR a b hr]

/-- That the values differ in places only is known besides. -/
theorem and_erase (h : Abreast p q R) : Abreast p q fun a b => erase a = erase b ∧ R a b := by
  intro s t hs
  obtain ⟨hs', hab, hr⟩ := h s t hs
  refine ⟨hs', hab, fun he => (hr he).imp_right fun hR => ?_⟩
  generalize (p.run.run s).1 = r at hab hR ⊢
  generalize (q.run.run t).1 = r' at hab hR ⊢
  rcases r with _ | a <;> rcases r' with _ | b
  exacts [⟨⟩, ⟨⟩, ⟨⟩, ⟨Except.ok.inj hab, hR⟩]

theorem bind (h : Abreast p q R)
    (hf : ∀ a b, erase a = erase b → Abreast (f a) (g b) fun c d => R a b → T c d) :
    Abreast (p >>= f) (q >>= g) T := by
  rw [Abreast, ExceptT.run_bind, ExceptT.run_bind]
  refine Reader.Abreast.bind h fun r r' hr => ?_
  obtain ⟨a, b, rfl, rfl, hab⟩ | ⟨e, e', rfl, rfl, he⟩ := Except.cases_of_erase hr
  · refine Reader.Abreast.mono (hf a b hab) fun r r' hr hR => ?_
    rcases r with _ | c <;> rcases r' with _ | d
    exacts [⟨⟩, ⟨⟩, ⟨⟩, hr hR]
  · exact Reader.Abreast.pure (by rw [erase_error, erase_error, he]) fun _ => ⟨⟩

/-- Nothing is asked of the first values. -/
theorem pass (h : Abreast p q fun _ _ => True)
    (hf : ∀ a b, erase a = erase b → Abreast (f a) (g b) T) : Abreast (p >>= f) (q >>= g) T :=
  h.bind fun a b hab => (hf a b hab).mono fun _ _ hT _ => hT

theorem get {f g : ParserState → Parser β} (h : ∀ s t, s.Abreast t → Abreast (f s) (g t) T) :
    Abreast (MonadState.get >>= f) (MonadState.get >>= g) T :=
  fun s t hs => h s t hs s t hs

theorem lift {p q : Reader α} (h : Reader.Abreast p q R) :
    Abreast (liftM p : Parser α) (liftM q : Parser α) R := by
  intro s t hs
  obtain ⟨hs', ha, hr⟩ := h s t hs
  exact ⟨hs', congrArg Except.ok ha, hr⟩

/-- Readers and then the parsers of their values. -/
theorem andThen {p q : Reader α} (h : Reader.Abreast p q R)
    (hf : ∀ a b, erase a = erase b → Abreast (f a) (g b) fun c d => R a b → T c d) :
    Abreast (liftM p >>= f) (liftM q >>= g) T :=
  (lift h).bind hf

theorem map {f g : α → β} (h : Abreast p q R)
    (hf : ∀ a b, erase a = erase b → erase (f a) = erase (g b)) (hT : ∀ a b, R a b → T (f a) (g b)) :
    Abreast (f <$> p) (g <$> q) T := by
  rw [Abreast, ExceptT.run_map, ExceptT.run_map]
  refine Reader.Abreast.map h (fun r r' hr => ?_) fun r r' hr => ?_
  · obtain ⟨a, b, rfl, rfl, hab⟩ | ⟨e, e', rfl, rfl, he⟩ := Except.cases_of_erase hr
    · exact congrArg Except.ok (hf a b hab)
    · exact congrArg Except.error he
  · rcases r with _ | a <;> rcases r' with _ | b
    exacts [⟨⟩, ⟨⟩, ⟨⟩, hT a b hr]

theorem ite {c d : Prop} [Decidable c] [Decidable d] (hc : c ↔ d) (h : Abreast p q R)
    (h' : Abreast p' q' R) : Abreast (if c then p else p') (if d then q else q') R := by
  by_cases hd : d
  · rwa [if_pos (hc.2 hd), if_pos hd]
  · rwa [if_neg (mt hc.1 hd), if_neg hd]

/-- The continuations behind the branches of a choice. -/
theorem join {c d : Prop} [Decidable c] [Decidable d] (hc : c ↔ d) (h : Abreast p q R)
    (h' : Abreast p' q' R)
    (hf : ∀ a b, erase a = erase b → Abreast (f a) (g b) fun c d => R a b → T c d) :
    Abreast (have next := f; if c then p >>= next else p' >>= next)
      (have next := g; if d then q >>= next else q' >>= next) T :=
  ite hc (h.bind hf) (h'.bind hf)

/-- The continuations behind a step that is taken under a condition only. -/
theorem after {c d : Prop} [Decidable c] [Decidable d] {p q : Parser Unit} {f g : Unit → Parser β}
    (hc : c ↔ d) (h : Abreast p q fun _ _ => True) (hf : Abreast (f ()) (g ()) T) :
    Abreast (have next := f; if c then p >>= next else next ())
      (have next := g; if d then q >>= next else next ()) T :=
  ite hc (h.pass fun _ _ _ => hf) hf

/-- What values say of their tokens the two values say of the same tokens. -/
theorem of_gives {P : α → List Token → Prop} (h : Alike p q)
    (hp : ∀ source s, Gives source s p fun a ts _ => P a ts)
    (hq : ∀ source s, Gives source s q fun a ts _ => P a ts) :
    Abreast p q fun a b => ∃ ts us, erase ts = erase us ∧ P a ts ∧ P b us := by
  have gives {p : Parser α} (hp : ∀ source s, Gives source s p fun a ts _ => P a ts) (source s) :
      Reader.Gives source s p.run fun r ts _ => ∀ a, r = .ok a → P a ts :=
    Reader.Gives.mono (hp source s) fun r ts _ hr a ha => by
      subst ha
      exact hr
  refine Reader.Abreast.mono (.of_gives h (gives hp) (gives hq)) fun r r' hr => ?_
  obtain ⟨ts, us, htu, ht, hu⟩ := hr
  rcases r with _ | a <;> rcases r' with _ | b
  exacts [⟨⟩, ⟨⟩, ⟨⟩, ⟨ts, us, htu, ht a rfl, hu b rfl⟩]

/-- Parsers of whose values nothing is asked. -/
theorem of_safe {P Q : List Char → ParserState → α → Nat → Prop} (h : Alike p q)
    (hp : ∀ source s, Safe source s p (P source s))
    (hq : ∀ source s, Safe source s q (Q source s)) : Abreast p q fun _ _ => True :=
  have gives {p : Parser α} {P : List Char → ParserState → α → Nat → Prop}
      (hp : ∀ source s, Safe source s p (P source s)) (source s) :
      Gives source s p fun _ _ _ => True :=
    .of_safe (R := fun _ _ => True) ((hp source s).mono fun _ _ _ => ⟨⟩)
  (of_gives h (gives hp) (gives hq)).mono fun _ _ _ => ⟨⟩

/-- Nothing is asked of the value that is read first. -/
theorem skip {P : List Char → ParserState → α → Nat → Prop} (h : Alike p p)
    (hp : ∀ source s, Safe source s p (P source s))
    (hf : ∀ a b, erase a = erase b → Abreast (f a) (g b) T) : Abreast (p >>= f) (p >>= g) T :=
  (of_safe h hp hp).pass hf

theorem skipReader {p : Reader α} {P : List Char → ParserState → α → Nat → Prop}
    (h : Reader.Alike p p) (hp : ∀ source s, Reader.Safe source s p (P source s))
    (hf : ∀ a b, erase a = erase b → Abreast (f a) (g b) T) :
    Abreast (liftM p >>= f) (liftM p >>= g) T :=
  (lift (.of_safe h hp hp)).pass hf

end Parser.Abreast

/-! ## Errors that are recorded -/

namespace Parser

variable {p q : Parser α} {R : α → α → Prop}

theorem report_abreast {e e' : ParseError} (h : erase e = erase e') :
    Reader.Abreast (report e) (report e') fun _ _ => True :=
  fun _ _ hs => ⟨⟨hs.alike.report h, hs.left.congr _ _, hs.right.congr _ _⟩, rfl,
    fun he => absurd he (List.append_ne_nil_of_right_ne_nil _ (List.cons_ne_nil _ _))⟩

theorem failAt_abreast (kind : ParseErrorKind) (what : String) :
    Parser.Abreast (failAt kind what : Parser α) (failAt kind what) R :=
  .get fun _ _ h => .throw (unexpected_erase kind what h.alike.peek_kind)

theorem orReport_abreast (h : Parser.Abreast p q R) :
    Reader.Abreast (orReport p) (orReport q) (Option.Rel R) := by
  refine Reader.Abreast.bind h fun r r' hr => ?_
  obtain ⟨a, b, rfl, rfl, hab⟩ | ⟨e, e', rfl, rfl, he⟩ := Except.cases_of_erase hr
  · exact .pure (by rw [erase_some, erase_some, hab]) fun hR => .some hR
  · exact (report_abreast he).pass fun _ _ _ => .pure rfl fun _ => .none

theorem orRecover_abreast (h : Parser.Abreast p q R) :
    Reader.Abreast (orRecover p) (orRecover q) (Option.Rel R) := by
  refine Reader.Abreast.bind h fun r r' hr => ?_
  obtain ⟨a, b, rfl, rfl, hab⟩ | ⟨e, e', rfl, rfl, he⟩ := Except.cases_of_erase hr
  · exact .pure (by rw [erase_some, erase_some, hab]) fun hR => .some hR
  · refine (report_abreast he).pass fun _ _ _ => ?_
    exact .skip synchronize_alike (fun _ _ => synchronize_safe) fun _ _ _ => .pure rfl fun _ => .none

/-! ## Loops -/

end Parser

/-- Behind rounds that end in the same way: `I` holds if the loops go on, and `R` if they
    end. -/
def Round.Rel (I : σ → σ → Prop) (R : α → α → Prop) : Round σ α → Round σ α → Prop
  | .next x, .next y => I x y
  | .done a, .done b => R a b
  | _, _ => True

namespace Parser

variable {p q : Parser α} {R : α → α → Prop} {I : σ → σ → Prop}

theorem stall_abreast [Inhabited α] (hR : R default default) :
    Reader.Abreast (stall : Reader α) stall R :=
  fun _ _ hs => ⟨⟨hs.alike, hs.left.congr _ _, hs.right.congr _ _⟩, rfl, fun he => ⟨he, hR⟩⟩

theorem loopWithin_abreast [Inhabited α] {round round' : σ → Reader (Round σ α)}
    (hR : R default default) (h : ∀ x y, erase x = erase y →
      Reader.Abreast (round x) (round' y) fun r r' => I x y → Round.Rel I R r r')
    (fuel : Nat) {x y : σ} (hx : erase x = erase y) :
    Reader.Abreast (loopWithin round fuel x) (loopWithin round' fuel y) fun a b => I x y → R a b := by
  induction fuel generalizing x y with
  | zero => exact stall_abreast fun _ => hR
  | succ fuel ih =>
    refine .get fun s t hs => (h x y hx).bind fun r r' hr => ?_
    obtain ⟨x', y', rfl, rfl, hxy⟩ | ⟨a, b, rfl, rfl, hab⟩ := Round.cases_of_erase hr
    · refine .get fun s' t' hs' => .ite ?_ ((ih hxy).mono fun _ _ hab hI hx => hab (hI hx)) ?_
      · rw [hs.alike.after_length, hs'.alike.after_length]
      · exact stall_abreast fun _ _ => hR
    · exact .pure hab fun hr => hr

/-- What every round keeps holds behind the loop. -/
theorem loop_abreast [Inhabited α] {round round' : σ → Reader (Round σ α)} (hR : R default default)
    (h : ∀ x y, erase x = erase y →
      Reader.Abreast (round x) (round' y) fun r r' => I x y → Round.Rel I R r r')
    {x : σ} (hx : I x x) : Reader.Abreast (loop round x) (loop round' x) R :=
  .skip rounds_alike (fun _ _ => rounds_safe) fun n m hn => by
    obtain rfl : n = m := hn
    exact (loopWithin_abreast hR h n rfl).mono fun _ _ hab => hab hx

theorem loopOrFail_abreast {round round' : σ → Parser (Round σ α)}
    (h : ∀ x y, erase x = erase y →
      Parser.Abreast (round x) (round' y) fun r r' => I x y → Round.Rel I R r r')
    {x : σ} (hx : I x x) : Parser.Abreast (loopOrFail round x) (loopOrFail round' x) R := by
  refine loop_abreast (I := I) ⟨⟩ (fun x y hxy => ?_) hx
  refine Reader.Abreast.bind (h x y hxy) fun r r' hr => ?_
  obtain ⟨r, r', rfl, rfl, hrr⟩ | ⟨e, e', rfl, rfl, he⟩ := Except.cases_of_erase hr
  · obtain ⟨x', y', rfl, rfl, hxy⟩ | ⟨a, b, rfl, rfl, hab⟩ := Round.cases_of_erase hrr
    · exact .pure (by rw [erase_next, erase_next, hxy]) fun hr => hr
    · exact .pure (by rw [erase_done, erase_done, erase_ok, erase_ok, hab]) fun hr => hr
  · exact .pure (by rw [erase_done, erase_done, erase_error, erase_error, he]) fun _ _ => ⟨⟩

theorem itemAndComma_abreast (h : Parser.Abreast p q R) {as bs : List α} (hab : erase as = erase bs) :
    Parser.Abreast (itemAndComma p as) (itemAndComma q bs) fun r r' =>
      List.Forall₂ R as bs → Round.Rel (List.Forall₂ R) (List.Forall₂ R) r r' := by
  refine h.bind fun a b hab' => ?_
  refine .skipReader (eatMark_alike _) (fun _ _ => eatMark_safe) fun c d hcd => .ite ?_ ?_ ?_
  · obtain rfl : c = d := hcd
    rfl
  all_goals exact .pure (by simp [hab, hab']) fun hR has => List.rel_append has (.cons hR .nil)

theorem commaSeparated_abreast (h : Parser.Abreast p q R) :
    Parser.Abreast (commaSeparated p) (commaSeparated q) (List.Forall₂ R) :=
  loopOrFail_abreast (I := List.Forall₂ R) (fun _ _ => itemAndComma_abreast h) .nil

theorem whileAt_abreast {c d : ParserState → Bool} (hc : ∀ s t, s.Alike t → c s = d t)
    (h : Parser.Abreast p q R) : Parser.Abreast (whileAt c p) (whileAt d q) (List.Forall₂ R) := by
  refine loopOrFail_abreast (I := List.Forall₂ R) (fun as bs hab => .get fun s t hs => .ite ?_ ?_ ?_) .nil
  · rw [hc s t hs.alike]
  · exact h.bind fun a b hab' => .pure (by simp [hab, hab'])
      fun hR has => List.rel_append has (.cons hR .nil)
  · exact .pure (by simp [hab]) fun has => has

end Parser

end CommandModules

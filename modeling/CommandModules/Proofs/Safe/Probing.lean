/-
  Command modules — types that are tried.

  Whether a word is a modifier or a name is told by trying to read a type behind it.  That leaves
  no trace, for the readers of types hand their errors back and record none, at whatever depth
  they fail.

  * `s.Probes s'`: a parser can go from `s` to `s'` without recording an error;
  * `Reader.Probes p`, `Parser.Probes p`: from whatever state, `p` only probes, whether it
    succeeds or fails, and there is a rule for each way of composing readers and parsers;
  * `typeWithin_probes`: types of each depth are read so;
  * `isContextualModifier_stays`: a word is classified without leaving it;
  * `types_tried_silently`: all of this in one statement.
-/
import CommandModules.Proofs.Joined.Type
import CommandModules.Proofs.Safe.Member

namespace CommandModules

variable {α β σ : Type}

/-! ## States -/

namespace ParserState

/-- A parser can go from `s` to `s'` without recording an error. -/
structure Probes (s s' : ParserState) : Prop extends Onward s s' where
  errors_same : s'.errors = s.errors

/-- The place and the errors are those of `s`. -/
structure StaysAt (s s' : ParserState) : Prop where
  source_eq : s'.source = s.source
  before_eq : s'.before = s.before
  after_eq : s'.after = s.after
  eof_eq : s'.eof = s.eof
  errors_eq : s'.errors = s.errors

variable {s s' s'' : ParserState}

namespace Probes

theorem refl (s : ParserState) : s.Probes s :=
  ⟨.refl s, rfl⟩

theorem trans (h : s.Probes s') (h' : s'.Probes s'') : s.Probes s'' :=
  ⟨h.toOnward.trans h'.toOnward, h'.errors_same.trans h.errors_same⟩

theorem advance (s : ParserState) : s.Probes s.advance := by
  refine ⟨onward_advance s, ?_⟩
  unfold ParserState.advance
  split <;> rfl

theorem advanceBy (n : Nat) (s : ParserState) : s.Probes (advanceBy n s) := by
  induction n generalizing s with
  | zero => exact .refl s
  | succ n ih => exact (Probes.advance s).trans (ih s.advance)

theorem returnTo (h : s.Probes s') : s.Probes (s'.returnTo s) :=
  ⟨h.toOnward.returnTo, h.errors_same⟩

/-- Whoever has gone back to `s` is where it was. -/
theorem staysAt (h : s.Probes s') : s.StaysAt (s'.returnTo s) :=
  ⟨h.source_eq, rfl, rfl, h.eof_eq, h.errors_same⟩

end Probes

namespace StaysAt

theorem refl (s : ParserState) : s.StaysAt s :=
  ⟨rfl, rfl, rfl, rfl, rfl⟩

/-- Nothing but a fault could have been noted. -/
theorem eq_of_faults (h : s.StaysAt s') (hf : s'.faults = s.faults) : s' = s := by
  obtain ⟨source, before, after, eof, errors, faults⟩ := s
  obtain ⟨source', before', after', eof', errors', faults'⟩ := s'
  obtain ⟨rfl, rfl, rfl, rfl, rfl⟩ := h
  obtain rfl := hf
  rfl

end StaysAt

end ParserState

open ParserState

/-! ## Readers -/

/-- From whatever state, `p` goes on without recording an error. -/
def Reader.Probes (p : Reader α) : Prop :=
  ∀ s : ParserState, s.Probes (p.run s).2

namespace Reader.Probes

variable {p q : Reader α} {f : α → Reader β}

theorem pure {a : α} : Probes (Pure.pure a) :=
  fun s => .refl s

theorem bind (h : Probes p) (hf : ∀ a, Probes (f a)) : Probes (p >>= f) :=
  fun s => (h s).trans (hf _ _)

theorem get {f : ParserState → Reader β} (h : ∀ s, Probes (f s)) :
    Probes (MonadState.get >>= f) :=
  fun s => h s s

theorem ite {c : Prop} [Decidable c] (hp : Probes p) (hq : Probes q) :
    Probes (if c then p else q) := by
  split
  exacts [hp, hq]

theorem discard (h : Probes p) : Probes (Functor.discard p) :=
  h

theorem fault (f : Fault) : Probes (Parser.fault f) :=
  fun s => ⟨(Onward.refl s).fault f, rfl⟩

theorem stall [Inhabited α] : Probes (Parser.stall : Reader α) :=
  (fault _).bind fun _ => pure

theorem loopWithin [Inhabited α] {round : σ → Reader (Round σ α)} (h : ∀ x, Probes (round x))
    (fuel : Nat) (x : σ) : Probes (Parser.loopWithin round fuel x) := by
  induction fuel generalizing x with
  | zero => exact stall
  | succ fuel ih =>
    refine .get fun s => (h x).bind fun r => ?_
    cases r with
    | done a => exact .pure
    | next y => exact .get fun s' => .ite (ih y) .stall

/-- A loop only probes if each round does. -/
theorem loop [Inhabited α] {round : σ → Reader (Round σ α)} (h : ∀ x, Probes (round x)) (x : σ) :
    Probes (Parser.loop round x) :=
  .get fun _ => loopWithin h _ x

end Reader.Probes

/-! ## Parsers -/

/-- From whatever state, `p` goes on without recording an error, also if it fails. -/
def Parser.Probes (p : Parser α) : Prop :=
  Reader.Probes p.run

namespace Parser.Probes

variable {p q : Parser α} {f : α → Parser β}

theorem pure {a : α} : Probes (Pure.pure a) :=
  fun s => .refl s

theorem throw {e : ParseError} : Probes (throw e : Parser α) :=
  fun s => .refl s

theorem bind (h : Probes p) (hf : ∀ a, Probes (f a)) : Probes (p >>= f) := by
  intro s
  have hp := h s
  rw [run_bind]
  revert hp
  rcases p.run.run s with ⟨e | a, s'⟩
  · exact id
  · exact fun hp => hp.trans (hf a s')

theorem get {f : ParserState → Parser β} (h : ∀ s, Probes (f s)) :
    Probes (MonadState.get >>= f) :=
  fun s => h s s

theorem ite {c : Prop} [Decidable c] (hp : Probes p) (hq : Probes q) :
    Probes (if c then p else q) := by
  split
  exacts [hp, hq]

/-- The continuation `f` behind the branches of a choice. -/
theorem join {c : Prop} [Decidable c] (hp : Probes p) (hq : Probes q) (hf : ∀ a, Probes (f a)) :
    Probes (have next := f; if c then p >>= next else q >>= next) :=
  ite (hp.bind hf) (hq.bind hf)

theorem lift {p : Reader α} (h : Reader.Probes p) : Probes (liftM p : Parser α) :=
  h

/-- A reader and then the parser `f` of its value. -/
theorem andThen {p : Reader α} (h : Reader.Probes p) (hf : ∀ a, Probes (f a)) :
    Probes (liftM p >>= f) :=
  (lift h).bind hf

theorem map {g : α → β} (h : Probes p) : Probes (g <$> p) := by
  rw [map_eq_pure_bind]
  exact h.bind fun _ => pure

theorem discard (h : Probes p) : Probes (Functor.discard p) :=
  map h

/-- A loop only probes if each round does. -/
theorem loop {round : σ → Parser (Round σ α)} (h : ∀ x, Probes (round x)) (x : σ) :
    Probes (loopOrFail round x) := by
  refine Reader.Probes.loop (fun y => ?_) x
  refine Reader.Probes.bind (h y) fun r => ?_
  rcases r with e | (z | a) <;> exact .pure

end Parser.Probes

namespace Parser

/-! ## Single tokens -/

theorem advance_probes : Reader.Probes advance :=
  fun s => .advance s

theorem advanceBy_probes (n : Nat) : Reader.Probes (advanceBy n) :=
  .get fun _ => .ite (fun s => .advanceBy n s) (.fault _)

theorem textFrom_probes (start : Span) : Reader.Probes (textFrom start) := by
  refine .get fun _ => .get fun _ => ?_
  split
  · exact .pure
  · exact (Reader.Probes.fault _).bind fun _ => .pure

theorem failAt_probes {kind : ParseErrorKind} {what : String} :
    Probes (failAt kind what : Parser α) :=
  .get fun _ => .throw

theorem eat_probes {kind : TokenKind} : Reader.Probes (eat kind) :=
  .get fun _ => .ite (advance_probes.discard.bind fun _ => .pure) .pure

theorem expect_probes {kind : TokenKind} : Probes (expect kind) :=
  .get fun _ => .ite (.lift advance_probes) failAt_probes

theorem ident_probes : Probes ident :=
  .get fun _ => .ite (.andThen advance_probes fun _ => .pure) failAt_probes

theorem commaSeparated_probes {item : Parser α} (h : Probes item) : Probes (commaSeparated item) :=
  .loop (fun _ => h.bind fun _ => .andThen eat_probes fun _ => .ite .pure .pure) _

/-! ## Names and types -/

theorem nameAlias_probes : Probes nameAlias :=
  .get fun _ => .ite (ident_probes.bind fun _ =>
    (Probes.lift advance_probes).discard.bind fun _ => .pure) .pure

section
variable {type : Parser TypeSyntax} (h : Probes type)
include h

theorem typeArgumentsWith_probes : Probes (typeArgumentsWith type) := by
  refine expect_probes.discard.bind fun _ => .get fun _ => ?_
  exact .join .pure (commaSeparated_probes h) fun _ => expect_probes.discard.bind fun _ => .pure

theorem nameSegmentWith_probes : Probes (nameSegmentWith type) :=
  ident_probes.bind fun _ => .get fun _ =>
    .join (typeArgumentsWith_probes h) .pure fun _ => .pure

theorem segmentAndDot_probes (segments : List NameSegment) :
    Probes (segmentAndDot type segments) :=
  (nameSegmentWith_probes h).bind fun _ => .get fun _ =>
    .ite ((Probes.lift advance_probes).discard.bind fun _ => .pure) .pure

theorem nameWith_probes : Probes (nameWith type) :=
  .get fun _ => nameAlias_probes.bind fun _ => (Probes.loop (segmentAndDot_probes h) _).bind fun _ =>
    .andThen (textFrom_probes _) fun _ => .get fun _ => .pure

theorem tupleElementWith_probes : Probes (tupleElementWith type) :=
  h.bind fun _ => .get fun _ => .join (.map ident_probes) .pure fun _ => .pure

theorem tupleWith_probes : Probes (tupleWith type) := by
  refine expect_probes.discard.bind fun _ => ?_
  refine (commaSeparated_probes (tupleElementWith_probes h)).bind fun _ => ?_
  refine expect_probes.discard.bind fun _ => ?_
  split
  · exact .get fun _ => Probes.throw.bind fun _ => .pure
  · exact .pure

theorem typeBaseWith_probes : Probes (typeBaseWith type) := by
  refine .get fun _ => .ite ?_ (.ite ?_ (.ite ?_ failAt_probes))
  · exact (Probes.lift advance_probes).discard.bind fun _ => .pure
  · exact (tupleWith_probes h).bind fun _ => .pure
  · exact (nameWith_probes h).bind fun _ => .pure

end

theorem rank_probes : Probes rank :=
  (Probes.lift advance_probes).discard.bind fun _ => .get fun _ =>
    .andThen (advanceBy_probes _) fun _ => expect_probes.discard.bind fun _ => .pure

theorem typeSuffix?_probes (t : TypeSyntax) : Probes (typeSuffix? t) := by
  refine .get fun _ => .ite ?_ (.ite ?_ (.ite ?_ .pure))
  · exact (Probes.lift advance_probes).discard.bind fun _ => .pure
  · exact (Probes.lift advance_probes).discard.bind fun _ => .pure
  · exact rank_probes.bind fun _ => .pure

theorem typeFrom_probes (start : Span) (shape : TypeShape) : Reader.Probes (typeFrom start shape) :=
  (textFrom_probes start).bind fun _ => .get fun _ => .pure

theorem suffixAt_probes (start : Span) (t : TypeSyntax) : Probes (suffixAt start t) := by
  refine (typeSuffix?_probes t).bind fun shape? => ?_
  cases shape? with
  | some shape => exact .andThen (typeFrom_probes start shape) fun _ => .pure
  | none => exact .pure

theorem typeWith_probes {type : Parser TypeSyntax} (h : Probes type) : Probes (typeWith type) :=
  .get fun _ => (typeBaseWith_probes h).bind fun _ =>
    .andThen (typeFrom_probes _ _) fun _ => .loop (suffixAt_probes _) _

/-- **Types of each depth are read without recording an error.** -/
theorem typeWithin_probes (depth : Nat) : Probes (typeWithin depth) := by
  induction depth with
  | zero => exact Reader.Probes.stall
  | succ depth ih => exact typeWith_probes ih

theorem type_probes : Probes type :=
  .andThen (.get fun _ => .pure) fun _ => typeWithin_probes _

theorem name_probes : Probes name :=
  .andThen (.get fun _ => .pure) fun _ => nameWith_probes (typeWithin_probes _)

theorem typeArguments_probes : Probes typeArguments :=
  .andThen (.get fun _ => .pure) fun _ => typeArgumentsWith_probes (typeWithin_probes _)

/-! ## Types that are tried -/

variable {s : ParserState}

theorem type?_probes : Reader.Probes type? := by
  intro s
  have hp := type_probes s
  rcases hx : type.run.run s with ⟨e | t, s'⟩
  · rw [hx] at hp
    rw [type?_run hx]
    exact hp.returnTo
  · rw [hx] at hp
    rw [type?_run hx]
    exact hp

/-- Where no type is found, the place is the old one. -/
theorem type?_stays (h : (type?.run s).1 = none) : s.StaysAt (type?.run s).2 := by
  have hp := type_probes s
  rcases hx : type.run.run s with ⟨e | t, s'⟩
  · rw [hx] at hp
    rw [type?_run hx]
    exact hp.staysAt
  · rw [type?_run hx] at h
    cases h

theorem declaresMember_stays : s.StaysAt (declaresMember.run s).2 :=
  ((Probes.advance s).trans (type?_probes s.advance)).staysAt

/-- **A word is told to be a modifier or a name without leaving it.** -/
theorem isContextualModifier_stays : s.StaysAt (isContextualModifier.run s).2 := by
  rw [isContextualModifier, Reader.run_bind, Reader.run_get]
  dsimp only
  split
  · split
    · exact .refl s
    · exact declaresMember_stays
  · exact .refl s

/-- In a text nothing at all is left behind. -/
theorem eq_of_staysAt {source : List Char} {p : Reader α} {R : α → Nat → Prop} (hs : s.Good source)
    (hp : Reader.Safe source s p R) (h : s.StaysAt (p.run s).2) : (p.run s).2 = s := by
  obtain ⟨k, hk, -⟩ := hp hs
  exact h.eq_of_faults hk.faults_eq

/-- **Types are tried silently.**  Whatever the tokens are, reading a type, a name or type
    arguments goes ahead among them and records no error, whether it succeeds or fails; where no
    type is found, the place is the old one; and a word is told to be a modifier or a name without
    leaving it.  In a text, the state as a whole is the old one then. -/
theorem types_tried_silently (s : ParserState) :
    s.Probes (type.run.run s).2 ∧ s.Probes (name.run.run s).2 ∧
    s.Probes (typeArguments.run.run s).2 ∧ s.Probes (type?.run s).2 ∧
    ((type?.run s).1 = none → s.StaysAt (type?.run s).2) ∧
    s.StaysAt (isContextualModifier.run s).2 ∧
    ∀ source, s.Good source → (isContextualModifier.run s).2 = s ∧
      ((type?.run s).1 = none → (type?.run s).2 = s) :=
  ⟨type_probes s, name_probes s, typeArguments_probes s, type?_probes s, type?_stays,
    isContextualModifier_stays, fun _ hs => ⟨eq_of_staysAt hs isContextualModifier_safe
      isContextualModifier_stays, fun h => eq_of_staysAt hs type?_safe (type?_stays h)⟩⟩

/-- Behind the word eleven tokens are read as a type, and then its last bracket is missing. -/
theorem types_tried_silently_unclosed :
    let s := ParserState.ofText "async Task<A, (B, C[]) x"
    s.Good s.source ∧ s.advance.Good s.source ∧ (type.run.run s.advance).1.isOk = false ∧
      (type.run.run s.advance).2.place = s.advance.place + 11 ∧
      s.advance.Probes (type.run.run s.advance).2 ∧ (type?.run s.advance).1 = none ∧
      (type?.run s.advance).2 = s.advance ∧ (isContextualModifier.run s).2 = s := by
  intro s
  have hs : s.Good s.source := ofText_good _
  have hne : s.peek.kind ≠ .eof := by decide +kernel
  obtain ⟨k, hk, -⟩ := advance_consumes hne hs
  have hs' : s.advance.Good s.source := hk.good hs
  obtain ⟨hok, hplace, hnone⟩ : (type.run.run s.advance).1.isOk = false ∧
      (type.run.run s.advance).2.place = s.advance.place + 11 ∧
        (type?.run s.advance).1.isNone = true := by
    decide +kernel
  obtain ⟨hprobes, -, -, -, -, -, hstill⟩ := types_tried_silently s.advance
  have hnone := Option.isNone_iff_eq_none.1 hnone
  exact ⟨hs, hs', hok, hplace, hprobes, hnone, (hstill _ hs').2 hnone,
    ((types_tried_silently s).2.2.2.2.2.2 _ hs).1⟩

end Parser

end CommandModules

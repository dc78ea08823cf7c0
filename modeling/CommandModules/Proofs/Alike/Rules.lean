/-
  Command modules — readers that see no places.

  * `ParserState.Alike s t`: the states differ only in the places of their tokens,
    in the source and in the faults; what readers look at is the same in both;
  * `Reader.Alike p q`: from such states `p` and `q` come to such states again, with
    values that differ in places and verbatim texts only; `Parser.Alike p q` says it
    of parsers, which succeed or fail together;
  * both have a rule for each way of composing readers and parsers.
-/
import CommandModules.Proofs.Alike.Erase

namespace CommandModules

variable {α β σ : Type}

/-! ## States -/

theorem kind_eq_of_erase {t u : Token} (h : erase t = erase u) : t.kind = u.kind := by
  rw [← kind_erase, h, kind_erase]

theorem lexeme_eq_of_erase {t u : Token} (h : erase t = erase u) : t.lexeme = u.lexeme := by
  rw [← lexeme_erase, h, lexeme_erase]

namespace ParserState

/-- Do the states agree but for places? -/
def Alike (s t : ParserState) : Prop :=
  erase s = erase t

theorem erase_mk (source : List Char) (before after : List Token) (eof : Token)
    (errors : List ParseError) (faults : List Fault) :
    erase (⟨source, before, after, eof, errors, faults⟩ : ParserState) =
      ⟨[], erase before, erase after, erase eof, erase errors, []⟩ := rfl

theorem erase_peekAt (s : ParserState) (n : Nat) : (erase s).peekAt n = erase (s.peekAt n) := by
  show ((s.after.map erase)[n]?).getD (erase s.eof) = erase (s.after[n]?.getD s.eof)
  rw [List.getElem?_map, Option.getD_map]

theorem erase_peek (s : ParserState) : (erase s).peek = erase s.peek := by
  show (s.after.map erase).head?.getD (erase s.eof) = erase (s.after.head?.getD s.eof)
  rw [List.head?_map, Option.getD_map]

namespace Alike

variable {s t : ParserState} (h : s.Alike t)
include h

theorem before_eq : erase s.before = erase t.before := congrArg ParserState.before h
theorem after_eq : erase s.after = erase t.after := congrArg ParserState.after h
theorem eof_eq : erase s.eof = erase t.eof := congrArg ParserState.eof h
theorem errors_eq : erase s.errors = erase t.errors := congrArg ParserState.errors h

theorem peekAt_eq (n : Nat) : erase (s.peekAt n) = erase (t.peekAt n) := by
  rw [← erase_peekAt, ← erase_peekAt, h]

theorem peek_eq : erase s.peek = erase t.peek := by
  rw [← erase_peek, ← erase_peek, h]

theorem peekAt_kind (n : Nat) : (s.peekAt n).kind = (t.peekAt n).kind :=
  kind_eq_of_erase (h.peekAt_eq n)

theorem peek_kind : s.peek.kind = t.peek.kind :=
  kind_eq_of_erase h.peek_eq

theorem peek_lexeme : s.peek.lexeme = t.peek.lexeme :=
  lexeme_eq_of_erase h.peek_eq

theorem peek_isContextual (word : String) : s.peek.isContextual word = t.peek.isContextual word := by
  rw [Token.isContextual, Token.isContextual, h.peek_kind, h.peek_lexeme]

theorem peekAt_isContextual (n : Nat) (word : String) :
    (s.peekAt n).isContextual word = (t.peekAt n).isContextual word := by
  rw [Token.isContextual, Token.isContextual, h.peekAt_kind, lexeme_eq_of_erase (h.peekAt_eq n)]

theorem isAt (kind : TokenKind) : s.isAt kind = t.isAt kind := by
  rw [ParserState.isAt, ParserState.isAt, h.peek_kind]

theorem isAtMark (mark : Punct) : s.isAtMark mark = t.isAtMark mark := h.isAt (.punct mark)

theorem isAtEof : s.isAtEof = t.isAtEof := h.isAt .eof

theorem after_length : s.after.length = t.after.length := by
  rw [← length_erase, h.after_eq, length_erase]

theorem place_eq : s.place = t.place := by
  rw [place, place, ← length_erase, h.before_eq, length_erase]

end Alike

end ParserState

/-! ## Readers -/

instance [Erase α] : Erase (Except ParseError α) where
  erase
    | .ok a => .ok (erase a)
    | .error e => .error (erase e)

instance [Erase σ] [Erase α] : Erase (Round σ α) where
  erase
    | .next x => .next (erase x)
    | .done a => .done (erase a)

section
variable [Erase α] [Erase β] [Erase σ]

@[simp] theorem erase_ok (a : α) : erase (.ok a : Except ParseError α) = .ok (erase a) := rfl

@[simp] theorem erase_error (e : ParseError) :
    erase (.error e : Except ParseError α) = .error (erase e) := rfl

@[simp] theorem erase_next (x : σ) : erase (.next x : Round σ α) = .next (erase x) := rfl

@[simp] theorem erase_done (a : α) : erase (.done a : Round σ α) = .done (erase a) := rfl

theorem Except.cases_of_erase {r r' : Except ParseError α} (h : erase r = erase r') :
    (∃ a b, r = .ok a ∧ r' = .ok b ∧ erase a = erase b) ∨
      ∃ e e', r = .error e ∧ r' = .error e' ∧ erase e = erase e' := by
  cases r <;> cases r'
  · exact .inr ⟨_, _, rfl, rfl, Except.error.inj h⟩
  · cases h
  · cases h
  · exact .inl ⟨_, _, rfl, rfl, Except.ok.inj h⟩

theorem Round.cases_of_erase {r r' : Round σ α} (h : erase r = erase r') :
    (∃ x y, r = .next x ∧ r' = .next y ∧ erase x = erase y) ∨
      ∃ a b, r = .done a ∧ r' = .done b ∧ erase a = erase b := by
  cases r <;> cases r'
  · exact .inl ⟨_, _, rfl, rfl, Round.next.inj h⟩
  · cases h
  · cases h
  · exact .inr ⟨_, _, rfl, rfl, Round.done.inj h⟩

/-- From states that are alike, the readers come to states that are alike, with
    values that differ in places only. -/
def Reader.Alike (p q : Reader α) : Prop :=
  ∀ s t : ParserState, s.Alike t →
    erase (p.run s).1 = erase (q.run t).1 ∧ (p.run s).2.Alike (q.run t).2

/-- The same of parsers, which succeed or fail together. -/
def Parser.Alike (p q : Parser α) : Prop :=
  Reader.Alike p.run q.run

namespace Reader.Alike

variable {p q p' q' : Reader α} {f g : α → Reader β}

theorem pure {a b : α} (h : erase a = erase b) : Alike (Pure.pure a) (Pure.pure b) :=
  fun _ _ hs => ⟨h, hs⟩

theorem bind (h : Alike p q) (hf : ∀ a b, erase a = erase b → Alike (f a) (g b)) :
    Alike (p >>= f) (q >>= g) := by
  intro s t hs
  obtain ⟨ha, hs'⟩ := h s t hs
  exact hf _ _ ha _ _ hs'

theorem get {f g : ParserState → Reader β} (h : ∀ s t, s.Alike t → Alike (f s) (g t)) :
    Alike (MonadState.get >>= f) (MonadState.get >>= g) :=
  fun s t hs => h s t hs s t hs

theorem change {f g : ParserState → ParserState} (h : ∀ s t, s.Alike t → (f s).Alike (g t)) :
    Alike (modify f : Reader Unit) (modify g) :=
  fun s t hs => ⟨rfl, h s t hs⟩

theorem map {f g : α → β} (h : Alike p q) (hf : ∀ a b, erase a = erase b → erase (f a) = erase (g b)) :
    Alike (f <$> p) (g <$> q) := by
  intro s t hs
  obtain ⟨ha, hs'⟩ := h s t hs
  exact ⟨hf _ _ ha, hs'⟩

theorem discard (h : Alike p q) : Alike (Functor.discard p) (Functor.discard q) :=
  h.map fun _ _ _ => rfl

theorem ite {c d : Prop} [Decidable c] [Decidable d] (hc : c ↔ d) (h : Alike p q)
    (h' : Alike p' q') : Alike (if c then p else p') (if d then q else q') := by
  by_cases hd : d
  · rwa [if_pos (hc.2 hd), if_pos hd]
  · rwa [if_neg (mt hc.1 hd), if_neg hd]

/-- The continuations behind the branches of a choice. -/
theorem join {c d : Prop} [Decidable c] [Decidable d] (hc : c ↔ d) (h : Alike p q)
    (h' : Alike p' q') (hf : ∀ a b, erase a = erase b → Alike (f a) (g b)) :
    Alike (have next := f; if c then p >>= next else p' >>= next)
      (have next := g; if d then q >>= next else q' >>= next) :=
  ite hc (h.bind hf) (h'.bind hf)

/-- The continuations behind a step that is taken under a condition only. -/
theorem after {c d : Prop} [Decidable c] [Decidable d] {p q : Reader Unit} {f g : Unit → Reader β}
    (hc : c ↔ d) (h : Alike p q) (hf : Alike (f ()) (g ())) :
    Alike (have next := f; if c then p >>= next else next ())
      (have next := g; if d then q >>= next else next ()) :=
  ite hc (h.bind fun _ _ _ => hf) hf

end Reader.Alike

/-! ## Parsers -/

namespace Parser.Alike

variable {p q p' q' : Parser α} {f g : α → Parser β}

theorem pure {a b : α} (h : erase a = erase b) : Alike (Pure.pure a) (Pure.pure b) :=
  Reader.Alike.pure (by rw [erase_ok, erase_ok, h])

theorem throw {e e' : ParseError} (h : erase e = erase e') :
    Alike (MonadExcept.throw e : Parser α) (MonadExcept.throw e') :=
  Reader.Alike.pure (by rw [erase_error, erase_error, h])

theorem bind (h : Alike p q) (hf : ∀ a b, erase a = erase b → Alike (f a) (g b)) :
    Alike (p >>= f) (q >>= g) := by
  rw [Alike, ExceptT.run_bind, ExceptT.run_bind]
  refine Reader.Alike.bind h fun r r' hr => ?_
  obtain ⟨a, b, rfl, rfl, hab⟩ | ⟨e, e', rfl, rfl, he⟩ := Except.cases_of_erase hr
  · exact hf a b hab
  · exact Reader.Alike.pure (by rw [erase_error, erase_error, he])

theorem get {f g : ParserState → Parser β} (h : ∀ s t, s.Alike t → Alike (f s) (g t)) :
    Alike (MonadState.get >>= f) (MonadState.get >>= g) :=
  fun s t hs => h s t hs s t hs

theorem lift {p q : Reader α} (h : Reader.Alike p q) :
    Alike (liftM p : Parser α) (liftM q : Parser α) := by
  intro s t hs
  obtain ⟨ha, hs'⟩ := h s t hs
  exact ⟨congrArg Except.ok ha, hs'⟩

/-- Readers and then the parsers of their values. -/
theorem andThen {p q : Reader α} (h : Reader.Alike p q)
    (hf : ∀ a b, erase a = erase b → Alike (f a) (g b)) : Alike (liftM p >>= f) (liftM q >>= g) :=
  (lift h).bind hf

theorem map {f g : α → β} (h : Alike p q)
    (hf : ∀ a b, erase a = erase b → erase (f a) = erase (g b)) : Alike (f <$> p) (g <$> q) := by
  rw [Alike, ExceptT.run_map, ExceptT.run_map]
  refine Reader.Alike.map h fun r r' hr => ?_
  obtain ⟨a, b, rfl, rfl, hab⟩ | ⟨e, e', rfl, rfl, he⟩ := Except.cases_of_erase hr
  · exact congrArg Except.ok (hf a b hab)
  · exact congrArg Except.error he

theorem discard (h : Alike p q) : Alike (Functor.discard p) (Functor.discard q) :=
  h.map fun _ _ _ => rfl

theorem ite {c d : Prop} [Decidable c] [Decidable d] (hc : c ↔ d) (h : Alike p q)
    (h' : Alike p' q') : Alike (if c then p else p') (if d then q else q') := by
  by_cases hd : d
  · rwa [if_pos (hc.2 hd), if_pos hd]
  · rwa [if_neg (mt hc.1 hd), if_neg hd]

/-- The continuations behind the branches of a choice. -/
theorem join {c d : Prop} [Decidable c] [Decidable d] (hc : c ↔ d) (h : Alike p q)
    (h' : Alike p' q') (hf : ∀ a b, erase a = erase b → Alike (f a) (g b)) :
    Alike (have next := f; if c then p >>= next else p' >>= next)
      (have next := g; if d then q >>= next else q' >>= next) :=
  ite hc (h.bind hf) (h'.bind hf)

/-- The continuations behind a step that is taken under a condition only. -/
theorem after {c d : Prop} [Decidable c] [Decidable d] {p q : Parser Unit} {f g : Unit → Parser β}
    (hc : c ↔ d) (h : Alike p q) (hf : Alike (f ()) (g ())) :
    Alike (have next := f; if c then p >>= next else next ())
      (have next := g; if d then q >>= next else next ()) :=
  ite hc (h.bind fun _ _ _ => hf) hf

end Parser.Alike

/-! ## Loops -/

namespace Parser

theorem stall_alike [Inhabited α] : Reader.Alike (stall : Reader α) stall :=
  fun _ _ hs => ⟨rfl, hs⟩

theorem rounds_alike : Reader.Alike rounds rounds :=
  .get fun _ _ h => .pure (by rw [h.after_length])

theorem loopWithin_alike [Inhabited α] {round round' : σ → Reader (Round σ α)}
    (h : ∀ x y, erase x = erase y → Reader.Alike (round x) (round' y)) (fuel : Nat) {x y : σ}
    (hx : erase x = erase y) : Reader.Alike (loopWithin round fuel x) (loopWithin round' fuel y) := by
  induction fuel generalizing x y with
  | zero => exact stall_alike
  | succ fuel ih =>
    refine .get fun s t hs => (h x y hx).bind fun r r' hr => ?_
    obtain ⟨x', y', rfl, rfl, hxy⟩ | ⟨a, b, rfl, rfl, hab⟩ := Round.cases_of_erase hr
    · refine .get fun s' t' hs' => .ite ?_ (ih hxy) stall_alike
      rw [hs.after_length, hs'.after_length]
    · exact .pure hab

theorem loop_alike [Inhabited α] {round round' : σ → Reader (Round σ α)}
    (h : ∀ x y, erase x = erase y → Reader.Alike (round x) (round' y)) {x y : σ}
    (hx : erase x = erase y) : Reader.Alike (loop round x) (loop round' y) :=
  rounds_alike.bind fun _ _ hn => by
    obtain rfl : _ = _ := hn
    exact loopWithin_alike h _ hx

theorem loopOrFail_alike {round round' : σ → Parser (Round σ α)}
    (h : ∀ x y, erase x = erase y → Parser.Alike (round x) (round' y)) {x y : σ}
    (hx : erase x = erase y) : Parser.Alike (loopOrFail round x) (loopOrFail round' y) := by
  refine loop_alike (fun x y hxy => ?_) hx
  refine Reader.Alike.bind (h x y hxy) fun r r' hr => ?_
  obtain ⟨r, r', rfl, rfl, hrr⟩ | ⟨e, e', rfl, rfl, he⟩ := Except.cases_of_erase hr
  · obtain ⟨x', y', rfl, rfl, hxy⟩ | ⟨a, b, rfl, rfl, hab⟩ := Round.cases_of_erase hrr
    · exact .pure (by rw [erase_next, erase_next, hxy])
    · exact .pure (by rw [erase_done, erase_done, erase_ok, erase_ok, hab])
  · exact .pure (by rw [erase_done, erase_done, erase_error, erase_error, he])

end Parser

end

end CommandModules

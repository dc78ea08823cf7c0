/-
  Command modules — nested groups of tokens.

  * `openBehind? marks ts`: the marks that are open behind the tokens `ts`, innermost
    first, where those in `marks` were open before; there are none if a mark closes
    nothing or the wrong one;
  * `Nested ts`: every mark closes the innermost open one, and none is left open;
  * `Group.take_nested`: `Group.take` goes through nested tokens and records nothing;
  * `Group.nested_of_take`: where it records nothing, it has taken nested tokens;
  * `Keeps ts`: the tokens are nested up to parentheses and brackets among them, so
    that the braces around them stay open.
-/
import CommandModules.Proofs.Alike.Erase
import CommandModules.Syntax.Group

namespace CommandModules

/-! ## Nested tokens -/

/-- The marks that are open behind a token, if it closes the innermost of those
    open before it or none. -/
def Token.openBehind? (marks : List Punct) (t : Token) : Option (List Punct) :=
  match t.kind with
  | .punct p =>
    if p.isOpener then some (p :: marks)
    else if p.isCloser then
      match marks with
      | [] => none
      | mark :: outer => if mark.closer = p then some outer else none
    else some marks
  | _ => some marks

/-- The marks that are open behind tokens. -/
def openBehind? (marks : List Punct) : List Token → Option (List Punct)
  | [] => some marks
  | t :: ts => (t.openBehind? marks).bind fun behind => openBehind? behind ts

/-- Every closing mark closes the innermost open one, and no mark is left open. -/
def Nested (ts : List Token) : Prop :=
  openBehind? [] ts = some []

instance (ts : List Token) : Decidable (Nested ts) :=
  inferInstanceAs (Decidable (openBehind? [] ts = some []))

section
variable {marks behind outer : List Punct} {t : Token} {ts us : List Token} {p : Punct}

/-- A token that opens or closes no group. -/
def Token.isFlat (t : Token) : Bool :=
  match t.kind with
  | .punct p => !p.isOpener && !p.isCloser
  | _ => true

theorem Token.isFlat_of_kind (h : ∀ p, t.kind = .punct p → p.isOpener = false ∧ p.isCloser = false) :
    t.isFlat = true := by
  unfold isFlat
  split
  · rename_i p hp
    simp [h p hp]
  · rfl

theorem Token.openBehind?_flat (h : t.isFlat = true) : t.openBehind? marks = some marks := by
  unfold isFlat at h
  unfold openBehind?
  split at h <;> simp_all

theorem openBehind?_append : openBehind? marks (ts ++ us) =
    (openBehind? marks ts).bind fun behind => openBehind? behind us := by
  induction ts generalizing marks with
  | nil => rfl
  | cons t ts ih =>
    rw [List.cons_append, openBehind?, openBehind?, Option.bind_assoc]
    simp only [ih]

/-- Marks that are open further outside change nothing. -/
theorem Token.openBehind?_outer (h : t.openBehind? marks = some behind) (outer : List Punct) :
    t.openBehind? (marks ++ outer) = some (behind ++ outer) := by
  unfold openBehind? at h ⊢
  cases marks <;> split at h <;> grind

theorem openBehind?_outer (h : openBehind? marks ts = some behind) (outer : List Punct) :
    openBehind? (marks ++ outer) ts = some (behind ++ outer) := by
  induction ts generalizing marks with
  | nil => simpa [openBehind?] using h
  | cons t ts ih =>
    obtain ⟨m, hm, h⟩ := Option.bind_eq_some_iff.1 h
    rw [openBehind?, Token.openBehind?_outer hm, Option.bind_some, ih h]

theorem openBehind?_erase : openBehind? marks (erase ts) = openBehind? marks ts := by
  induction ts generalizing marks with
  | nil => rfl
  | cons t ts ih =>
    rw [erase_cons, openBehind?, openBehind?]
    simp only [ih]
    rfl

theorem nested_erase : Nested (erase ts) ↔ Nested ts := by
  rw [Nested, Nested, openBehind?_erase]

namespace Nested

theorem nil : Nested [] := rfl

theorem openBehind (h : Nested ts) : openBehind? marks ts = some marks := by
  simpa using openBehind?_outer h marks

theorem append (h : Nested ts) (h' : Nested us) : Nested (ts ++ us) := by
  rw [Nested, openBehind?_append, h, Option.bind_some]
  exact h'

theorem one (h : t.isFlat = true) : Nested [t] := by
  rw [Nested, openBehind?, Token.openBehind?_flat h]
  rfl

theorem cons (h : t.isFlat = true) (h' : Nested ts) : Nested (t :: ts) :=
  (one h).append h'

theorem of_forall (h : ∀ t ∈ ts, t.isFlat = true) : Nested ts := by
  induction ts with
  | nil => exact .nil
  | cons t ts ih => exact .cons (h t (by simp)) (ih fun u hu => h u (by simp [hu]))

/-- A group. -/
theorem group {opener closer : Token} (ho : opener.kind = .punct p) (hp : p.isOpener = true)
    (hc : closer.kind = .punct p.closer) (h : Nested ts) : Nested (opener :: (ts ++ [closer])) := by
  have ho' : opener.openBehind? [] = some [p] := by
    simp [Token.openBehind?, ho, hp]
  have hc' : closer.openBehind? [p] = some [] := by
    have : p.closer.isOpener = false ∧ p.closer.isCloser = true := by cases p <;> decide
    simp [Token.openBehind?, hc, this]
  rw [Nested, openBehind?, ho', Option.bind_some, openBehind?_append, h.openBehind, Option.bind_some,
    openBehind?, hc']
  rfl

end Nested

end

/-! ## Groups -/

namespace Group

variable {eof : Token} {marks behind outer : List Punct} {t : Token} {ts rest : List Token}

/-- The group goes on behind the tokens `ts`. -/
def after (ts : List Token) (g : Group) : Group :=
  ⟨ts ++ g.taken, g.rest, g.errors⟩

/-- Where a token closes what it should, no error is recorded. -/
theorem openBehind_eq (h : t.openBehind? marks = some behind) : openBehind t marks = (behind, []) := by
  unfold Token.openBehind? at h
  unfold openBehind
  cases marks <;> split at h <;> simp_all <;> grind

theorem openBehind_errors (h : (openBehind t marks).2 = []) (hm : marks ≠ []) :
    t.openBehind? marks = some (openBehind t marks).1 := by
  unfold openBehind at h ⊢
  unfold Token.openBehind?
  cases marks <;> split <;> grind

/-- As long as marks are open outside, the group goes on behind tokens that close
    what they should. -/
theorem take_append_of_open (h : openBehind? marks ts = some behind) (ho : outer ≠ []) :
    take eof (marks ++ outer) (ts ++ rest) = (take eof (behind ++ outer) rest).after ts := by
  induction ts generalizing marks with
  | nil =>
    obtain rfl : marks = behind := by simpa [openBehind?] using h
    rfl
  | cons t ts ih =>
    obtain ⟨m, hm, h⟩ := Option.bind_eq_some_iff.1 h
    have := openBehind_eq (Token.openBehind?_outer hm outer)
    rw [List.cons_append, take, this]
    simp [ho, ih h, after]

theorem take_append_of_nested (h : Nested ts) (hm : marks ≠ []) :
    take eof marks (ts ++ rest) = (take eof marks rest).after ts :=
  take_append_of_open (show openBehind? [] ts = some [] from h) hm

/-- Behind a mark that opens a group, the group goes on inside. -/
theorem take_opener {opener : Token} {p : Punct} (ho : opener.kind = .punct p)
    (hp : p.isOpener = true) :
    take eof marks (opener :: ts) = (take eof (p :: marks) ts).after [opener] := by
  have ho' : openBehind opener marks = (p :: marks, []) := by
    simp [openBehind, ho, hp]
  rw [take, ho']
  rfl

/-- **A group is taken whole**: the tokens in it are nested, and its last mark closes
    the first one. -/
theorem take_nested {opener closer : Token} {p : Punct} (ho : opener.kind = .punct p)
    (hp : p.isOpener = true) (hc : closer.kind = .punct p.closer) (h : Nested ts) :
    take eof [] (opener :: (ts ++ closer :: rest)) = ⟨opener :: (ts ++ [closer]), rest, []⟩ := by
  have hc' : openBehind closer [p] = ([], []) := by
    have : p.closer.isOpener = false ∧ p.closer.isCloser = true := by cases p <;> decide
    simp [openBehind, hc, this]
  rw [take_opener ho hp]
  simp [take_append_of_nested h, take, hc', after]

/-- Where nothing is recorded, what is taken closes the marks that were open. -/
theorem openBehind?_take (h : (take eof marks ts).errors = []) (hm : marks ≠ []) :
    openBehind? marks (take eof marks ts).taken = some [] := by
  induction ts generalizing marks with
  | nil =>
    obtain ⟨m, marks, rfl⟩ := List.exists_cons_of_ne_nil hm
    simp [take] at h
  | cons t ts ih =>
    rw [take] at h ⊢
    dsimp only at h ⊢
    split at h
    · rename_i hb
      have := openBehind_errors h hm
      simp [hb, openBehind?, this]
    · rename_i hb
      rw [if_neg hb]
      obtain ⟨h₁, h₂⟩ := List.append_eq_nil_iff.1 h
      have := openBehind_errors h₁ hm
      rw [openBehind?, this, Option.bind_some]
      exact ih h₂ hb

/-- **Where nothing is recorded, the tokens taken are nested**, unless they begin
    with a mark that closes a group. -/
theorem nested_of_take (h : (take eof [] (t :: ts)).errors = [])
    (hc : ∀ p, t.kind = .punct p → p.isCloser = false) :
    Nested (take eof [] (t :: ts)).taken := by
  have ho : t.openBehind? [] = some (openBehind t []).1 := by
    unfold openBehind Token.openBehind?
    split <;> grind
  rw [take] at h ⊢
  dsimp only at h ⊢
  split at h
  · rename_i hb
    rw [if_pos hb, Nested, openBehind?, ho, hb]
    rfl
  · rename_i hb
    rw [if_neg hb, Nested, openBehind?, ho]
    exact openBehind?_take (List.append_eq_nil_iff.1 h).2 hb

end Group

/-! ## Tokens that keep braces open -/

/-- Is the token a brace? -/
def Token.isBrace (t : Token) : Bool :=
  t.kind == .punct .leftBrace || t.kind == .punct .rightBrace

/-- No mark among them is closed by a brace. -/
def InBraces (marks : List Punct) : Prop :=
  ∀ m ∈ marks, m.closer ≠ .rightBrace

/-- The tokens are nested but for single ones among them, which are no braces. -/
inductive Keeps : List Token → Prop
  | nil : Keeps []
  | nested {ts us} : Nested ts → Keeps us → Keeps (ts ++ us)
  | token {t ts} : t.isBrace = false → Keeps ts → Keeps (t :: ts)

namespace Keeps

variable {eof t closer : Token} {marks outer : List Punct} {ts us rest : List Token}

theorem append (h : Keeps ts) (h' : Keeps us) : Keeps (ts ++ us) := by
  induction h with
  | nil => exact h'
  | nested hn _ ih => exact List.append_assoc .. ▸ .nested hn ih
  | token ht _ ih => exact .token ht ih

theorem erase (h : Keeps ts) : Keeps (Erase.erase ts) := by
  induction h with
  | nil => exact .nil
  | @nested ts us hn _ ih => exact erase_append ts us ▸ .nested (nested_erase.2 hn) ih
  | token ht _ ih => exact .token ht ih

theorem of_forall (h : ∀ t ∈ ts, t.isBrace = false) : Keeps ts := by
  induction ts with
  | nil => exact .nil
  | cons t ts ih => exact .token (h t (by simp)) (ih fun u hu => h u (by simp [hu]))

/-- A token that is no brace leaves the brace open around it. -/
theorem openBehind?_keeps {behind : List Punct} (ht : t.isBrace = false) (hm : InBraces marks)
    (h : t.openBehind? (marks ++ .leftBrace :: outer) = some behind) :
    ∃ inner, behind = inner ++ .leftBrace :: outer ∧ InBraces inner ∧
      t.openBehind? marks = some inner := by
  have hbrace (p : Punct) (hp : t.kind = .punct p) : p ≠ .leftBrace ∧ p ≠ .rightBrace := by
    simpa [Token.isBrace, hp] using ht
  unfold Token.openBehind? at h ⊢
  split at h
  · rename_i p hp
    obtain ⟨hl, hr⟩ := hbrace p hp
    split at h
    · rename_i ho
      rw [if_pos ho]
      refine ⟨p :: marks, by simpa using h.symm, ?_, rfl⟩
      rintro m (_ | ⟨_, hmem⟩)
      · cases p <;> simp_all [Punct.closer, Punct.isOpener]
      · exact hm m hmem
    rename_i ho
    rw [if_neg ho]
    split at h
    · rename_i hc
      rw [if_pos hc]
      cases marks with
      | nil => simp [Punct.closer, hr.symm] at h
      | cons mark marks =>
        simp only [List.cons_append] at h
        split at h
        · rename_i hcl
          dsimp only
          rw [if_pos hcl]
          exact ⟨marks, by simpa using h.symm, fun m hmem => hm m (by simp [hmem]), rfl⟩
        · cases h
    · rename_i hc
      rw [if_neg hc]
      exact ⟨marks, by simpa using h.symm, hm, rfl⟩
  · exact ⟨marks, by simpa using h.symm, hm, rfl⟩

theorem take_cons (ht : t.isBrace = false) (hm : InBraces marks)
    (h : (Group.take eof (marks ++ .leftBrace :: outer) (t :: rest)).errors = []) :
    ∃ behind, InBraces behind ∧ t.openBehind? marks = some behind ∧
      (Group.take eof (behind ++ .leftBrace :: outer) rest).errors = [] := by
  rw [Group.take] at h
  dsimp only at h
  have he : (Group.openBehind t (marks ++ .leftBrace :: outer)).2 = [] := by
    split at h
    · exact h
    · exact (List.append_eq_nil_iff.1 h).1
  obtain ⟨behind, hb, hne, ho⟩ :=
    openBehind?_keeps ht hm (Group.openBehind_errors he (by simp))
  refine ⟨behind, hne, ho, ?_⟩
  rw [hb] at h
  simpa [he] using h

/-- Tokens that keep braces open leave marks open that only they can close. -/
theorem take_keeps (hk : Keeps ts) (hm : InBraces marks)
    (h : (Group.take eof (marks ++ .leftBrace :: outer) (ts ++ rest)).errors = []) :
    ∃ behind, InBraces behind ∧ openBehind? marks ts = some behind ∧
      (Group.take eof (behind ++ .leftBrace :: outer) rest).errors = [] := by
  induction hk generalizing marks with
  | nil => exact ⟨marks, hm, rfl, h⟩
  | @nested ts us hn _ ih =>
    rw [List.append_assoc, Group.take_append_of_nested hn (by simp)] at h
    obtain ⟨behind, hb, ho, he⟩ := ih hm h
    exact ⟨behind, hb, by rw [openBehind?_append, hn.openBehind, Option.bind_some, ho], he⟩
  | @token t ts ht _ ih =>
    obtain ⟨m, hm', ho, h⟩ := take_cons ht hm h
    obtain ⟨behind, hb, ho', he⟩ := ih hm' h
    exact ⟨behind, hb, by rw [openBehind?, ho, Option.bind_some, ho'], he⟩

/-- **Tokens that keep braces open are nested** if the brace around them is closed
    behind nested tokens, and nothing is recorded. -/
theorem nested_of_take (hk : Keeps ts) (hu : Nested us) (hc : closer.kind = .punct .rightBrace)
    (h : (Group.take eof (.leftBrace :: outer) (ts ++ (us ++ closer :: rest))).errors = []) :
    Nested ts := by
  obtain ⟨behind, hb, ho, he⟩ := take_keeps hk (by nofun)
    (show (Group.take eof ([] ++ .leftBrace :: outer) _).errors = [] from h)
  rw [Group.take_append_of_nested hu (by simp)] at he
  cases behind with
  | nil => exact ho
  | cons mark behind =>
    -- the closing brace would have to close a parenthesis or a bracket
    have hcloser : (Group.openBehind closer (mark :: (behind ++ .leftBrace :: outer))).2 ≠ [] := by
      simp [Group.openBehind, hc, Punct.isOpener, Punct.isCloser, hb mark (by simp)]
    simp only [Group.after, List.cons_append, Group.take] at he
    split at he
    · exact absurd he hcloser
    · exact absurd (List.append_eq_nil_iff.1 he).1 hcloser

end Keeps

end CommandModules

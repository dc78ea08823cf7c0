/-
  Command modules — where entries end.

  A directive or a declaration that is read without errors ends with a semicolon or a closing
  brace, unless it is a namespace without braces.

  * `s.Finished n`: the token before `s` ends a declaration, and stands behind `n` others;
  * `Parser.Finishes good n f s p`: so it is where `p` ends, if its value is `good`; if `f` is set,
    only if it was so before;
  * `entries_finished`: so the last token of all entries ends one of them.
-/
import CommandModules.Proofs.Joined.Sequence

namespace CommandModules

open ParserState

variable {α β : Type} {n : Nat} {f : Bool} {s s' : ParserState}

/-- The token before this place ends a declaration, and stands behind `n` others. -/
def ParserState.Finished (n : Nat) (s : ParserState) : Prop :=
  ∃ t ts, s.before = t :: ts ∧ t.kind.endsDeclaration = true ∧ n ≤ ts.length

/-- Behind a token that ends a declaration. -/
theorem ParserState.finished_advance {kind : TokenKind} (he : s.eof.kind = .eof)
    (hat : s.isAt kind = true) (hk : kind.endsDeclaration = true) (hn : n ≤ s.place) :
    s.advance.Finished n := by
  have hpeek : s.peek.kind = kind := beq_iff_eq.1 hat
  cases ha : s.after with
  | nil =>
    rw [ParserState.peek, ha, List.head?_nil, Option.getD_none, he] at hpeek
    rw [← hpeek] at hk
    cases hk
  | cons t ts =>
    rw [ParserState.peek, ha, List.head?_cons, Option.getD_some] at hpeek
    refine ⟨t, s.before, ?_, hpeek ▸ hk, hn⟩
    rw [ParserState.advance, ha]

theorem ParserState.Finished.mono {m : Nat} (h : s.Finished n) (hm : m ≤ n) : s.Finished m := by
  obtain ⟨t, ts, hbefore, hk, hn⟩ := h
  exact ⟨t, ts, hbefore, hk, hm.trans hn⟩

/-- Where `p` succeeds from `s` on with a good value, and nothing is recorded, its last token
    ends a declaration. -/
structure Parser.Finishes (good : α → Prop) (n : Nat) (f : Bool) (s : ParserState) (p : Parser α) :
    Prop where
  onward : s.Onward (p.run.run s).2
  finished : ∀ a s', p.run.run s = (.ok a, s') → s.Quiet s' → good a → s.eof.kind = .eof →
    n ≤ s.place → (f = true → s.Finished n) → s'.Finished n

namespace Parser

variable {good : α → Prop} {p q : Parser α} {g : α → Parser β}

theorem place_le_of_onward (h : s.Onward s') : s.place ≤ s'.place := by
  obtain ⟨ts, -, hbefore⟩ := h.tokens_eq
  rw [place, place, hbefore, List.length_append]
  exact Nat.le_add_left _ _

namespace Finishes

theorem of_fails (ho : s.Onward (p.run.run s).2)
    (h : ∀ a s', p.run.run s = (.ok a, s') → s.Quiet s' → ¬ good a) : Finishes good n f s p :=
  ⟨ho, fun a s' hx hq hgood => absurd hgood (h a s' hx hq)⟩

theorem pure (a : α) : Finishes good n true s (Pure.pure a) :=
  ⟨.refl s, fun _ _ hx _ _ _ _ hs => by cases hx; exact hs rfl⟩

theorem get {g : ParserState → Parser α} (h : Finishes good n f s (g s)) :
    Finishes good n f s (MonadState.get >>= g) :=
  ⟨h.onward, h.finished⟩

/-- What follows may rely on a token that `p` consumes. -/
theorem bind_of {good : β → Prop} {f' : Bool} (ho : s.Onward (p.run.run s).2)
    (hf : ∀ a s', s.Onward s' → Finishes good n f' s' (g a))
    (hs : ∀ a b s₁ s₂, p.run.run s = (.ok a, s₁) → (g a).run.run s₁ = (.ok b, s₂) → s.Quiet s₁ →
      good b → s.eof.kind = .eof → n ≤ s.place → (f = true → s.Finished n) → f' = true →
      s₁.Finished n) :
    Finishes good n f s (p >>= g) := by
  have hp := run_bind p g s
  rcases hx : p.run.run s with ⟨e | a, s₁⟩
  · rw [hx] at hp ho
    refine ⟨hp ▸ ho, fun b s₂ hb => ?_⟩
    cases hp.symm.trans hb
  · rw [hx] at hp ho
    obtain ⟨ho', hs'⟩ := hf a s₁ ho
    refine ⟨hp ▸ ho.trans ho', fun b s₂ hb hq hgood he hn hf => ?_⟩
    have hb : (g a).run.run s₁ = (.ok b, s₂) := hp.symm.trans hb
    rw [hb] at ho'
    exact hs' b s₂ hb (ho.quiet_right ho' hq) hgood (ho.eof_eq ▸ he)
      (hn.trans (place_le_of_onward ho))
      (hs a b s₁ s₂ hx hb (ho.quiet_left ho' hq) hgood he hn hf)

/-- Behind a parser that finishes nothing has to be consumed. -/
theorem bind {good' : β → Prop} (h : Finishes good n f s p)
    (hf : ∀ a s', s.Onward s' → Finishes good' n true s' (g a))
    (hg : ∀ a b s₁ s₂, (g a).run.run s₁ = (.ok b, s₂) → good' b → good a) :
    Finishes good' n f s (p >>= g) :=
  .bind_of h.onward hf fun a b s₁ s₂ hx hb hq hgood he hn hf _ =>
    h.finished a s₁ hx hq (hg a b s₁ s₂ hb hgood) he hn hf

theorem andThen {good : β → Prop} (h : Finishes (fun _ => True) n f s p)
    (hf : ∀ a s', s.Onward s' → Finishes good n true s' (g a)) : Finishes good n f s (p >>= g) :=
  h.bind hf fun _ _ _ _ _ _ => ⟨⟩

theorem map {good' : β → Prop} {g : α → β} (h : Finishes good n f s p)
    (hg : ∀ a, good' (g a) → good a) : Finishes good' n f s (g <$> p) :=
  h.bind (fun _ _ _ => .pure _) fun a b _ _ hb hgood => by
    cases hb
    exact hg a hgood

theorem discard {good : Unit → Prop} (h : Finishes (fun _ => True) n f s p) :
    Finishes good n f s (Functor.discard p) :=
  h.map fun _ _ => ⟨⟩

theorem ite {c : Prop} [Decidable c] (h : c → Finishes good n f s p)
    (h' : ¬ c → Finishes good n f s q) : Finishes good n f s (if c then p else q) := by
  split
  · exact h ‹_›
  · exact h' ‹_›

end Finishes

/-- What comes before a parser that finishes does not matter. -/
theorem Carries.thenFinishes [Shift α] {good : β → Prop}
    (h : Carries ⟨[], [], [], [], s.eof⟩ true false s p p)
    (hf : ∀ a s', s.Onward s' → Finishes good n false s' (g a)) :
    Finishes good n false s (p >>= g) :=
  .bind_of h.onward hf fun _ _ _ _ _ _ _ _ _ _ _ hf => absurd hf Bool.false_ne_true

/-- The continuations behind the branches of a choice. -/
theorem Carries.joinFinishes [Shift α] {good : β → Prop} {c : Prop} [Decidable c]
    (h : c → Carries ⟨[], [], [], [], s.eof⟩ true false s p p)
    (h' : ¬ c → Carries ⟨[], [], [], [], s.eof⟩ true false s q q)
    (hf : ∀ a s', s.Onward s' → Finishes good n false s' (g a)) :
    Finishes good n false s (have next := g; if c then p >>= next else q >>= next) :=
  .ite (fun hc => (h hc).thenFinishes hf) fun hc => (h' hc).thenFinishes hf

/-- The continuations behind a step that is taken under a condition only. -/
theorem Carries.afterFinishes {good : β → Prop} {c : Prop} [Decidable c] {p : Parser Unit}
    {g : Unit → Parser β} (h : c → Carries ⟨[], [], [], [], s.eof⟩ true false s p p)
    (hf : ∀ s', s.Onward s' → Finishes good n false s' (g ())) :
    Finishes good n false s (have next := g; if c then p >>= next else next ()) :=
  .ite (fun hc => (h hc).thenFinishes fun _ => hf) fun _ => hf s (.refl s)

/-! ## Marks -/

theorem expectMark_finishes {good : Token → Prop} {mark : Punct}
    (hk : (TokenKind.punct mark).endsDeclaration = true) :
    Finishes good n false s (expectMark mark) := by
  have carries : Carries ⟨[], [], [], [], s.eof⟩ false false s (expectMark mark) (expectMark mark) :=
    expectMark_carries mark
  refine ⟨carries.onward, fun u s' hx _ _ he hn _ => ?_⟩
  obtain ⟨hat, rfl⟩ := expect_run hx
  exact finished_advance he hat hk hn

/-- A semicolon may follow. -/
theorem eatSemicolon_finishes {good : Unit → Prop} :
    Finishes good n true s (liftM (discard (eatMark .semicolon))) := by
  have run : (liftM (discard (eatMark .semicolon)) : Parser Unit).run.run s =
      (.ok (), ((eat (.punct .semicolon)).run s).2) := rfl
  have carries : Reader.Carries ⟨[], [], [], [], s.eof⟩ false false s (eatMark .semicolon)
      (eatMark .semicolon) := eatMark_carries .semicolon
  refine ⟨carries.onward, fun u s' hx _ _ he hn hs => ?_⟩
  obtain rfl : ((eat (.punct .semicolon)).run s).2 = s' := congrArg Prod.snd (run.symm.trans hx)
  rw [eat_run]
  split
  · exact finished_advance he ‹_› rfl hn
  · exact hs rfl

/-- Where a semicolon is consumed nothing has to follow. -/
theorem eatSemicolon_orFinishes {g : Bool → Parser α}
    (h : ∀ s', s.Onward s' → Finishes good n true s' (g true))
    (h' : Finishes good n false s (g false)) :
    Finishes good n false s (liftM (eatMark .semicolon) >>= g) := by
  have run : (liftM (eatMark .semicolon) >>= g).run.run s =
      (if s.isAtMark .semicolon then (g true).run.run s.advance else (g false).run.run s) := by
    rw [run_bind]
    show (g ((eat (.punct .semicolon)).run s).1).run.run ((eat (.punct .semicolon)).run s).2 = _
    rw [eat_run, isAtMark]
    split <;> rfl
  have ho := onward_advance s
  by_cases hc : s.isAtMark .semicolon = true
  · rw [if_pos hc] at run
    obtain ⟨ho', hs'⟩ := h s.advance ho
    refine ⟨run ▸ ho.trans ho', fun a s' hx hq hgood he hn _ => ?_⟩
    rw [run] at hx
    rw [hx] at ho'
    exact hs' a s' hx (ho.quiet_right ho' hq) hgood (ho.eof_eq ▸ he)
      (hn.trans (place_le_of_onward ho)) fun _ => finished_advance he hc rfl hn
  · rw [if_neg hc] at run
    exact ⟨run ▸ h'.onward, run ▸ h'.finished⟩

/-! ## Errors that are recorded -/

/-- Behind an error that is recorded nothing is finished. -/
theorem report_finishes {e : ParseError} {g : Unit → Parser α}
    (h : ∀ s', s.Onward s' → Finishes good n f s' (g ())) :
    Finishes good n f s (liftM (report e) >>= g) := by
  have run : (liftM (report e) >>= g).run.run s = (g ()).run.run (s.report e) := run_bind ..
  have ho := (h _ (onward_report s e)).onward
  refine .of_fails (run ▸ (onward_report s e).trans ho) fun a s' hx hq => ?_
  rw [run] at hx
  rw [hx] at ho
  exact absurd hq ((Onward.refl s).not_quiet ho)

/-- Where nothing is recorded the parser succeeded. -/
theorem run_of_quiet {g : Except ParseError α → Reader (Option α)}
    (hok : ∀ a, g (.ok a) = Pure.pure (some a)) (ho : s.Onward (p.run.run s).2)
    (hfail : ∀ e s', s.Onward s' → ¬ s.Quiet ((g (.error e)).run s').2)
    (hq : s.Quiet ((p.run >>= g).run s).2) :
    ∃ a, p.run.run s = (.ok a, ((p.run >>= g).run s).2) ∧ ((p.run >>= g).run s).1 = some a := by
  rw [Reader.run_bind] at hq ⊢
  rcases hx : p.run.run s with ⟨e | a, s₁⟩
  · rw [hx] at ho hq
    exact absurd hq (hfail e s₁ ho)
  · rw [hok]
    exact ⟨a, rfl, rfl⟩

theorem expectClosing_finishes {good : Unit → Prop} {mark : Punct}
    (hk : (TokenKind.punct mark).endsDeclaration = true) :
    Finishes good n false s (liftM (expectClosing mark)) := by
  have carries : Carries ⟨[], [], [], [], s.eof⟩ false false s (expectMark mark) (expectMark mark) :=
    expectMark_carries mark
  have closing : Reader.Carries ⟨[], [], [], [], s.eof⟩ false false s (expectClosing mark)
      (expectClosing mark) := (orReport_carries carries).discard
  refine ⟨closing.onward, fun u s' hx hq _ he hn _ => ?_⟩
  obtain rfl : ((orReport (expectMark mark)).run s).2 = s' := congrArg Prod.snd hx
  obtain ⟨t, hrun, -⟩ := run_of_quiet (fun _ => rfl) carries.onward
    (fun _ _ ho => ho.not_quiet (.refl _)) hq
  obtain ⟨hat, hs⟩ := expect_run hrun
  rw [show ((orReport (expectMark mark)).run s).2 = s.advance from hs]
  exact finished_advance he hat hk hn

/-! ## Directives and declarations -/

theorem using_finishes : Finishes (fun _ => True) n false s using_ := by
  refine .get (Carries.afterFinishes (fun _ => (Carries.lift advance_carries).discard) fun _ _ => ?_)
  refine (expect_carries _).discard.thenFinishes fun _ _ _ => ?_
  refine (Carries.lift (eatWord_carries _)).thenFinishes fun _ _ _ =>
    usingAlias_carries.thenFinishes fun _ _ _ => name_carries.thenFinishes fun _ _ _ => ?_
  exact (expectMark_finishes rfl).discard.andThen fun _ _ _ => .get (.pure _)

theorem delegate_finishes (head : Head) : Finishes (fun _ => True) n false s (delegate head) :=
  (expect_carries _).discard.thenFinishes fun _ _ _ => type_carries.thenFinishes fun _ _ _ =>
    ident_carries.thenFinishes fun _ _ _ => typeParameters_carries.thenFinishes fun _ _ _ =>
      parameters_carries.thenFinishes fun _ _ _ => constraintClauses_carries.thenFinishes fun _ _ _ =>
        (expectMark_finishes rfl).discard.andThen fun _ _ _ => .get (.pure _)

theorem typeBody_finishes {members : Reader (List Member)}
    (h : ∀ s, Reader.Carries ⟨[], [], [], [], s.eof⟩ true false s members members) :
    Finishes (fun _ => True) n false s (typeBody members) := by
  refine eatSemicolon_orFinishes (fun _ _ => .pure _) ?_
  refine (expectMark_carries _).discard.thenFinishes fun _ _ _ => ?_
  refine (Carries.lift (h _)).thenFinishes fun _ _ _ => ?_
  exact (expectClosing_finishes rfl).andThen fun _ _ _ => eatSemicolon_finishes.andThen
    fun _ _ _ => .pure _

theorem typeDeclaration_finishes (head : Head) :
    Finishes (fun _ => True) n false s (typeDeclaration head) := by
  refine (Carries.lift typeKind_carries).thenFinishes fun _ _ _ => ?_
  refine ident_carries.thenFinishes fun _ _ _ => typeParameters_carries.thenFinishes fun _ _ _ =>
    .get ?_
  refine Carries.joinFinishes (fun _ => parameters_carries.map fun _ => rfl) (fun _ => .pure rfl)
    fun _ _ _ => ?_
  refine baseTypes_carries.thenFinishes fun _ _ _ => constraintClauses_carries.thenFinishes
    fun _ _ _ => ?_
  refine (typeBody_finishes fun s => ?_).andThen fun _ _ _ => .get (.pure _)
  exact .ite (fun _ => Iff.rfl) (fun _ => enumMembers_carries) fun _ => members_carries

section
variable {nested : Bool → Reader (List Entry)}
  (h : ∀ braced s, Reader.Carries ⟨[], [], [], [], s.eof⟩ false false s (nested braced) (nested braced))
include h

/-- A namespace without braces is not finished. -/
theorem namespaceEntries_finishes (isFileScoped : Bool) :
    Finishes (fun _ => isFileScoped = false) n false s (namespaceEntries nested isFileScoped) := by
  refine .ite (fun hc => ?_) fun _ => ?_
  · exact .of_fails (Carries.lift (h false s)).onward fun _ _ _ _ hg => by
      rw [hc] at hg
      cases hg
  · refine (expectMark_carries _).discard.thenFinishes fun _ _ _ => ?_
    refine (Carries.lift (h true _)).anywhere.thenFinishes fun _ _ _ => ?_
    exact (expectClosing_finishes rfl).andThen fun _ _ _ => eatSemicolon_finishes.andThen
      fun _ _ _ => .pure _

theorem namespaceWith_finishes (start : Span) :
    Finishes (fun d => d.isFileScoped = false) n false s (namespaceWith nested start) := by
  refine (expect_carries _).discard.thenFinishes fun _ _ _ => name_carries.thenFinishes fun _ _ _ => ?_
  refine (Carries.lift (eatMark_carries _)).thenFinishes fun isFileScoped _ _ => ?_
  refine (namespaceEntries_finishes h isFileScoped).bind (fun es s' _ => ?_) fun es d s₁ s₂ hd hgood => ?_
  · cases (Entry.globalAttributes es).head? with
    | none => exact .get (.pure _)
    | some => exact report_finishes fun _ _ => .get (.pure _)
  · cases hl : (Entry.globalAttributes es).head? <;> rw [hl] at hd <;> cases hd <;> exact hgood

theorem declarationWith_finishes :
    Finishes (fun x => x.isFileScoped = false) n false s (declarationWith nested) := by
  refine head_carries.anywhere.thenFinishes fun head s' _ => .get (.ite (fun _ => ?_) fun _ =>
    .ite (fun _ => ?_) fun _ => .ite (fun _ => ?_) fun _ => ?_)
  · refine (namespaceWith_finishes h head.start).bind (fun _ _ _ => .pure _) ?_
    rintro d x s₁ s₂ hx hgood
    cases hx
    exact hgood
  · exact (delegate_finishes head).andThen fun _ _ _ => .pure _
  · exact (typeDeclaration_finishes head).andThen fun _ _ _ => .pure _
  · exact .of_fails (.refl _) fun _ _ hx => by cases hx

end

/-! ## Entries -/

/-- Does the entry end with a semicolon or a closing brace? -/
def Entry.IsFinished : Entry → Prop
  | .using_ _ => True
  | .attributes _ => False
  | .declaration d => d.isFileScoped = false

/-- Do the words `extern alias` stand among the tokens? -/
def hasExternAlias : List Token → Bool
  | t :: u :: ts =>
    (t.kind == .keyword .extern_ && u.isContextual "alias") || hasExternAlias (u :: ts)
  | _ => false

theorem hasExternAlias_of_append {ts us : List Token} (h : hasExternAlias (ts ++ us) = false) :
    hasExternAlias us = false := by
  induction ts with
  | nil => exact h
  | cons t ts ih =>
    refine ih ?_
    cases hts : ts ++ us with
    | nil => rfl
    | cons u us =>
      rw [List.cons_append, hts] at h
      exact (Bool.or_eq_false_iff.1 h).2

theorem isAtExternAlias_eq_false (he : s.eof.kind = .eof) (h : hasExternAlias s.after = false) :
    isAtExternAlias s = false := by
  rw [isAtExternAlias, ParserState.isAt, ParserState.peek, ParserState.peekAt]
  generalize s.after = ts at h ⊢
  rcases ts with _ | ⟨t, _ | ⟨u, ts⟩⟩
  · rw [List.head?_nil, Option.getD_none, he]
    rfl
  · have hnot : s.eof.isContextual "alias" = false := by
      rw [Token.isContextual, he]
      rfl
    show (_ && s.eof.isContextual "alias") = false
    rw [hnot, Bool.and_false]
  · exact (Bool.or_eq_false_iff.1 h).1

/-- Where errors are recorded the parser finishes if nothing is. -/
theorem orRecover_finished (h : Finishes good n false s p) (hq : s.Quiet ((orRecover p).run s).2)
    (hgood : ∀ a, ((orRecover p).run s).1 = some a → good a) (he : s.eof.kind = .eof)
    (hn : n ≤ s.place) : ((orRecover p).run s).2.Finished n := by
  obtain ⟨a, hrun, ha⟩ := run_of_quiet (fun _ => rfl) h.onward
    (fun _ _ ho => ho.not_quiet (synchronize_onward _)) hq
  exact h.finished a _ hrun hq (hgood a ha) he hn nofun

section
variable {nested : Bool → Reader (List Entry)}
  (h : ∀ braced s, Reader.Carries ⟨[], [], [], [], s.eof⟩ false false s (nested braced) (nested braced))
include h

/-- **An entry that is read without errors** ends with a semicolon or a closing brace. -/
theorem entryWith_finished (hbrace : s.isAtMark .rightBrace = false)
    (halias : isAtExternAlias s = false) (hq : s.Quiet ((entryWith nested).run s).2)
    (hgood : ∀ e, ((entryWith nested).run s).1 = some e → e.IsFinished) (he : s.eof.kind = .eof) :
    ((entryWith nested).run s).2.Finished s.place := by
  have run : (entryWith nested).run s = (if isAtUsing s then orRecover (.using_ <$> using_)
      else if isAtGlobalAttributes s then orRecover (.attributes <$> attributeSection)
      else orRecover (.declaration <$> declarationWith nested) : Reader (Option Entry)).run s := by
    show (if s.isAtMark .rightBrace then _ else if isAtExternAlias s then _ else _ :
      Reader (Option Entry)).run s = _
    rw [hbrace, halias]
    rfl
  have attributes : Finishes (fun _ => False) s.place false s attributeSection := by
    have closes : Closes (fun _ => True) ⟨[], [], [], [], s.eof⟩ true true s attributeSection
      attributeSection := attributeSection_closes
    exact .of_fails closes.onward fun _ _ _ _ => id
  rw [run] at hq hgood ⊢
  split at hq
  · rw [if_pos ‹_›] at hgood ⊢
    exact orRecover_finished (using_finishes.map fun _ _ => ⟨⟩) hq hgood he (le_refl _)
  split at hq
  · rw [if_neg ‹_›, if_pos ‹_›] at hgood ⊢
    exact orRecover_finished (attributes.map fun _ => id) hq hgood he (le_refl _)
  · rw [if_neg ‹_›, if_neg ‹_›] at hgood ⊢
    exact orRecover_finished ((declarationWith_finishes h).map fun _ => id) hq hgood he (le_refl _)

end

variable {depth m : Nat} {as es : List Entry}

/-- Behind an entry that is finished no token is passed over. -/
theorem behindEntry_eq {nested : Bool → Reader (List Entry)}
    (h : ((entryWith nested).run s).2.Finished s.place) :
    behindEntry nested s = ((entryWith nested).run s).2 := by
  obtain ⟨t, ts, hbefore, -, hle⟩ := h
  have hplace : ((entryWith nested).run s).2.place ≠ s.place := by
    rw [ParserState.place, hbefore, List.length_cons]
    omega
  rw [behindEntry, moveOn_run, decide_eq_false hplace]
  rfl

/-- **The last token of entries that are read without errors** ends one of them, by induction on
    the rounds. -/
theorem entries_finished
    (h : (loopWithin (entryStep (entriesWithin depth) false) m as).run s = (es, s'))
    (hq : s.Quiet s') (he : s.eof.kind = .eof) (halias : hasExternAlias s.after = false)
    (hgood : ∀ e ∈ es, e.IsFinished) : s' = s ∨ s'.Finished s.place := by
  induction m generalizing s as with
  | zero =>
    cases h
    exact absurd hq ((Onward.refl s).fault_not_quiet _)
  | succ m ih =>
    rw [entries_run, Bool.false_and, Bool.or_false] at h
    split at h
    · cases h
      exact .inl rfl
    have ho := behindEntry_onward depth s
    split at h
    · have hl := entries_onward h
      have hq₁ := ho.quiet_left hl hq
      have hq₂ := ho.quiet_right hl hq
      obtain ⟨fs, hfs, -⟩ := entries_append h hq₂
      have hbrace : s.isAtMark .rightBrace = false :=
        Bool.eq_false_iff.2 fun hat => behindEntry_at_rightBrace hat hq₁
      have hentry : ((entryWith (entriesWithin depth)).run s).2.Finished s.place := by
        refine entryWith_finished (fun braced _ => entriesWithin_carries (le_refl depth) braced) hbrace
          (isAtExternAlias_eq_false he halias) ?_ (fun e he => hgood e ?_) he
        · exact (entryWith_onward depth s).quiet_left (moveOn_onward s.place _) hq₁
        · rw [hfs, he]
          simp
      have hbehind : (behindEntry (entriesWithin depth) s).Finished s.place :=
        behindEntry_eq hentry ▸ hentry
      obtain ⟨ts, hts, -⟩ := ho.tokens_eq
      refine .inr ((ih h hq₂ (ho.eof_eq ▸ he) (hasExternAlias_of_append (hts ▸ halias))).elim
        (fun hs => hs ▸ hbehind) fun hlast => ?_)
      exact hlast.mono (place_le_of_onward ho)
    · cases h
      exact absurd hq (ho.fault_not_quiet _)

end Parser

end CommandModules

/-
  Command modules — every lexical error has its token, or is an open comment.

  * `Logged.literal_follows`, `Logged.tokenize_eq`: reading with one log of errors, from which a
    string takes back the error of a literal in one of its holes, comes to what reading without it
    does;
  * `LexError.BelongsTo`: the token is text that is none, and reading it fails with the error;
  * `LeavesOpen`: behind the last token a block comment has no end;
  * `tokenize_errors_accounted`: the errors of a text are those of its error tokens, in turn, and
    that of the open comment, if there is one.
-/
import CommandModules.Proofs.Safe.Lexical
import CommandModules.Proofs.Token.Quoted
import CommandModules.Token.Log

namespace CommandModules

open Text

/-! ## Reading with a log -/

namespace Reading

variable {r : Reading} {log : List Failure}

@[simp] theorem attempt_failure? : (r.attempt log).failure? = r.failure? := rfl

@[simp] theorem attempt_rest : (r.attempt log).rest = r.rest := rfl

@[simp] theorem attempt_log : (r.attempt log).log = log := rfl

@[simp] theorem note_failed : (r.attempt log).note.failed = r.failure?.isSome := rfl

@[simp] theorem note_rest : (r.attempt log).note.rest = r.rest := rfl

@[simp] theorem note_log : (r.attempt log).note.log = log ++ r.failure?.toList := rfl

/-- The failure that was just recorded is the one that is taken back. -/
theorem reraise_note {cause : LexCause} {start rest whole : List Char} :
    ((broken cause start rest).attempt log).note.reraise whole =
      (broken cause start rest).attempt log := by
  simp [Noted.reraise, attempt, Attempt.note, failure?, Reading.rest]

theorem broken_of_ne_closed (h : ∀ rest, r ≠ .closed rest) :
    ∃ cause start rest, r = .broken cause start rest := by
  cases r with
  | closed rest => exact absurd rfl (h rest)
  | broken cause start rest => exact ⟨cause, start, rest, rfl⟩

end Reading

namespace Logged

section
variable {noting : List Failure → List Char → Noted} {nested : List Char → Reading}

/-- The reader of nested literals with a log does what the one without it does. -/
def Follows (noting : List Failure → List Char → Noted) (nested : List Char → Reading) : Prop :=
  ∀ log cs, noting log cs = ((nested cs).attempt log).note

theorem hole_eq (h : Follows noting nested) (whole : List Char) (fuel depth : Nat)
    (log : List Failure) (cs : List Char) :
    hole noting whole fuel depth log cs =
      (CommandModules.hole nested whole fuel depth cs).attempt log := by
  fun_induction CommandModules.hole nested whole fuel depth cs with
  | case1 | case2 => simp [hole]
  | case3 | case4 | case5 | case8 => simp_all [hole]
  | case6 fuel depth c cs hl hr ho rest hn ih =>
    simp [hole, hl, hr, ho, h log, hn, Reading.failure?, Reading.rest, ih]
  | case7 fuel depth c cs hl hr ho hn =>
    -- the nested literal has recorded its failure, and this is the one that is taken back
    obtain ⟨cause, start, rest, hb⟩ := Reading.broken_of_ne_closed hn
    simp [hole, hl, hr, ho, h log, hb, Reading.failure?, Reading.reraise_note]

theorem interpolatedBody_eq (h : Follows noting nested) (whole : List Char) (verbatim : Bool)
    (fuel : Nat) (log : List Failure) (cs : List Char) :
    interpolatedBody noting whole verbatim fuel log cs =
      (CommandModules.interpolatedBody nested whole verbatim fuel cs).attempt log := by
  fun_induction CommandModules.interpolatedBody nested whole verbatim fuel cs with
  | case1 | case2 => simp [interpolatedBody]
  | case3 | case4 | case5 | case6 | case7 => simp_all [interpolatedBody]
  | case8 fuel cs rest hr hne _ _ _ ih =>
    simp [interpolatedBody, hole_eq h, hr, Reading.failure?, Reading.rest, ih]
  | case9 fuel cs hne _ _ _ hn =>
    obtain ⟨cause, start, rest, hb⟩ := Reading.broken_of_ne_closed hn
    simp [interpolatedBody, hole_eq h, hb, Reading.failure?]
  | case10 fuel c cs hl he hq ho ih =>
    simp only [interpolatedBody, hl, he, hq, ho, ih, Bool.false_eq_true, if_false]

theorem atLiteral_eq (h : Follows noting nested) (log : List Failure) (whole : List Char) :
    atLiteral noting log whole = (CommandModules.atLiteral nested whole).attempt log := by
  fun_cases CommandModules.atLiteral nested whole <;> simp_all [atLiteral, interpolatedBody_eq h]

theorem dollarLiteral_eq (h : Follows noting nested) (log : List Failure) (whole : List Char) :
    dollarLiteral noting log whole = (CommandModules.dollarLiteral nested whole).attempt log := by
  fun_cases CommandModules.dollarLiteral nested whole <;>
    simp_all +zetaDelta [dollarLiteral, interpolatedBody_eq h]

end

/-- **A literal records its own error, and none for what is nested in it.** -/
theorem literal_follows (depth : Nat) : Follows (literal depth) (CommandModules.literal depth) := by
  induction depth with
  | zero => exact fun log cs => rfl
  | succ depth ih =>
    intro log cs
    unfold CommandModules.literal
    split <;> simp_all [literal, atLiteral_eq ih, dollarLiteral_eq ih]

theorem scan_eq (log : List Failure) (c : Char) (cs : List Char) : scan log c cs =
    ((CommandModules.scan c cs).1, ((CommandModules.scan c cs).2.attempt log).note) := by
  by_cases h : opensLiteral c = true
  · simp only [scan, CommandModules.scan, h, if_true, literal_follows _ log (c :: cs)]
  · simp only [scan, h, Bool.false_eq_true, if_false]

theorem literal_log (depth : Nat) (log : List Failure) (cs : List Char) :
    (literal depth log cs).log = log ++ (CommandModules.literal depth cs).failure?.toList := by
  rw [literal_follows, Reading.note_log]

/-- A hole leaves the log as it was: what a nested literal records is taken back. -/
theorem hole_log (depth : Nat) (whole : List Char) (fuel braces : Nat) (log : List Failure)
    (cs : List Char) : (hole (literal depth) whole fuel braces log cs).log = log := by
  rw [hole_eq (literal_follows depth), Reading.attempt_log]

end Logged

namespace Cursor

variable {cause : LexCause}

/-- The error of what fails at `rest` covers what stands before it. -/
theorem behind_errorAt (pre mid tail rest : List Char) :
    (behind pre (mid ++ (tail ++ rest))).errorAt cause (tail ++ rest) rest =
      ⟨cause, .covering (pre ++ mid) tail⟩ := by
  rw [errorAt, behind_skipTo, behind_spanTo]

/-- The places of an error can be counted from the head of the text. -/
theorem errorAt_of_head {pre text start rest : List Char} (hs : start <:+ text)
    (hr : rest <:+ start) : (behind pre text).errorAt cause start rest =
      (behind [] (pre ++ text)).errorAt cause start rest := by
  obtain ⟨mid, rfl⟩ := hs
  obtain ⟨tail, rfl⟩ := hr
  rw [behind_errorAt, ← List.append_assoc, behind_errorAt, List.nil_append]

end Cursor

namespace Logged

open Cursor

/-- The error that a failure comes to, in the text `source`. -/
def errorIn (source : List Char) (f : Failure) : LexError :=
  (behind [] source).errorAt f.cause f.start f.rest

theorem next_eq (pre text : List Char) (log : List Failure) : ∃ fs,
    next (behind pre text) log =
      ⟨(behind pre text).next.token, (behind pre text).next.cursor, log ++ fs⟩ ∧
    (behind pre text).next.errors = fs.map (errorIn (pre ++ text)) := by
  obtain ⟨gap, hg, -⟩ := skipGap_covers text
  have hrest : (behind pre text).rest = text := rfl
  unfold next Cursor.next
  rw [hrest]
  cases hr : (skipGap text).rest with
  | nil =>
    simp only [hr]
    refine ⟨_, rfl, ?_⟩
    cases hc : (skipGap text).openComment? with
    | none => rfl
    | some comment =>
      simp [errorIn, errorAt_of_head (skipGap_openComment hc) List.nil_suffix]
  | cons c cs =>
    simp only [hr, scan_eq]
    have hw := scan_within c cs
    rcases hs : CommandModules.scan c cs with ⟨kind, rest | ⟨cause, start, rest⟩⟩
    · exact ⟨[], by simp [Reading.failure?, Reading.rest], rfl⟩
    · rw [hs] at hw
      refine ⟨[⟨cause, start, rest⟩], by simp [Reading.failure?, Reading.rest], ?_⟩
      rw [hr] at hg
      simp only [hg, behind_skipTo, List.map_singleton, errorIn, errorAt_of_head hw.1 hw.2.1,
        List.append_assoc]

theorem tokens_eq (fuel : Nat) (pre text : List Char) (log : List Failure) : ∃ fs,
    tokens fuel (behind pre text) log =
      (((behind pre text).tokens fuel).body, ((behind pre text).tokens fuel).eof, log ++ fs) ∧
    ((behind pre text).tokens fuel).errors = fs.map (errorIn (pre ++ text)) := by
  induction fuel generalizing pre text log with
  | zero => exact ⟨[], by simp [tokens, Cursor.tokens], rfl⟩
  | succ fuel ih =>
    obtain ⟨fs, hnext, herrors⟩ := next_eq pre text log
    rw [tokens, Cursor.tokens, hnext]
    rcases next_behind pre text with ⟨gap, -, -, ht, -⟩ |
      ⟨gap, lexeme, rest, kind, htext, -, -, hk, ht, hc⟩
    · exact ⟨fs, by simp [ht], by simp [ht, herrors]⟩
    · obtain ⟨later, htokens, hlater⟩ := ih (pre ++ gap ++ lexeme) rest (log ++ fs)
      have hwhole : pre ++ gap ++ lexeme ++ rest = pre ++ text := by simp [htext]
      refine ⟨fs ++ later, ?_, ?_⟩
      · simp only [ht, hk, if_false, hc, htokens, List.append_assoc log]
      · simp only [ht, hk, if_false, herrors, hc, hlater, hwhole, List.map_append]

/-- **Reading with one log of errors comes to the same tokens and the same errors.** -/
theorem tokenize_eq (source : String) : tokenize source = CommandModules.tokenize source := by
  obtain ⟨fs, htokens, herrors⟩ :=
    tokens_eq (source.toList.length + 1) [] source.toList []
  rw [List.nil_append] at herrors htokens
  unfold tokenize CommandModules.tokenize
  rw [show Cursor.ofText source = behind [] source.toList from rfl]
  simp only [show (behind [] source.toList).rest = source.toList from rfl, htokens]
  exact congrArg (Lexed.mk _ _) herrors.symm

end Logged

/-! ## What fails is no comment -/

/-- The reading does not fail as an open comment does. -/
def Reading.NoComment : Reading → Prop
  | .closed _ => True
  | .broken cause _ _ => cause ≠ .unterminatedComment

section
variable {whole : List Char} {nested : List Char → Reading}

theorem regularBody_noComment (quote : Char) (cs : List Char) :
    (regularBody whole quote cs).NoComment := by
  fun_induction regularBody whole quote cs <;> simp_all [Reading.NoComment]

theorem verbatimBody_noComment (cs : List Char) : (verbatimBody whole cs).NoComment := by
  fun_induction verbatimBody whole cs <;> simp_all [Reading.NoComment]

theorem rawBody_noComment (quotes run : Nat) (cs : List Char) :
    (rawBody whole quotes run cs).NoComment := by
  fun_induction rawBody whole quotes run cs <;> simp_all [Reading.NoComment]

theorem hole_noComment (h : ∀ cs, (nested cs).NoComment) (fuel depth : Nat) (cs : List Char) :
    (hole nested whole fuel depth cs).NoComment := by
  fun_induction hole nested whole fuel depth cs with
  | case7 fuel depth c cs => exact h (c :: cs)
  | _ => simp_all [Reading.NoComment]

theorem interpolatedBody_noComment (h : ∀ cs, (nested cs).NoComment) (verbatim : Bool)
    (fuel : Nat) (cs : List Char) :
    (interpolatedBody nested whole verbatim fuel cs).NoComment := by
  fun_induction interpolatedBody nested whole verbatim fuel cs with
  | case9 fuel cs _ _ _ _ hn =>
    split
    · exact absurd ‹_› (hn _)
    · exact hole_noComment h ..
  | _ => simp_all [Reading.NoComment]

theorem quotedString_noComment : (quotedString whole).NoComment := by
  unfold quotedString
  dsimp only
  split
  · exact rawBody_noComment ..
  · exact regularBody_noComment ..

theorem atLiteral_noComment (h : ∀ cs, (nested cs).NoComment) :
    (atLiteral nested whole).NoComment := by
  unfold atLiteral
  split
  · exact verbatimBody_noComment ..
  · exact interpolatedBody_noComment h ..
  · split
    · trivial
    · exact nofun
  · exact nofun

theorem dollarLiteral_noComment (h : ∀ cs, (nested cs).NoComment) :
    (dollarLiteral nested whole).NoComment := by
  unfold dollarLiteral
  split
  · exact rawBody_noComment ..
  · exact interpolatedBody_noComment h ..
  · exact interpolatedBody_noComment h ..
  · exact nofun

theorem literal_noComment (depth : Nat) (cs : List Char) : (literal depth cs).NoComment := by
  induction depth generalizing cs with
  | zero => exact nofun
  | succ depth ih =>
    unfold literal
    split
    · exact regularBody_noComment ..
    · exact atLiteral_noComment ih
    · exact dollarLiteral_noComment ih
    · exact quotedString_noComment

theorem scan_noComment (c : Char) (cs : List Char) : (scan c cs).2.NoComment := by
  fun_cases scan c cs with
  | case1 => exact literal_noComment ..
  | case5 => exact nofun
  | _ => trivial

end

/-! ## Open comments -/

theorem gapEnd_lastLine {body : List Char} (h : '\n' ∉ body) : gapEnd .line body = ⟨[], none⟩ := by
  induction body with
  | nil => rfl
  | cons c body ih =>
    obtain ⟨hc, hbody⟩ := not_or.1 (List.mem_cons.not.1 h)
    rw [gapEnd, if_neg (Ne.symm hc)]
    exact ih hbody

theorem gapEnd_open {start body : List Char} (h : ¬ ['*', '/'] <:+: body) :
    gapEnd (.block start) body = ⟨[], some start⟩ := by
  induction body with
  | nil => rfl
  | cons c body ih =>
    rw [List.infix_cons_iff, not_or] at h
    rw [gapEnd_block_cons, ih h.2]
    rintro rfl hd
    obtain ⟨ds, rfl⟩ := List.head?_eq_some_iff.1 hd
    exact h.1 ⟨ds, rfl⟩

/-- An open comment is the last thing that trivia holds. -/
theorem Trivia.open_comment {atEnd : Prop} {gap comment : List Char} (h : Trivia atEnd gap)
    (ho : gapEnd .between gap = ⟨[], some comment⟩) : ∃ front body,
      gap = front ++ '/' :: '*' :: body ∧ Trivia False front ∧ ¬ ['*', '/'] <:+: body ∧
        comment = '/' :: '*' :: body := by
  induction h with
  | nil => cases ho
  | @blank c cs hc _ ih =>
    rw [gapEnd_blank hc] at ho
    obtain ⟨front, body, rfl, hf, hrest⟩ := ih ho
    exact ⟨c :: front, body, rfl, .blank hc hf, hrest⟩
  | @line opener line cs hopener hline _ ih =>
    have hcs : gapEnd .between cs = ⟨[], some comment⟩ := by
      rw [← gapEnd_line hline]
      rcases hopener with rfl | rfl <;> exact ho
    obtain ⟨front, body, rfl, hf, hrest⟩ := ih hcs
    exact ⟨opener ++ (line ++ '\n' :: front), body, by simp, .line hopener hline hf, hrest⟩
  | @lastLine opener line _ hopener hline =>
    have : gapEnd .line line = ⟨[], some comment⟩ := by
      rcases hopener with rfl | rfl <;> exact ho
    rw [gapEnd_lastLine hline] at this
    cases this
  | @block inner cs hinner _ ih =>
    rw [gapEnd, gapEnd_closed hinner] at ho
    obtain ⟨front, body, rfl, hf, hrest⟩ := ih ho
    exact ⟨'/' :: '*' :: (inner ++ '*' :: '/' :: front), body, by simp, .block hinner hf, hrest⟩
  | @openBlock body _ hbody =>
    rw [gapEnd, gapEnd_open hbody] at ho
    cases ho
    exact ⟨[], body, rfl, .nil, hbody, rfl⟩

/-- **What is skipped leaves a comment open** if it ends with one that has no end. -/
theorem skipGap_open_iff {text comment : List Char} :
    skipGap text = ⟨[], some comment⟩ ↔ ∃ gap body, text = gap ++ '/' :: '*' :: body ∧
      Gap False gap ∧ ¬ ['*', '/'] <:+: body ∧ comment = '/' :: '*' :: body := by
  constructor
  · intro h
    have trivia {cs : List Char} (h : gapEnd .between cs = ⟨[], some comment⟩) :
        ∃ atEnd, Trivia atEnd cs := by
      obtain ⟨gap, hgap, ht⟩ := gapEnd_covers .between cs
      rw [h, List.append_nil] at hgap
      subst hgap
      exact ⟨_, ht⟩
    unfold skipGap at h
    split at h
    · obtain ⟨atEnd, ht⟩ := trivia h
      obtain ⟨front, body, rfl, hf, hrest⟩ := ht.open_comment h
      exact ⟨'\uFEFF' :: front, body, rfl, .marked hf, hrest⟩
    · obtain ⟨atEnd, ht⟩ := trivia h
      obtain ⟨front, body, rfl, hf, hrest⟩ := ht.open_comment h
      exact ⟨front, body, rfl, .plain hf, hrest⟩
  · rintro ⟨gap, body, rfl, hgap, hbody, rfl⟩
    cases hgap with
    | plain ht =>
      rw [skipGap_trivia ht (by simp), gapEnd, gapEnd_open hbody]
    | @marked gap ht =>
      rw [List.cons_append, skipGap, gapEnd_trivia ht, gapEnd, gapEnd_open hbody]

/-- The error of the comment that the text, which stands behind `pre`, leaves open before any
    token. -/
inductive OpenComment (pre : List Char) : List Char → LexError → Prop
  | intro {gap body} : Gap False gap → ¬ ['*', '/'] <:+: body →
      OpenComment pre (gap ++ '/' :: '*' :: body)
        ⟨.unterminatedComment, .covering (pre ++ gap) ('/' :: '*' :: body)⟩

/-! ## Errors and tokens -/

/-- The token is a stretch of the text `source` that is none: reading fails where it ends.  The
    error says why, and covers what fails, which begins in the token and ends with it. -/
inductive LexError.BelongsTo (source : List Char) : LexError → Token → Prop
  | intro {front mid tail rest c cs kind cause} : source = front ++ (mid ++ (tail ++ rest)) →
      mid ++ (tail ++ rest) = c :: cs → scan c cs = (kind, .broken cause (tail ++ rest) rest) →
      BelongsTo source ⟨cause, .covering (front ++ mid) tail⟩
        ⟨.error, String.ofList (mid ++ tail), .covering front (mid ++ tail)⟩

namespace LexError.BelongsTo

variable {source : List Char} {e : LexError} {t : Token}

/-- The error lies within its token, up to the end of it. -/
theorem inside (h : e.BelongsTo source t) :
    t.span.offset ≤ e.span.offset ∧ e.span.stop = t.span.stop := by
  cases h
  simp [Span.covering, Span.stop]
  omega

theorem cause_ne (h : e.BelongsTo source t) : e.cause ≠ .unterminatedComment := by
  cases h with
  | @intro _ _ _ _ c cs _ _ _ _ hs =>
    have := scan_noComment c cs
    rwa [hs] at this

end LexError.BelongsTo

/-- Where the last token before the `eof` ends, or else the place `start`. -/
def Lexed.stop (l : Lexed) (start : Nat) : Nat :=
  (l.body.getLast?.map fun t => t.span.stop).getD start

/-- The first token is the last one, if there is no other. -/
theorem Lexed.stop_cons (t eof : Token) (errors : List LexError) (later : Lexed) (start : Nat) :
    (Lexed.mk (t :: later.body) eof errors).stop start = later.stop t.span.stop := by
  rw [stop, stop, List.getLast?_cons]
  cases later.body.getLast? <;> rfl

/-- A text is cut in one way behind so many bytes. -/
theorem append_inj_of_bytes {pre pre' text text' : List Char} (h : pre ++ text = pre' ++ text')
    (hb : bytes pre = bytes pre') : pre = pre' ∧ text = text' := by
  have hcut := splitAtByte?_bytes pre text
  rw [h, hb, splitAtByte?_bytes] at hcut
  cases hcut
  exact ⟨rfl, rfl⟩

namespace Cursor

variable {pre text : List Char}

/-- The next token has one error, which belongs to it, if it is text that is none, and else no
    error. -/
theorem next_errors_belong (h : (behind pre text).next.token.kind ≠ .eof) :
    List.Forall₂ (LexError.BelongsTo (pre ++ text)) (behind pre text).next.errors
      ([(behind pre text).next.token].filter fun t => t.kind = .error) := by
  obtain ⟨gap, hg, -⟩ := skipGap_covers text
  have hrest : (behind pre text).rest = text := rfl
  unfold next at h ⊢
  rw [hrest] at h ⊢
  cases hr : (skipGap text).rest with
  | nil => exact absurd (by simp only [hr]; rfl) h
  | cons c cs =>
    have hw := scan_within c cs
    rw [hr] at hg
    simp only [hr]
    rcases hs : scan c cs with ⟨kind, rest | ⟨cause, start, rest⟩⟩
    · simp [tokenTo, scan_closed_ne_error hs]
    · rw [hs] at hw
      obtain ⟨⟨mid, hmid⟩, ⟨tail, rfl⟩, -⟩ : start <:+ c :: cs ∧ rest <:+ start ∧ rest <:+ cs := hw
      have htoken : (behind (pre ++ gap) (c :: cs)).tokenTo .error rest =
          ⟨.error, String.ofList (mid ++ tail), .covering (pre ++ gap) (mid ++ tail)⟩ := by
        rw [← hmid, ← List.append_assoc, behind_tokenTo]
      have herror : (behind (pre ++ gap) (c :: cs)).errorAt cause (tail ++ rest) rest =
          ⟨cause, .covering (pre ++ gap ++ mid) tail⟩ := by
        rw [← hmid, behind_errorAt]
      simp only [hg, behind_skipTo, htoken, herror, List.filter_cons, decide_true, if_true,
        List.filter_nil]
      exact .cons (.intro (by simp [hmid]) hmid hs) .nil

/-- The errors of the `eof` are that of the comment that is left open before it. -/
theorem next_open_comment (h : (behind pre text).next.token.kind = .eof) :
    ∃ open? : Option LexError, (behind pre text).next.errors = open?.toList ∧
      ∀ e, open? = some e ↔ OpenComment pre text e := by
  have hrest : (behind pre text).rest = text := rfl
  unfold next at h ⊢
  rw [hrest] at h ⊢
  cases hr : (skipGap text).rest with
  | cons c cs =>
    simp only [hr] at h
    rcases hs : scan c cs with ⟨kind, _ | _⟩ <;> simp only [hs] at h
    · exact absurd (by rw [hs]; exact h) (scan_ne_eof c cs)
    · cases h
  | nil =>
    simp only [hr]
    refine ⟨_, rfl, fun e => ?_⟩
    rw [Option.map_eq_some_iff]
    have herror (gap comment : List Char) :
        (behind pre (gap ++ comment)).errorAt .unterminatedComment comment [] =
          ⟨.unterminatedComment, .covering (pre ++ gap) comment⟩ := by
      simpa using @behind_errorAt .unterminatedComment pre gap comment []
    constructor
    · rintro ⟨comment, hc, rfl⟩
      have hskip : skipGap text = ⟨[], some comment⟩ := by rw [← hr, ← hc]
      obtain ⟨gap, body, rfl, hgap, hbody, rfl⟩ := skipGap_open_iff.1 hskip
      rw [herror]
      exact .intro hgap hbody
    · rintro ⟨hgap, hbody⟩
      exact ⟨_, by rw [skipGap_open_iff.2 ⟨_, _, rfl, hgap, hbody, rfl⟩], herror _ _⟩

/-- **The errors of the tokens from a place on**, and that of the comment left open behind the
    last of them. -/
theorem tokens_errors_belong {fuel : Nat} (hf : text.length < fuel) :
    ∃ (own : List LexError) (open? : Option LexError),
      ((behind pre text).tokens fuel).errors = own ++ open?.toList ∧
      List.Forall₂ (LexError.BelongsTo (pre ++ text)) own
        (((behind pre text).tokens fuel).body.filter fun t => t.kind = .error) ∧
      ∀ e, open? = some e ↔ ∃ front back, pre ++ text = front ++ back ∧
        bytes front = ((behind pre text).tokens fuel).stop (bytes pre) ∧
        OpenComment front back e := by
  induction fuel generalizing pre text with
  | zero => omega
  | succ fuel ih =>
    rw [tokens]
    by_cases hk : (behind pre text).next.token.kind = .eof
    · obtain ⟨open?, herrors, hopen⟩ := next_open_comment hk
      simp only [hk, if_true]
      refine ⟨[], open?, herrors, .nil, fun e => (hopen e).trans ?_⟩
      constructor
      · exact fun h => ⟨pre, text, rfl, rfl, h⟩
      · rintro ⟨front, back, happ, hbytes, h⟩
        obtain ⟨rfl, rfl⟩ := append_inj_of_bytes happ hbytes.symm
        exact h
    · have hown := next_errors_belong hk
      obtain ⟨gap, lexeme, rest, rfl, hne, hsp, hc, -⟩ := next_reads hk
      have hlen := List.length_pos_iff.2 hne
      simp only [List.length_append] at hf
      obtain ⟨own, open?, herrors, hbelong, hopen⟩ := @ih (pre ++ gap ++ lexeme) rest (by omega)
      have hwhole : pre ++ gap ++ lexeme ++ rest = pre ++ (gap ++ (lexeme ++ rest)) := by simp
      rw [hwhole] at hbelong hopen
      simp only [hk, if_false, hc]
      refine ⟨_ ++ own, open?, by rw [herrors, List.append_assoc], ?_, fun e => ?_⟩
      · rw [← List.singleton_append, List.filter_append]
        exact List.rel_append hown hbelong
      · rw [hopen, Lexed.stop_cons, hsp, Span.covering_stop]

end Cursor

/-- The text leaves a block comment open at its end, behind the last token; `e` is the error of
    this comment. -/
def LeavesOpen (source : String) (e : LexError) : Prop :=
  ∃ front back, source.toList = front ++ back ∧ bytes front = (tokenize source).stop 0 ∧
    OpenComment front back e

/-- **Errors are accounted for.**  The errors of a text belong to its error tokens, in turn: each
    says why reading fails where its token stands, and lies within it.  If a block comment is left
    open at the end, its error is one more, the last one; there is no other.  This is so though a
    literal that fails in a hole records its error first: in the end, the log holds the errors of
    the text, since a literal adds its own error to the log, if it fails, and what is nested in a
    hole adds none. -/
theorem tokenize_errors_accounted (source : String) :
    (∃ (own : List LexError) (open? : Option LexError),
      (tokenize source).errors = own ++ open?.toList ∧
      (tokenize source).errors.length =
        ((tokenize source).tokens.countP fun t => t.kind = .error) + open?.toList.length ∧
      List.Forall₂ (fun e t => e.BelongsTo source.toList t ∧ t.span.offset ≤ e.span.offset ∧
          e.span.stop = t.span.stop ∧ e.cause ≠ .unterminatedComment) own
        ((tokenize source).tokens.filter fun t => t.kind = .error) ∧
      ∀ e, open? = some e ↔ LeavesOpen source e) ∧
    Logged.tokenize source = tokenize source ∧
    (∀ depth log cs,
      (Logged.literal depth log cs).log = log ++ (literal depth cs).failure?.toList) ∧
    (∀ depth whole fuel braces log cs,
      (Logged.hole (Logged.literal depth) whole fuel braces log cs).log = log) := by
  refine ⟨?_, Logged.tokenize_eq source, Logged.literal_log, Logged.hole_log⟩
  obtain ⟨own, open?, herrors, hbelong, hopen⟩ :=
    @Cursor.tokens_errors_belong [] source.toList _ (Nat.lt_succ_self _)
  have heof : (tokenize source).tokens.filter (fun t => t.kind = .error) =
      (tokenize source).body.filter fun t => t.kind = .error := by
    rw [Lexed.tokens, List.filter_append, (tokenize_ends source).1]
    exact List.append_nil _
  have herrors : (tokenize source).errors = own ++ open?.toList := herrors
  refine ⟨own, open?, herrors, ?_, ?_, hopen⟩
  · rw [herrors, List.length_append, List.countP_eq_length_filter, heof]
    exact congrArg (· + _) hbelong.length_eq
  · rw [heof]
    exact hbelong.imp fun e t h => ⟨h, h.inside.1, h.inside.2, h.cause_ne⟩

-- the character literal in the hole fails, and the comment behind the string has no end
example : (tokenize "$\"\x7b 'a \x7d\n/*").errors.map (fun e => (e.cause, e.span.offset)) =
    [(.unterminatedString, 4), (.unterminatedComment, 9)] := by decide +kernel

end CommandModules

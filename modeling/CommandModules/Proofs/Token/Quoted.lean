/-
  Command modules — quoted text is one token.

  * `Quotation`: the ways to quote a text so that it is taken word for word, `Quotation.quote`
    the quoted text, and `Quotation.Applies` the texts that can be quoted so;
  * `regularBody_escaped`, `verbatimBody_doubled` and `rawBody_between`: each body is read up
    to the quotes that close it, whatever follows them but one more quote;
  * `tokens_errors_behind`: an error concerns what is read behind the place where reading begins;
  * `tokenize_quote`: a text that begins with a quoted one has it as its first token.
-/
import Mathlib.Data.List.Infix
import CommandModules.Proofs.Safe.Lexical
import CommandModules.Proofs.Token.Closed

namespace CommandModules

open Text

/-! ## Quoting -/

/-- The text with a backslash before each quote and each backslash. -/
def escaped (cs : List Char) : List Char :=
  cs.flatMap fun c => if c = '"' ∨ c = '\\' then ['\\', c] else [c]

/-- The text with each quote doubled. -/
def doubled (cs : List Char) : List Char :=
  cs.flatMap fun c => if c = '"' then ['"', '"'] else [c]

/-- How a text is quoted: in one of the three forms of a string, the raw one with any number of
    `$` in front. -/
inductive Quotation where
  | regular
  | verbatim
  | raw (dollars quotes : Nat)
deriving DecidableEq, Repr

namespace Quotation

/-- The characters of the quoted text. -/
def chars (cs : List Char) : Quotation → List Char
  | .regular => '"' :: (escaped cs ++ ['"'])
  | .verbatim => '@' :: '"' :: (doubled cs ++ ['"'])
  | .raw dollars quotes => List.replicate dollars '$' ++
      (List.replicate quotes '"' ++ (cs ++ List.replicate quotes '"'))

/-- The quoted text. -/
def quote (q : Quotation) (s : String) : String :=
  String.ofList (q.chars s.toList)

/-- Is every run of quotes in the text shorter than this? -/
def RunsBelow (quotes : Nat) (cs : List Char) : Prop :=
  ∀ run, List.replicate run '"' <:+: cs → run < quotes

/-- Can the text be quoted so?  A regular string is one line; a raw one holds no run of quotes
    that would close it, and would be taken for part of its opening quotes if it began with one. -/
def Applies (cs : List Char) : Quotation → Prop
  | .regular => '\n' ∉ cs ∧ '\r' ∉ cs
  | .verbatim => True
  | .raw _ quotes => 3 ≤ quotes ∧ RunsBelow quotes cs ∧ cs ≠ [] ∧ cs.head? ≠ some '"'

theorem runsBelow_iff {quotes : Nat} {cs : List Char} :
    RunsBelow quotes cs ↔ ¬ List.replicate quotes '"' <:+: cs := by
  constructor
  · intro h hi
    exact Nat.lt_irrefl quotes (h quotes hi)
  · intro h run hi
    by_contra hrun
    refine h (List.IsInfix.trans ?_ hi)
    obtain ⟨more, rfl⟩ := Nat.exists_eq_add_of_le (Nat.le_of_not_lt hrun)
    rw [← List.replicate_append_replicate]
    exact (List.prefix_append _ _).isInfix

instance (quotes : Nat) (cs : List Char) : Decidable (RunsBelow quotes cs) :=
  decidable_of_iff _ runsBelow_iff.symm

instance (cs : List Char) : (q : Quotation) → Decidable (q.Applies cs)
  | .regular => inferInstanceAs (Decidable ('\n' ∉ cs ∧ '\r' ∉ cs))
  | .verbatim => inferInstanceAs (Decidable True)
  | .raw _ quotes => inferInstanceAs
      (Decidable (3 ≤ quotes ∧ RunsBelow quotes cs ∧ cs ≠ [] ∧ cs.head? ≠ some '"'))

end Quotation

open Quotation

/-! ## Bodies -/

section
variable {whole cs rest : List Char} {quotes closing : Nat}

theorem escaped_cons (c : Char) (cs : List Char) : escaped (c :: cs) =
    (if c = '"' ∨ c = '\\' then ['\\', c] else [c]) ++ escaped cs :=
  List.flatMap_cons

theorem doubled_cons (c : Char) (cs : List Char) : doubled (c :: cs) =
    (if c = '"' then ['"', '"'] else [c]) ++ doubled cs :=
  List.flatMap_cons

theorem regularBody_escaped (hn : '\n' ∉ cs) (hr : '\r' ∉ cs) :
    regularBody whole '"' (escaped cs ++ '"' :: rest) = .closed rest := by
  induction cs with
  | nil =>
    rw [escaped, List.flatMap_nil, List.nil_append, regularBody] <;> simp
  | cons c cs ih =>
    obtain ⟨hnc, hn⟩ := List.ne_and_not_mem_of_not_mem_cons hn
    obtain ⟨hrc, hr⟩ := List.ne_and_not_mem_of_not_mem_cons hr
    rw [escaped_cons]
    by_cases hc : c = '"' ∨ c = '\\'
    · rw [if_pos hc, List.append_assoc, List.cons_append, List.cons_append, List.nil_append,
        regularBody, if_neg hnc.symm]
      exact ih hn hr
    · obtain ⟨hq, hb⟩ := not_or.1 hc
      rw [if_neg hc, List.append_assoc, List.cons_append, List.nil_append,
        regularBody_cons hnc.symm hrc.symm hb, if_neg hq]
      exact ih hn hr

theorem verbatimBody_doubled (hr : rest.head? ≠ some '"') :
    verbatimBody whole (doubled cs ++ '"' :: rest) = .closed rest := by
  induction cs with
  | nil => exact verbatimBody_quote hr
  | cons c cs ih =>
    rw [doubled_cons]
    by_cases hc : c = '"'
    · rw [if_pos hc, List.append_assoc, List.cons_append, List.cons_append, List.nil_append,
        verbatimBody]
      exact ih
    · rw [if_neg hc, List.append_assoc, List.cons_append, List.nil_append, verbatimBody_cons hc]
      exact ih

theorem rawBody_quotes (run more : Nat) (cs : List Char) :
    rawBody whole quotes run (List.replicate more '"' ++ cs) =
      rawBody whole quotes (run + more) cs := by
  induction more generalizing run with
  | zero => rfl
  | succ more ih =>
    rw [List.replicate_succ, List.cons_append, rawBody, if_pos rfl, ih, Nat.add_right_comm]
    rfl

/-- A raw string is read up to the run that closes it; the run may begin with quotes of the
    content.  The `run` quotes that were just read count as the head of the content. -/
theorem rawBody_between (run : Nat) (h : RunsBelow quotes (List.replicate run '"' ++ cs))
    (hle : quotes ≤ closing) (hr : rest.head? ≠ some '"') :
    rawBody whole quotes run (cs ++ (List.replicate closing '"' ++ rest)) = .closed rest := by
  induction cs generalizing run with
  | nil =>
    rw [List.nil_append, rawBody_quotes]
    exact rawBody_stop (Nat.le_add_left_of_le hle) hr
  | cons c cs ih =>
    rw [List.cons_append, rawBody]
    by_cases hc : c = '"'
    · rw [if_pos hc]
      subst hc
      apply ih (run + 1)
      rwa [List.replicate_succ', List.append_assoc]
    · have hrun : run < quotes := h run (List.prefix_append _ _).isInfix
      rw [if_neg hc, if_neg (Nat.not_le.2 hrun)]
      refine ih 0 fun more hm => h more (hm.trans ?_)
      exact ((List.suffix_cons c cs).trans (List.suffix_append _ _)).isInfix

end

/-! ## Literals -/

section
variable {cs rest : List Char} {quotes closing : Nat}

/-- A regular string does not begin with as many quotes as a raw one. -/
theorem takeWhile_escaped (cs : List Char) (hq : rest.head? ≠ some '"') :
    ((escaped cs ++ '"' :: rest).takeWhile (· == '"')).length ≤ 1 := by
  cases cs with
  | nil =>
    cases rest with
    | nil => simp [escaped]
    | cons d ds => simp [escaped, show d ≠ '"' from fun hd => hq (by rw [hd]; rfl)]
  | cons c cs =>
    rw [escaped_cons]
    by_cases hc : c = '"' ∨ c = '\\'
    · simp [if_pos hc]
    · rw [if_neg hc]
      simp [(not_or.1 hc).1]

theorem quotedString_regular (hn : '\n' ∉ cs) (hr : '\r' ∉ cs) (hq : rest.head? ≠ some '"') :
    quotedString ('"' :: (escaped cs ++ '"' :: rest)) = .closed rest := by
  have hfew := takeWhile_escaped cs hq
  rw [quotedString, List.takeWhile_cons_of_pos rfl, List.length_cons, if_neg (by omega)]
  exact regularBody_escaped hn hr

theorem takeWhile_quotes (quotes : Nat) (hne : cs ≠ []) (hq : cs.head? ≠ some '"') (back : List Char) :
    (List.replicate quotes '"' ++ (cs ++ back)).takeWhile (· == '"') = List.replicate quotes '"' ∧
      (List.replicate quotes '"' ++ (cs ++ back)).dropWhile (· == '"') = cs ++ back := by
  obtain ⟨c, cs, rfl⟩ := List.exists_cons_of_ne_nil hne
  have hc : (c == '"') = false := by simpa using hq
  have hall : ∀ d ∈ List.replicate quotes '"', (d == '"') = true := by
    intro d hd
    rw [List.eq_of_mem_replicate hd]
    rfl
  rw [List.takeWhile_append_of_pos hall, List.dropWhile_append_of_pos hall, List.cons_append,
    List.takeWhile_cons_of_neg (by simp [hc]), List.dropWhile_cons_of_neg (by simp [hc])]
  simp

theorem quotedString_raw (h3 : 3 ≤ quotes) (hruns : RunsBelow quotes cs) (hne : cs ≠ [])
    (hc : cs.head? ≠ some '"') (hle : quotes ≤ closing) (hq : rest.head? ≠ some '"') :
    quotedString (List.replicate quotes '"' ++ (cs ++ (List.replicate closing '"' ++ rest))) =
      .closed rest := by
  rw [quotedString, (takeWhile_quotes quotes hne hc _).1, List.length_replicate, if_pos h3,
    List.drop_left' (by rw [List.length_replicate])]
  exact rawBody_between 0 hruns hle hq

theorem dollarLiteral_quoted (dollars : Nat) (nested : List Char → Reading) (h3 : 3 ≤ quotes)
    (hruns : RunsBelow quotes cs) (hne : cs ≠ []) (hc : cs.head? ≠ some '"')
    (hle : quotes ≤ closing) (hq : rest.head? ≠ some '"') :
    dollarLiteral nested (List.replicate dollars '$' ++
      (List.replicate quotes '"' ++ (cs ++ (List.replicate closing '"' ++ rest)))) =
      .closed rest := by
  obtain ⟨more, rfl⟩ := Nat.exists_eq_add_of_le h3
  have hdollars : ∀ d ∈ List.replicate dollars '$', (d == '$') = true := by
    intro d hd
    rw [List.eq_of_mem_replicate hd]
    rfl
  have hdrop (back : List Char) : (List.replicate dollars '$' ++
      (List.replicate (3 + more) '"' ++ back)).dropWhile (· == '$') =
      '"' :: '"' :: '"' :: (List.replicate more '"' ++ back) := by
    rw [List.dropWhile_append_of_pos hdollars, ← List.replicate_append_replicate]
    rfl
  obtain ⟨htake, hleft⟩ := takeWhile_quotes more hne hc
    (List.replicate closing '"' ++ rest)
  rw [dollarLiteral, hdrop]
  simp only [htake, hleft, List.length_replicate]
  exact rawBody_between 0 hruns hle hq

end

/-! ## Tokens -/

/-- A quoted text is read as one string. -/
theorem scan_quoted {q : Quotation} {cs rest : List Char} (h : q.Applies cs)
    (hr : rest.head? ≠ some '"') : ∃ c ds, q.chars cs ++ rest = c :: ds ∧
      skipGap (c :: ds) = ⟨c :: ds, none⟩ ∧ scan c ds = (.stringLiteral, .closed rest) := by
  cases q with
  | regular =>
    refine ⟨'"', escaped cs ++ '"' :: rest, by simp [chars], rfl, ?_⟩
    exact Prod.ext rfl (quotedString_regular h.1 h.2 hr)
  | verbatim =>
    refine ⟨'@', '"' :: (doubled cs ++ '"' :: rest), by simp [chars], rfl, ?_⟩
    exact Prod.ext rfl (verbatimBody_doubled hr)
  | raw dollars quotes =>
    obtain ⟨h3, hruns, hne, hc⟩ := h
    have htext : (raw dollars quotes).chars cs ++ rest = List.replicate dollars '$' ++
        (List.replicate quotes '"' ++ (cs ++ (List.replicate quotes '"' ++ rest))) := by
      simp [chars]
    rw [htext]
    cases dollars with
    | zero =>
      have hread := quotedString_raw h3 hruns hne hc le_rfl hr
      obtain ⟨more, rfl⟩ := Nat.exists_eq_add_of_le' (Nat.le_of_succ_le h3)
      exact ⟨'"', _, rfl, rfl, Prod.ext rfl hread⟩
    | succ dollars =>
      have hread (nested : List Char → Reading) :=
        dollarLiteral_quoted (dollars + 1) nested h3 hruns hne hc le_rfl hr
      exact ⟨'$', _, rfl, rfl, Prod.ext rfl (hread _)⟩

namespace Cursor

variable {pre text : List Char} {e : LexError}

theorem errorAt_behind {cause : LexCause} {start rest : List Char} (hs : start <:+ text)
    (hr : rest <:+ start) : bytes pre ≤ ((behind pre text).errorAt cause start rest).span.offset := by
  obtain ⟨front, rfl⟩ := hs
  obtain ⟨mid, rfl⟩ := hr
  rw [errorAt, behind_skipTo, behind_spanTo]
  simp [Span.covering]

theorem next_errors_behind (h : e ∈ (behind pre text).next.errors) : bytes pre ≤ e.span.offset := by
  obtain ⟨gap, hg, -⟩ := skipGap_covers text
  simp only [next, show (behind pre text).rest = text from rfl] at h
  split at h
  · obtain ⟨comment, hc, rfl⟩ : ∃ comment, (skipGap text).openComment? = some comment ∧ _ = e := by
      simpa using h
    exact errorAt_behind (skipGap_openComment hc) List.nil_suffix
  · rename_i c cs hr
    rw [hr] at hg
    have hw := scan_within c cs
    split at h
    · cases h
    · rename_i hs
      rw [hs] at hw
      rw [List.mem_singleton.1 h, hr, hg, behind_skipTo]
      refine Nat.le_trans ?_ (errorAt_behind hw.1 hw.2.1)
      simp

/-- An error stands behind the place where reading begins. -/
theorem tokens_errors_behind {fuel : Nat} (h : e ∈ ((behind pre text).tokens fuel).errors) :
    bytes pre ≤ e.span.offset := by
  induction fuel generalizing pre text with
  | zero => cases h
  | succ fuel ih =>
    rw [tokens] at h
    rcases next_behind pre text with ⟨gap, rfl, -, ht, -⟩ | ⟨gap, lexeme, rest, kind, rfl, -, -, hk, ht, hc⟩
    · simp only [ht, if_true] at h
      exact next_errors_behind h
    · simp only [ht, hk, hc, if_false, List.mem_append] at h
      rcases h with h | h
      · exact next_errors_behind h
      · refine Nat.le_trans ?_ (ih h)
        simp only [bytes_append]
        omega

end Cursor

/-- **Quoted text is one token.**  A text that begins with a quoted one, behind which no quote
    stands, is read as a string whose lexeme is the quoted text, from the head of the text on;
    behind it the rest is read as if it stood alone, and every error stands there. -/
theorem tokenize_quote {q : Quotation} {s rest : String} (h : q.Applies s.toList)
    (hr : rest.toList.head? ≠ some '"') :
    ∃ later : Lexed,
      tokenize (q.quote s ++ rest) =
        ⟨⟨.stringLiteral, q.quote s, .covering [] (q.quote s).toList⟩ :: later.body, later.eof,
          later.errors⟩ ∧
      erase later.body = tokensFrom rest.toList ∧
      ∀ e ∈ later.errors, (q.quote s).utf8ByteSize ≤ e.span.offset := by
  obtain ⟨c, ds, htext, hgap, hscan⟩ := scan_quoted h hr
  have hquote : (q.quote s).toList = q.chars s.toList := String.toList_ofList
  have hlen : rest.toList.length < (c :: ds).length := by
    have := (scan_within c ds).rest.length_le
    rw [hscan] at this
    exact Nat.lt_succ_of_le this
  -- the token begins at the head of the text
  obtain ⟨gap, hgap, hnext⟩ := Cursor.next_of_token [] hgap hscan htext.symm
  obtain rfl : gap = [] := List.self_eq_append_left.1 (htext.trans hgap)
  refine ⟨(Cursor.behind (q.chars s.toList) rest.toList).tokens (c :: ds).length, ?_, ?_, ?_⟩
  · have hstart : Cursor.ofText (q.quote s ++ rest) = Cursor.behind [] (c :: ds) := by
      rw [Cursor.ofText, String.toList_append, hquote, htext]
      rfl
    rw [tokenize, hstart, Cursor.tokens, hnext, hquote]
    rfl
  · exact Cursor.tokens_erase rfl hlen (Nat.lt_succ_self _)
  · intro e he
    rw [← bytes_toList, hquote]
    exact Cursor.tokens_errors_behind he

/-- One text for each way of quoting; the run that closes a raw string may be longer than the one
    that opens it. -/
theorem tokenize_quote_demo :
    let texts := [(Quotation.regular, "a\"\\"), (.verbatim, "a\"\n"), (.raw 2 3, "a\n\"\"")]
    texts.map (fun x => x.1.quote x.2) =
      ["\"a\\\"\\\\\"", "@\"a\"\"\n\"", "$$\"\"\"a\n\"\"\"\"\""] ∧
    ∀ x ∈ texts, ∃ later : Lexed,
      tokenize (x.1.quote x.2 ++ "; @") =
        ⟨⟨.stringLiteral, x.1.quote x.2, .covering [] (x.1.quote x.2).toList⟩ :: later.body,
          later.eof, later.errors⟩ ∧
      erase later.body = tokensFrom "; @".toList ∧
      ∀ e ∈ later.errors, (x.1.quote x.2).utf8ByteSize ≤ e.span.offset := by
  intro texts
  have happlies : ∀ x ∈ texts, x.1.Applies x.2.toList := by decide
  exact ⟨by decide, fun x hx => tokenize_quote (happlies x hx) (by decide)⟩

end CommandModules

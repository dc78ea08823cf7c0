/-
  Command modules — interpolated strings nest.

  * `IsPieces`, `IsItems` and `IsLiteral`: the texts of an interpolated string between its
    quotes, of a hole between its braces, and of a literal that stands in a hole, to any depth;
  * `interpolatedBody_pieces`, `hole_items` and `literal_closed`: each is read whole, whatever
    follows it but one more quote;
  * `tokenize_closed`: a text that is read as one token has it as its first token;
  * `tokenize_interpolated`: so a text that begins with an interpolated string does.
-/
import CommandModules.Proofs.Token.Quoted

namespace CommandModules

open Text Quotation

/-! ## What stands between the quotes -/

/-- The body of a string or character literal in one line: a backslash escapes the character
    behind it, and no quote stands outside an escape. -/
inductive IsEscapedBody (quote : Char) : List Char → Prop
  | nil : IsEscapedBody quote []
  | char {c cs} : c ∉ [quote, '\\', '\r', '\n'] → IsEscapedBody quote cs → IsEscapedBody quote (c :: cs)
  | escape {c cs} : c ≠ '\n' → IsEscapedBody quote cs → IsEscapedBody quote ('\\' :: c :: cs)

mutual

/-- What an interpolated string holds between its quotes: text, in which a brace is doubled,
    and holes. -/
inductive IsPieces : List Char → Prop
  | nil : IsPieces []
  | char {c cs} : c ∉ ['"', '\x7b', '\\', '\r', '\n'] → IsPieces cs → IsPieces (c :: cs)
  | escape {c cs} : c ≠ '\r' → c ≠ '\n' → IsPieces cs → IsPieces ('\\' :: c :: cs)
  | brace {cs} : IsPieces cs → IsPieces ('\x7b' :: '\x7b' :: cs)
  | hole {items cs} : IsItems items → items.head? ≠ some '\x7b' → IsPieces cs →
      IsPieces ('\x7b' :: (items ++ '\x7d' :: cs))

/-- What a hole holds between its braces: text, groups in braces, and whole literals. -/
inductive IsItems : List Char → Prop
  | nil : IsItems []
  | char {c cs} : c ∉ ['\x7b', '\x7d', '"', '\'', '@', '$'] → IsItems cs → IsItems (c :: cs)
  | group {items cs} : IsItems items → IsItems cs → IsItems ('\x7b' :: (items ++ '\x7d' :: cs))
  | literal {text cs} : IsLiteral text → cs.head? ≠ some '"' → IsItems cs → IsItems (text ++ cs)

/-- A whole literal.  The run of quotes that closes a raw string is as long as the one that
    opens it, or longer. -/
inductive IsLiteral : List Char → Prop
  | regular {body} : IsEscapedBody '"' body → IsLiteral ('"' :: (body ++ ['"']))
  | character {body} : IsEscapedBody '\'' body → IsLiteral ('\'' :: (body ++ ['\'']))
  | verbatim (cs) : IsLiteral ('@' :: '"' :: (doubled cs ++ ['"']))
  | raw {cs} (dollars : Nat) {quotes closing : Nat} : 3 ≤ quotes → quotes ≤ closing →
      RunsBelow quotes cs → cs ≠ [] → cs.head? ≠ some '"' →
      IsLiteral (List.replicate dollars '$' ++
        (List.replicate quotes '"' ++ (cs ++ List.replicate closing '"')))
  | interpolated {pieces} : IsPieces pieces → IsLiteral ('$' :: '"' :: (pieces ++ ['"']))

end

/-- Is the text an interpolated string? -/
def IsInterpolated (cs : List Char) : Prop :=
  ∃ pieces, IsPieces pieces ∧ cs = '$' :: '"' :: (pieces ++ ['"'])

/-! ## Strings without holes -/

section
variable {whole body pieces rest : List Char} {quote : Char}

theorem regularBody_body (h : IsEscapedBody quote body) (hq : quote ∉ ['\\', '\r', '\n']) :
    regularBody whole quote (body ++ quote :: rest) = .closed rest := by
  induction h with
  | nil =>
    simp only [List.mem_cons, List.not_mem_nil, or_false, not_or] at hq
    rw [List.nil_append, regularBody_cons hq.2.2 hq.2.1 hq.1, if_pos rfl]
  | char hc _ ih =>
    simp only [List.mem_cons, List.not_mem_nil, or_false, not_or] at hc
    rw [List.cons_append, regularBody_cons hc.2.2.2 hc.2.2.1 hc.2.1, if_neg hc.1]
    exact ih
  | escape hc _ ih =>
    rw [List.cons_append, List.cons_append, regularBody, if_neg hc]
    exact ih

/-- A regular string does not begin with as many quotes as a raw one. -/
theorem IsEscapedBody.takeWhile_quotes (h : IsEscapedBody '"' body) (hr : rest.head? ≠ some '"') :
    ((body ++ '"' :: rest).takeWhile (· == '"')).length ≤ 1 := by
  cases h with
  | nil =>
    rw [List.nil_append, List.takeWhile_cons_of_pos rfl]
    cases rest with
    | nil => exact le_rfl
    | cons c cs => simp [show c ≠ '"' from fun hc => hr (by rw [hc]; rfl)]
  | char hc => simp [(List.ne_and_not_mem_of_not_mem_cons hc).1]
  | escape => simp

theorem quotedString_body (h : IsEscapedBody '"' body) (hr : rest.head? ≠ some '"') :
    quotedString ('"' :: (body ++ '"' :: rest)) = .closed rest := by
  have hfew := h.takeWhile_quotes hr
  rw [quotedString, List.takeWhile_cons_of_pos rfl, List.length_cons, if_neg (by omega)]
  exact regularBody_body h (by decide)

/-- An interpolated string does not begin with as many quotes as a raw one. -/
theorem IsPieces.isOneQuote (h : IsPieces pieces) (hr : rest.head? ≠ some '"') :
    IsOneQuote (pieces ++ '"' :: rest) := by
  rintro ds hds
  cases h with
  | nil =>
    rw [List.nil_append] at hds
    exact hr (by rw [(List.cons.inj hds).2]; rfl)
  | char hc => exact (List.ne_and_not_mem_of_not_mem_cons hc).1 (List.cons.inj hds).1
  | escape | brace | hole => cases hds

end

/-! ## Holes and what stands in them

A bound on the steps is passed on: what is left of it behind a stretch is enough for what
follows, since a stretch takes no more steps than it has characters. -/

section
variable {whole rest : List Char} {depth : Nat}

theorem IsLiteral.head {text : List Char} (h : IsLiteral text) :
    ∃ c cs, text = c :: cs ∧ opensLiteral c = true := by
  cases h with
  | regular | character | verbatim | interpolated => exact ⟨_, _, rfl, rfl⟩
  | raw dollars h3 =>
    cases dollars with
    | zero =>
      obtain ⟨more, rfl⟩ := Nat.exists_eq_add_of_le' (Nat.le_of_succ_le h3)
      exact ⟨'"', _, rfl, rfl⟩
    | succ dollars => exact ⟨'$', _, rfl, rfl⟩

theorem IsLiteral.length_pos {text : List Char} (h : IsLiteral text) : 0 < text.length := by
  obtain ⟨c, cs, rfl, -⟩ := h.head
  exact Nat.succ_pos _

/-- A literal that holds no other one is read whole. -/
theorem literal_raw {cs : List Char} {quotes closing : Nat} (dollars : Nat) (h3 : 3 ≤ quotes)
    (hle : quotes ≤ closing) (hruns : RunsBelow quotes cs) (hne : cs ≠ [])
    (hc : cs.head? ≠ some '"') (hr : rest.head? ≠ some '"') :
    literal (depth + 1) (List.replicate dollars '$' ++
      (List.replicate quotes '"' ++ (cs ++ (List.replicate closing '"' ++ rest)))) =
      .closed rest := by
  cases dollars with
  | zero =>
    have hread := quotedString_raw h3 hruns hne hc hle hr
    obtain ⟨more, rfl⟩ := Nat.exists_eq_add_of_le' (Nat.le_of_succ_le h3)
    exact hread
  | succ dollars => exact dollarLiteral_quoted (dollars + 1) _ h3 hruns hne hc hle hr

mutual

/-- A literal is read whole. -/
theorem literal_closed {depth : Nat} {text rest : List Char} (h : IsLiteral text)
    (hd : text.length ≤ depth) (hr : rest.head? ≠ some '"') : literal depth (text ++ rest) = .closed rest := by
  obtain ⟨depth, rfl⟩ := Nat.exists_eq_add_of_le' (Nat.le_trans h.length_pos hd)
  cases h with
  | @regular body hb =>
    simpa [literal] using quotedString_body hb hr
  | @character body hb =>
    simpa [literal] using regularBody_body hb (by decide)
  | verbatim cs =>
    simpa [literal, atLiteral] using verbatimBody_doubled hr
  | raw dollars h3 hle hruns hne hc =>
    simpa using literal_raw dollars h3 hle hruns hne hc hr
  | @interpolated pieces hp =>
    have hone := hp.isOneQuote hr
    simp only [List.length_cons, List.length_append] at hd
    obtain ⟨fuel, hle, heq⟩ := interpolatedBody_pieces hp (show pieces.length ≤ depth by omega)
      ('$' :: '"' :: (pieces ++ '"' :: rest)) ('"' :: rest) (rest.length + 2)
    obtain ⟨more, rfl⟩ := Nat.exists_eq_add_of_le' hle
    have hbody : ('$' :: '"' :: (pieces ++ ['"'])) ++ rest =
        '$' :: '"' :: (pieces ++ '"' :: rest) := by simp
    rw [hbody, literal, dollarLiteral_regular rfl hone, List.length_append, List.length_cons,
      Nat.add_assoc, heq]
    exact interpolatedBody_close nofun
termination_by (text.length, 0)
decreasing_by
  subst_vars
  simp only [Prod.lex_def, List.length_append, List.length_cons]
  omega

/-- What an interpolated string holds is read whole. -/
theorem interpolatedBody_pieces {depth : Nat} {pieces : List Char} (h : IsPieces pieces)
    (hd : pieces.length ≤ depth) (whole rest : List Char) (fuel : Nat) : ∃ fuel', fuel ≤ fuel' ∧
      interpolatedBody (literal depth) whole false (pieces.length + fuel) (pieces ++ rest) =
        interpolatedBody (literal depth) whole false fuel' rest := by
  cases h with
  | nil => exact ⟨fuel, le_rfl, by rw [List.nil_append, List.length_nil, Nat.zero_add]⟩
  | @char c cs hc h =>
    simp only [List.mem_cons, List.not_mem_nil, or_false, not_or] at hc
    obtain ⟨fuel', hle, heq⟩ := interpolatedBody_pieces h (Nat.le_of_succ_le hd) whole rest fuel
    refine ⟨fuel', hle, ?_⟩
    rw [List.length_cons, Nat.add_right_comm, List.cons_append,
      interpolatedBody_plain (by simp [hc]) (by simp [hc]) hc.1 hc.2.1, heq]
  | @escape c cs hcr hlf h =>
    simp only [List.length_cons] at hd
    obtain ⟨fuel', hle, heq⟩ := interpolatedBody_pieces h
      (show cs.length ≤ depth by omega) whole rest (fuel + 1)
    refine ⟨fuel', by omega, ?_⟩
    rw [List.length_cons, List.length_cons, List.cons_append, List.cons_append,
      show cs.length + 1 + 1 + fuel = cs.length + (fuel + 1) + 1 by omega, interpolatedBody_escape,
      afterEscape, if_neg hlf, heq]
  | @brace cs h =>
    simp only [List.length_cons] at hd
    obtain ⟨fuel', hle, heq⟩ := interpolatedBody_pieces h
      (show cs.length ≤ depth by omega) whole rest (fuel + 1)
    refine ⟨fuel', by omega, ?_⟩
    rw [List.length_cons, List.length_cons, List.cons_append, List.cons_append,
      show cs.length + 1 + 1 + fuel = cs.length + (fuel + 1) + 1 by omega, interpolatedBody_brace,
      heq]
  | @hole items cs hi hh h =>
    simp only [List.length_cons, List.length_append] at hd
    obtain ⟨left, hleft, hread⟩ := hole_items hi (show items.length ≤ depth by omega)
      (show ('\x7d' :: (cs ++ rest)).head? ≠ some '"' by simp) whole ((cs ++ rest).length + 2) 0
    obtain ⟨more, rfl⟩ := Nat.exists_eq_add_of_le' hleft
    have hhole : hole (literal depth) whole ((items ++ '\x7d' :: (cs ++ rest)).length + 1) 0
        (items ++ '\x7d' :: (cs ++ rest)) = .closed (cs ++ rest) := by
      rw [List.length_append, List.length_cons, Nat.add_assoc, hread]
      rfl
    obtain ⟨fuel', hle, heq⟩ := interpolatedBody_pieces h (show cs.length ≤ depth by omega)
      whole rest (items.length + 1 + fuel)
    refine ⟨fuel', by omega, ?_⟩
    have hsteps : ('\x7b' :: (items ++ '\x7d' :: cs)).length + fuel =
        cs.length + (items.length + 1 + fuel) + 1 := by
      simp only [List.length_cons, List.length_append]
      omega
    have hfirst : (items ++ '\x7d' :: (cs ++ rest)).head? ≠ some '\x7b' := by
      cases items with
      | nil => simp
      | cons => exact hh
    rw [hsteps, List.cons_append, List.append_assoc, List.cons_append,
      interpolatedBody_hole hfirst hhole, heq]
termination_by (pieces.length, 0)
decreasing_by
  all_goals
    subst_vars
    simp only [Prod.lex_def, List.length_append, List.length_cons]
    omega

/-- What stands in a hole is read whole, and no brace of it closes the hole. -/
theorem hole_items {depth : Nat} {items rest : List Char} (h : IsItems items)
    (hd : items.length ≤ depth) (hr : rest.head? ≠ some '"') (whole : List Char)
    (fuel level : Nat) : ∃ fuel', fuel ≤ fuel' ∧
      hole (literal depth) whole (items.length + fuel) level (items ++ rest) =
        hole (literal depth) whole fuel' level rest := by
  cases h with
  | nil => exact ⟨fuel, le_rfl, by rw [List.nil_append, List.length_nil, Nat.zero_add]⟩
  | @char c cs hc h =>
    simp only [List.mem_cons, List.not_mem_nil, or_false, not_or] at hc
    obtain ⟨fuel', hle, heq⟩ := hole_items h (Nat.le_of_succ_le hd) hr whole fuel level
    refine ⟨fuel', hle, ?_⟩
    rw [List.length_cons, Nat.add_right_comm, List.cons_append,
      hole_plain hc.1 hc.2.1 (by simp [opensLiteral, hc]), heq]
  | @group inner cs hi h =>
    simp only [List.length_cons, List.length_append] at hd
    obtain ⟨left, hleft, hread⟩ := hole_items hi (show inner.length ≤ depth by omega)
      (show ('\x7d' :: (cs ++ rest)).head? ≠ some '"' by simp) whole (cs.length + fuel + 1)
      (level + 1)
    obtain ⟨more, rfl⟩ := Nat.exists_eq_add_of_le hleft
    obtain ⟨fuel', hle, heq⟩ := hole_items h (show cs.length ≤ depth by omega) hr whole
      (fuel + more) level
    refine ⟨fuel', by omega, ?_⟩
    have hsteps : ('\x7b' :: (inner ++ '\x7d' :: cs)).length + fuel =
        inner.length + (cs.length + fuel + 1) + 1 := by
      simp only [List.length_cons, List.length_append]
      omega
    rw [hsteps, List.cons_append, List.append_assoc, List.cons_append, hole_open, hread,
      show cs.length + fuel + 1 + more = cs.length + (fuel + more) + 1 by omega, hole_close, heq]
  | @literal text cs ht hq h =>
    obtain ⟨c, ds, rfl, hopens⟩ := ht.head
    simp only [List.length_append, List.length_cons] at hd
    have hclosed : literal depth (c :: ds ++ (cs ++ rest)) = .closed (cs ++ rest) := by
      refine literal_closed ht (by rw [List.length_cons]; omega) ?_
      cases cs with
      | nil => exact hr
      | cons d cs => exact hq
    obtain ⟨fuel', hle, heq⟩ := hole_items h (show cs.length ≤ depth by omega) hr whole
      (ds.length + fuel) level
    refine ⟨fuel', by omega, ?_⟩
    rw [List.append_assoc, List.length_append, List.length_cons,
      show ds.length + 1 + cs.length + fuel = cs.length + (ds.length + fuel) + 1 by omega]
    exact (hole_literal hopens hclosed).trans heq
termination_by (items.length, 1)
decreasing_by
  all_goals
    subst_vars
    simp only [Prod.lex_def, List.length_append, List.length_cons]
    omega

end

end

/-! ## Tokens -/

/-- A text that is read as one token has it as its first token; behind it the rest is read as if
    it stood alone, and every error stands there. -/
theorem tokenize_closed {kind : TokenKind} {text rest : String} {c : Char} {ds : List Char}
    (htext : text.toList ++ rest.toList = c :: ds) (hgap : skipGap (c :: ds) = ⟨c :: ds, none⟩)
    (hscan : scan c ds = (kind, .closed rest.toList)) :
    ∃ later : Lexed,
      tokenize (text ++ rest) =
        ⟨⟨kind, text, .covering [] text.toList⟩ :: later.body, later.eof, later.errors⟩ ∧
      erase later.body = tokensFrom rest.toList ∧
      ∀ e ∈ later.errors, text.utf8ByteSize ≤ e.span.offset := by
  have hkind : kind ≠ .eof := by
    have := scan_ne_eof c ds
    rwa [hscan] at this
  have hlen : rest.toList.length < (c :: ds).length := by
    have := (scan_within c ds).rest.length_le
    rw [hscan] at this
    exact Nat.lt_succ_of_le this
  obtain ⟨gap, hgap, hnext⟩ := Cursor.next_of_token [] hgap hscan htext.symm
  obtain rfl : gap = [] := List.self_eq_append_left.1 (htext.trans hgap)
  have hstart : Cursor.ofText (text ++ rest) = Cursor.behind [] (c :: ds) := by
    rw [Cursor.ofText, String.toList_append, htext]
    rfl
  refine ⟨(Cursor.behind text.toList rest.toList).tokens (c :: ds).length, ?_,
    Cursor.tokens_erase rfl hlen (Nat.lt_succ_self _), fun e he => ?_⟩
  · rw [tokenize, hstart, Cursor.tokens, hnext]
    dsimp only
    rw [if_neg hkind, String.ofList_toList]
    rfl
  · rw [← bytes_toList]
    exact Cursor.tokens_errors_behind he

/-- **Interpolated strings nest.**  A text that begins with an interpolated string, whose holes
    hold whole literals to any depth, and behind which no quote stands, has this string as its
    first token; behind it the rest is read as if it stood alone, and every error stands there. -/
theorem tokenize_interpolated {text rest : String} (h : IsInterpolated text.toList)
    (hr : rest.toList.head? ≠ some '"') :
    ∃ later : Lexed,
      tokenize (text ++ rest) =
        ⟨⟨.stringLiteral, text, .covering [] text.toList⟩ :: later.body, later.eof,
          later.errors⟩ ∧
      erase later.body = tokensFrom rest.toList ∧
      ∀ e ∈ later.errors, text.utf8ByteSize ≤ e.span.offset := by
  obtain ⟨pieces, hp, htext⟩ := h
  have hall : text.toList ++ rest.toList = '$' :: ('"' :: (pieces ++ ['"']) ++ rest.toList) := by
    rw [htext]
    rfl
  refine tokenize_closed hall rfl (Prod.ext rfl ?_)
  exact literal_closed (.interpolated hp) (by simp) hr

/-- Braces and quotes of what stands in a hole close neither the hole nor the string. -/
theorem tokenize_interpolated_demo :
    IsInterpolated "$\"\x7bf(\x7b '\x7d' \x7d, $\"\x7bb\x7d\x7d\")\x7d\\\"\"".toList ∧
    ∃ later : Lexed,
      tokenize ("$\"\x7bf(\x7b '\x7d' \x7d, $\"\x7bb\x7d\x7d\")\x7d\\\"\"" ++ "; @") =
        ⟨⟨.stringLiteral, "$\"\x7bf(\x7b '\x7d' \x7d, $\"\x7bb\x7d\x7d\")\x7d\\\"\"",
          .covering [] "$\"\x7bf(\x7b '\x7d' \x7d, $\"\x7bb\x7d\x7d\")\x7d\\\"\"".toList⟩ :: later.body,
          later.eof, later.errors⟩ ∧
      erase later.body = tokensFrom "; @".toList ∧
      ∀ e ∈ later.errors,
        "$\"\x7bf(\x7b '\x7d' \x7d, $\"\x7bb\x7d\x7d\")\x7d\\\"\"".utf8ByteSize ≤ e.span.offset := by
  have hb : IsItems ['b'] := .char (by decide) .nil
  have hbrace : IsPieces ['\x7d'] := .char (by decide) .nil
  have hinner : IsLiteral _ := .interpolated (.hole hb (by decide) hbrace)
  have hbody : IsEscapedBody '\'' ['\x7d'] := .char (by decide) .nil
  have hgroup : IsItems [' ', '\'', '\x7d', '\'', ' '] :=
    .char (by decide) (.literal (.character hbody) (by decide) (.char (by decide) .nil))
  have hlast : IsItems [')'] := .char (by decide) .nil
  have hitems : IsItems ('f' :: '(' :: _) := .char (by decide) (.char (by decide)
    (.group hgroup (.char (by decide : ',' ∉ _) (.char (by decide : ' ' ∉ _)
      (.literal hinner (by decide) hlast)))))
  have hescape : IsPieces ['\\', '"'] := .escape (by decide) (by decide) .nil
  have h : IsInterpolated "$\"\x7bf(\x7b '\x7d' \x7d, $\"\x7bb\x7d\x7d\")\x7d\\\"\"".toList :=
    ⟨_, .hole hitems (by decide) hescape, by decide⟩
  exact ⟨h, tokenize_interpolated h (by decide)⟩

end CommandModules

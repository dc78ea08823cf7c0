/-
  Command modules — what stands between tokens plays no part.

  * `Token.IsCut t`: the token is cut from some text, and is neither its end nor an error;
  * `SeparatesTokens cs`: a blank and any trivia behind it; `Separated ts cs`: the lexemes of the
    tokens `ts` with such a separator between any two neighbours;
  * `Spells.before`: the text of one token is read as it wherever no token goes on behind it;
    only behind a slash the text must not begin a comment either;
  * `tokenize_separated`: so tokens that are written with separators between them and trivia
    around them are read again as they were.
-/
import CommandModules.Proofs.Token.Words

namespace CommandModules

open Text

/-- No token goes on with trivia. -/
theorem Trivia.endsToken {gap : List Char} (h : Trivia False gap) : EndsToken gap := by
  have hblank {c : Char} (hc : isBlank c = true) : CommandModules.endsToken c = true := by
    have hall : ∀ n ∈ blankCodes, CommandModules.endsToken (Char.ofNat n) = true := by
      decide +kernel
    simpa using hall _ (mem_blankCodes hc)
  cases gap with
  | nil => exact .nil
  | cons c cs =>
    refine .cons ?_
    obtain hc | rfl | rfl := h.head
    · exact hblank hc
    · decide +kernel
    · decide +kernel

/-! ## Single tokens -/

/-- Is it a token of some text, other than its end and what is no token there? -/
def Token.IsCut (t : Token) : Prop :=
  ∃ source, t ∈ (tokenize source).tokens ∧ t.kind ≠ .eof ∧ t.kind ≠ .error

/-- The lexeme of a token spells it. -/
theorem Token.IsCut.spells {t : Token} (h : t.IsCut) : Spells t.lexeme.toList [erase t] := by
  obtain ⟨source, ht, hk, he⟩ := h
  have hbody : t ∈ (tokenize source).body := by
    rcases List.mem_append.1 ht with h | h
    · exact h
    · obtain rfl := List.mem_singleton.1 h
      exact absurd (congrArg Token.kind (tokenize_ends source).1) hk
  obtain ⟨as, cs, hb⟩ := List.append_of_mem hbody
  obtain ⟨text, htext, hs⟩ :=
    @spells_between source as [t] cs t t hb (by simpa using he) rfl rfl
  have hslice := tokenize_slice ht
  rw [Span.slice?, Span.sliceChars?_eq, htext, Option.map_some, Option.some_inj] at hslice
  rw [← hslice, String.toList_ofList]
  exact hs

/-- A text that begins with a token begins with it before anything; only a slash alone must not
    begin a comment with what follows. -/
theorem BeginsToken.append {c : Char} {cs back : List Char} (h : BeginsToken (c :: cs))
    (hs : c = '/' → cs = [] → back.head? ≠ some '/' ∧ back.head? ≠ some '*') :
    BeginsToken (c :: cs ++ back) := by
  have hgap := h.gapEnd_eq
  refine ⟨List.cons_ne_nil c (cs ++ back), ?_⟩
  rw [List.cons_append, skipGap_cons h.ne_mark]
  refine gapEnd_token (fun hc => ?_) ?_ ?_
  · rw [gapEnd_blank hc] at hgap
    exact gapEnd_ne (Nat.lt_succ_self _) hgap
  · rintro rfl
    have hline : gapEnd .line cs = ⟨'#' :: cs, none⟩ := hgap
    exact gapEnd_ne (Nat.lt_succ_self _) hline
  · rintro rfl
    cases cs with
    | nil => exact hs rfl rfl
    | cons d ds =>
      have hlt : ds.length < ('/' :: d :: ds).length := Nat.lt_add_of_pos_right Nat.two_pos
      constructor <;> intro hd <;> obtain rfl := Option.some_inj.1 hd
      · have hline : gapEnd .line ds = ⟨'/' :: '/' :: ds, none⟩ := hgap
        exact gapEnd_ne hlt hline
      · have hblock : gapEnd (.block ('/' :: '*' :: ds)) ds = ⟨'/' :: '*' :: ds, none⟩ := hgap
        exact gapEnd_ne hlt hblock

/-- The text of one token is read as the token before anything that no token goes on with; a
    slash must not begin a comment with it. -/
theorem Spells.before {cs back : List Char} {t : Token} (h : Spells cs [t]) (hb : EndsToken back)
    (hs : cs = ['/'] → back.head? ≠ some '/' ∧ back.head? ≠ some '*') :
    BeginsToken (cs ++ back) ∧ Reads (cs ++ back) [t] back := by
  have hbegin := h.begins [] .nil
  have hread := h.reads [] .nil
  rw [List.append_nil] at hbegin hread
  obtain ⟨c, ds, rfl⟩ := List.exists_cons_of_ne_nil h.text_ne_nil
  have hbegin' : BeginsToken (c :: ds ++ back) := hbegin.append fun hc hds => hs (by rw [hc, hds])
  refine ⟨hbegin', ?_⟩
  cases hread with
  | @token _ _ _ lexeme rest _ kind _ hg hscan hl hnil =>
    rw [hbegin.2] at hg
    cases hg
    obtain rfl := hnil.eq_of_nil
    have hscan' : scan c (ds ++ back) = (kind, .closed back) :=
      @scan_local ds [] [] back c kind hb (by simpa using hscan)
    rw [List.append_nil] at hl
    exact .token hbegin'.2 hscan' (by rw [← hl]; rfl) (.nil back)

/-! ## Tokens with separators between them -/

/-- A blank, and trivia behind it. -/
def SeparatesTokens (cs : List Char) : Prop :=
  ∃ c gap, cs = c :: gap ∧ isBlank c = true ∧ Trivia False gap

theorem SeparatesTokens.trivia {cs : List Char} (h : SeparatesTokens cs) : Trivia False cs := by
  obtain ⟨c, gap, rfl, hc, hg⟩ := h
  exact .blank hc hg

/-- No comment begins with the blank of a separator. -/
theorem SeparatesTokens.head?_ne {cs : List Char} (h : SeparatesTokens cs) {d : Char}
    (hd : isBlank d = false) (back : List Char) : (cs ++ back).head? ≠ some d := by
  obtain ⟨c, gap, rfl, hc, -⟩ := h
  intro h
  obtain rfl := Option.some_inj.1 h
  rw [hc] at hd
  cases hd

/-- The lexemes of the tokens, in their order, with a separator between any two neighbours. -/
inductive Separated : List Token → List Char → Prop
  | nil : Separated [] []
  | one (t) : Separated [t] t.lexeme.toList
  | cons {t u ts gap cs} : SeparatesTokens gap → Separated (u :: ts) cs →
      Separated (t :: u :: ts) (t.lexeme.toList ++ (gap ++ cs))

/-- Does the last of the tokens not run together with the text into a comment? -/
def SlashKept (ts : List Token) (back : List Char) : Prop :=
  ∀ t, ts.getLast? = some t → t.lexeme = "/" → back.head? ≠ some '/'

/-- Separated tokens are read one after the other. -/
theorem Separated.reads {ts : List Token} {cs back : List Char} (h : Separated ts cs)
    (hts : ∀ t ∈ ts, t.IsCut) (hb : Trivia False back) (hs : SlashKept ts back) (hne : ts ≠ []) :
    BeginsToken (cs ++ back) ∧ Reads (cs ++ back) (erase ts) back := by
  induction h with
  | nil => exact absurd rfl hne
  | one t =>
    refine (hts t (by simp)).spells.before hb.endsToken fun ht => ⟨hs t rfl ?_, ?_⟩
    · rw [← String.ofList_toList (s := t.lexeme), ht]
    · intro hh
      obtain ⟨ds, rfl⟩ := List.head?_eq_some_iff.1 hh
      rcases hb.head with h | h | h <;> exact absurd h (by decide)
  | @cons t u ts gap cs hg _ ih =>
    obtain ⟨ht, hts⟩ := List.forall_mem_cons.1 hts
    obtain ⟨hbegin, hread⟩ := ih hts (fun v hv => hs v (by simpa using hv)) (List.cons_ne_nil u ts)
    have hends : EndsToken (gap ++ (cs ++ back)) := by
      obtain ⟨c, gap, rfl, hc, hg'⟩ := hg
      exact .cons ((Trivia.blank hc hg').endsToken c rfl)
    obtain ⟨hbegin', hread'⟩ := ht.spells.before hends fun _ =>
      ⟨hg.head?_ne (by decide) _, hg.head?_ne (by decide) _⟩
    rw [List.append_assoc, List.append_assoc]
    exact ⟨hbegin', hread'.trans (.trivia hg.trivia hbegin hread (by simp))⟩

/-- **Trivia between tokens is interchangeable.**  Tokens of any texts that are written one
    behind the other with separators between them and trivia around them are read again, and no
    others, without an error; only a comment right behind a last slash takes the slash with it. -/
theorem tokenize_separated {ts : List Token} {front cs back : List Char}
    (hts : ∀ t ∈ ts, t.IsCut) (hcs : Separated ts cs) (hf : Trivia False front)
    (hb : Trivia False back) (hs : SlashKept ts back) :
    erase (tokenize (String.ofList (front ++ (cs ++ back)))).tokens =
        erase ts ++ [⟨.eof, "", default⟩] ∧
      (tokenize (String.ofList (front ++ (cs ++ back)))).errors = [] := by
  have main : erase (tokenize (String.ofList (front ++ (cs ++ back)))).body = erase ts ∧
      (tokenize (String.ofList (front ++ (cs ++ back)))).errors = [] := by
    by_cases hne : ts = []
    · subst hne
      cases hcs
      refine tokenize_of_reads (.nil _) ?_
      rw [String.toList_ofList]
      exact skipGap_only_trivia (hf.append hb)
    · obtain ⟨hbegin, hread⟩ := hcs.reads hts hb hs hne
      refine tokenize_of_reads ?_ (skipGap_only_trivia hb)
      rw [String.toList_ofList]
      exact .trivia hf hbegin hread (mt List.map_eq_nil_iff.1 hne)
  rw [erase_tokens, tokensOf, main.1]
  exact ⟨rfl, main.2⟩

/-- `a/b` with a line comment, a block comment and a preprocessor line in its gaps. -/
theorem tokenize_separated_demo :
    erase (tokenize "#p\na //x\n/ /**/b/**/").tokens =
        erase (tokenize "a/b").body ++ [⟨.eof, "", default⟩] ∧
      (tokenize "#p\na //x\n/ /**/b/**/").errors = [] := by
  have hhash : Trivia False ['#', 'p', '\n'] :=
    @Trivia.line False ['#'] ['p'] [] (.inl rfl) (by decide) .nil
  have hline : Trivia False ['/', '/', 'x', '\n'] :=
    @Trivia.line False ['/', '/'] ['x'] [] (.inr rfl) (by decide) .nil
  have hblock : Trivia False ['/', '*', '*', '/'] := @Trivia.block False [] [] (by decide) .nil
  have hbody : (tokenize "a/b").body = [⟨.identifier, "a", ⟨0, 1, 1, 1⟩⟩,
      ⟨.punct .slash, "/", ⟨1, 1, 2, 1⟩⟩, ⟨.identifier, "b", ⟨2, 1, 3, 1⟩⟩] := by
    decide +kernel
  have hseparated := Separated.cons (t := (⟨.identifier, "a", ⟨0, 1, 1, 1⟩⟩ : Token))
    ⟨' ', _, rfl, rfl, hline⟩
    (.cons (t := (⟨.punct .slash, "/", ⟨1, 1, 2, 1⟩⟩ : Token)) ⟨' ', _, rfl, rfl, hblock⟩
      (.one ⟨.identifier, "b", ⟨2, 1, 3, 1⟩⟩))
  have hcut : ∀ t ∈ (tokenize "a/b").body, t.IsCut := fun t ht => ⟨"a/b", by
    revert t
    decide +kernel⟩
  rw [← hbody] at hseparated
  have hread := tokenize_separated hcut hseparated hhash hblock (by
    rw [SlashKept, hbody]
    decide +kernel)
  have htext : String.ofList (['#', 'p', '\n'] ++ ("a".toList ++ ([' ', '/', '/', 'x', '\n'] ++
      ("/".toList ++ ([' ', '/', '*', '*', '/'] ++ "b".toList))) ++ ['/', '*', '*', '/'])) =
        "#p\na //x\n/ /**/b/**/" := by decide +kernel
  rwa [htext] at hread

/-- A comment right behind a slash takes the slash with it. -/
theorem slash_joins_comment : ¬ ∀ (ts : List Token) (front cs back : List Char),
    (∀ t ∈ ts, t.IsCut) → Separated ts cs → Trivia False front → Trivia False back →
      erase (tokenize (String.ofList (front ++ (cs ++ back)))).tokens =
          erase ts ++ [⟨.eof, "", default⟩] ∧
        (tokenize (String.ofList (front ++ (cs ++ back)))).errors = [] := by
  intro h
  have hcut : (⟨.punct .slash, "/", ⟨0, 1, 1, 1⟩⟩ : Token).IsCut := ⟨"/", by decide +kernel⟩
  have hread := (h _ [] _ ['/', '*', '*', '/'] (List.forall_mem_singleton.2 hcut) (.one _) .nil
    (@Trivia.block False [] [] (by decide) .nil)).1
  revert hread
  decide +kernel

end CommandModules

/-
  Command modules — tokens written with blanks between them.

  * `Token.IsSpelt`: the lexeme of the token spells it; words, marks and reserved words are
    spelt;
  * `spaced ts`: the lexemes of the tokens `ts`, with one blank between any two;
  * `tokenize_spaced`: spelt tokens that are written so are the tokens of the text.
-/
import CommandModules.Proofs.Token.Words

namespace CommandModules

open Text

variable {ts : List Token}

/-- The token carries no place, and its lexeme spells it. -/
def Token.IsSpelt (t : Token) : Prop :=
  Spells t.lexeme.toList [t]

/-- The lexemes of the tokens, with a blank between any two. -/
def spaced (ts : List Token) : String :=
  " ".intercalate (ts.map Token.lexeme)

theorem wordToken_isSpelt {w : String} {kind : TokenKind} (h : IsWord w kind) :
    (wordToken kind w).IsSpelt :=
  Spells.word h

theorem markToken_isSpelt (m : Punct) : (markToken m).IsSpelt := by
  have htokens : tokensOf m.text = [markToken m] := by cases m <;> decide +kernel
  have := @spells_tokensOf m.text (by cases m <;> decide +kernel)
  rwa [htokens] at this

theorem keywordToken_isSpelt (k : Keyword) : (keywordToken k).IsSpelt :=
  wordToken_isSpelt k.isWord

/-- Spelt tokens with blanks between them spell themselves. -/
theorem spells_spaced (hne : ts ≠ []) (h : ∀ t ∈ ts, t.IsSpelt) : Spells (spaced ts).toList ts := by
  induction ts with
  | nil => exact absurd rfl hne
  | cons t ts ih =>
    obtain ⟨ht, hts⟩ := List.forall_mem_cons.1 h
    cases ts with
    | nil => simpa [spaced] using show Spells _ _ from ht
    | cons u us =>
      have := Spells.space ht (ih (List.cons_ne_nil u us) hts)
      simpa [spaced] using this

/-- **Spelt tokens with blanks between them are the tokens of the text**, in which nothing is
    wrong. -/
theorem tokenize_spaced (h : ∀ t ∈ ts, t.IsSpelt) :
    erase (tokenize (spaced ts)).body = ts ∧ (tokenize (spaced ts)).errors = [] := by
  cases ts with
  | nil => exact tokenize_of_reads (.nil []) rfl
  | cons t ts =>
    have hreads := (spells_spaced (List.cons_ne_nil t ts) h).reads [] .nil
    rw [List.append_nil] at hreads
    exact tokenize_of_reads hreads rfl

end CommandModules

/-
  Command modules — texts behind which another text is read as if it stood alone.

  * `tokensFrom`: the tokens of a text from some place on, wrong ones included;
    `tokensFrom_of_reads`: what a text is read as comes first;
  * `IsClosed text`: what follows the text is read as if it stood in lines of its own; blanks
    are closed, and so are lines that spell tokens (`Spells.isClosed`);
  * `Layout.Alike ls ls'`: the layouts are the same but for lines that are closed and hold the
    same tokens;
  * `Layout.Alike.tokens_eq`: layouts that are alike hold the same tokens, whatever closed text
    they are indented with.
-/
import Mathlib.Data.List.Forall2
import CommandModules.Proofs.Token.Lines

namespace CommandModules

open Text

/-! ## Tokens from a place on -/

namespace Cursor

variable {c c' : Cursor}

/-- The next token depends on what follows the gap. -/
theorem next_erase (h : (skipGap c.rest).rest = (skipGap c'.rest).rest) :
    erase c.next.token = erase c'.next.token ∧ c.next.cursor.rest = c'.next.cursor.rest := by
  cases hr : (skipGap c.rest).rest with
  | nil =>
    have hr' := h.symm.trans hr
    simp only [next, hr, hr']
    exact ⟨rfl, rfl⟩
  | cons d ds =>
    have hr' := h.symm.trans hr
    simp only [next, hr, hr']
    rcases scan d ds with ⟨_, _ | _⟩ <;> exact ⟨rfl, rfl⟩

/-- A token takes a character at least. -/
theorem next_shorter (c : Cursor) (hk : c.next.token.kind ≠ .eof) :
    c.next.cursor.rest.length < c.rest.length := by
  have hgap := (skipGap_suffix c.rest).length_le
  cases hr : (skipGap c.rest).rest with
  | nil => simp [next, hr, tokenTo] at hk
  | cons d ds =>
    have hscan := (scan_within d ds).rest.length_le
    rw [hr, List.length_cons] at hgap
    rcases hs : scan d ds with ⟨kind, _ | _⟩ <;> rw [hs] at hscan <;>
      simp only [Reading.rest, next, hr, hs, skipTo] at hscan ⊢ <;> omega

/-- The tokens that follow do not depend on the place. -/
theorem tokens_erase {fuel fuel' : Nat} (h : (skipGap c.rest).rest = (skipGap c'.rest).rest)
    (hf : c.rest.length < fuel) (hf' : c'.rest.length < fuel') :
    erase (c.tokens fuel).body = erase (c'.tokens fuel').body := by
  induction fuel generalizing c c' fuel' with
  | zero => omega
  | succ fuel ih =>
    obtain ⟨fuel', rfl⟩ : ∃ n, fuel' = n + 1 := ⟨fuel' - 1, by omega⟩
    obtain ⟨htoken, hrest⟩ := next_erase h
    have hkind : c.next.token.kind = c'.next.token.kind :=
      (congrArg Token.kind htoken :)
    rw [tokens, tokens, ← hkind]
    split
    · rfl
    · rename_i hk
      have hshort := c.next_shorter hk
      have hshort' := c'.next_shorter (hkind ▸ hk)
      have hbody := @ih c.next.cursor c'.next.cursor fuel' (by rw [hrest]) (by omega) (by omega)
      rw [erase_cons, erase_cons, htoken, hbody]

end Cursor

/-- The tokens of a text, wrong ones included, without their places. -/
def tokensFrom (cs : List Char) : List Token :=
  erase ((Cursor.behind [] cs).tokens (cs.length + 1)).body

section
variable {cs ds rest ws : List Char} {ts : List Token}

theorem tokensFrom_congr (h : (skipGap cs).rest = (skipGap ds).rest) :
    tokensFrom cs = tokensFrom ds :=
  Cursor.tokens_erase h (Nat.lt_succ_self _) (Nat.lt_succ_self _)

theorem erase_tokenize (source : String) :
    erase (tokenize source).body = tokensFrom source.toList :=
  Cursor.tokens_erase rfl (Nat.lt_succ_self _) (Nat.lt_succ_self _)

theorem tokensFrom_gap (h : (skipGap cs).rest = []) : tokensFrom cs = [] := by
  exact tokensFrom_congr (h.trans (by rfl : [] = (skipGap []).rest))

/-- **What a text is read as comes first.** -/
theorem tokensFrom_of_reads (h : Reads cs ts rest) : tokensFrom cs = ts ++ tokensFrom rest := by
  induction h with
  | nil => rfl
  | @token cs c ds lexeme rest last kind ts hg hs hl _ ih =>
    obtain ⟨gap, rfl, hn⟩ := Cursor.next_of_token [] hg hs hl
    have hk : kind ≠ .eof := by
      have := scan_ne_eof c ds
      rwa [hs] at this
    have hlexeme : lexeme ≠ [] := by
      rintro rfl
      have hlen := (scan_within c ds).rest.length_le
      have := congrArg List.length hl
      rw [hs] at hlen
      simp only [Reading.rest, List.nil_append, List.length_cons] at hlen this
      omega
    have hbody : tokensFrom rest = erase
        ((Cursor.behind ([] ++ gap ++ lexeme) rest).tokens (gap ++ (lexeme ++ rest)).length).body := by
      refine Cursor.tokens_erase rfl (Nat.lt_succ_self _) ?_
      have := List.length_pos_iff.2 hlexeme
      simp only [Cursor.behind, List.length_append]
      omega
    rw [tokensFrom, Cursor.tokens, hn]
    dsimp only
    rw [if_neg hk, erase_cons, ← hbody, ih]
    rfl

/-! ## Closed texts -/

/-- The tokens of a text that stands behind a line break. -/
def tokensBelow (cs : List Char) : List Token :=
  tokensFrom ('\n' :: cs)

theorem skipGap_newline (cs : List Char) : skipGap ('\n' :: cs) = gapEnd .between cs := by
  rw [skipGap_cons (by decide), gapEnd_blank (by decide)]

/-- What follows the text is read as if it stood in lines of its own. -/
def IsClosed (text : String) : Prop :=
  ∀ back, tokensBelow (text.toList ++ back) = tokensBelow text.toList ++ tokensBelow back

namespace IsClosed

variable {a b : String}

theorem empty : IsClosed "" :=
  fun _ => rfl

theorem append (ha : IsClosed a) (hb : IsClosed b) : IsClosed (a ++ b) := by
  intro back
  rw [String.toList_append, List.append_assoc, ha, ha b.toList, hb, List.append_assoc]

/-- Closed texts hold their tokens one after the other. -/
theorem tokens_append (ha : IsClosed a) (b : String) : tokensBelow (a ++ b).toList =
    tokensBelow a.toList ++ tokensBelow b.toList := by
  rw [String.toList_append, ha]

theorem join {as : List String} (h : ∀ a ∈ as, IsClosed a) : IsClosed (String.join as) := by
  induction as with
  | nil => exact empty
  | cons a as ih =>
    obtain ⟨ha, has⟩ := List.forall_mem_cons.1 h
    rw [String.join_cons]
    exact ha.append (ih has)

/-- Blanks are closed. -/
theorem of_blanks {ws : String} (h : ∀ c ∈ ws.toList, isBlank c = true) : IsClosed ws := by
  have hskip (back : List Char) := gapEnd_trivia (.blanks h) back
  intro back
  have hws : tokensBelow ws.toList = [] := by
    refine tokensFrom_gap ?_
    rw [skipGap_newline, ← List.append_nil ws.toList, hskip]
    rfl
  rw [hws, List.nil_append]
  exact tokensFrom_congr (by rw [skipGap_newline, skipGap_newline, hskip])

end IsClosed

/-- A line that spells tokens is closed. -/
theorem Spells.tokensBelow_line {line : String} (h : Spells line.toList ts) (back : List Char) :
    tokensBelow ((line ++ "\n").toList ++ back) = ts ++ tokensBelow back := by
  have hs : Stops ('\n' :: back) := .cons (by decide)
  have hbreak : Trivia False ['\n'] := .blank rfl .nil
  have hr := Reads.trivia hbreak (h.begins _ hs) (h.reads _ hs) h.ne_nil
  rw [String.toList_append, List.append_assoc]
  exact tokensFrom_of_reads hr

theorem Spells.isClosed {line : String} (h : Spells line.toList ts) : IsClosed (line ++ "\n") := by
  intro back
  have hline := h.tokensBelow_line []
  rw [List.append_nil] at hline
  rw [h.tokensBelow_line, hline, List.append_assoc]
  rfl

end

/-! ## Lines -/

/-- The lines are closed and hold the same tokens. -/
structure LinesAlike (a b : String) : Prop where
  left : IsClosed (a ++ "\n")
  right : IsClosed (b ++ "\n")
  tokens : tokensBelow (a ++ "\n").toList = tokensBelow (b ++ "\n").toList
  isEmpty : a.isEmpty = b.isEmpty

namespace LinesAlike

variable {a b : String} {ts : List Token}

theorem refl (h : IsClosed (a ++ "\n")) : LinesAlike a a :=
  ⟨h, h, rfl, rfl⟩

/-- Lines that spell the same tokens are alike. -/
theorem of_spells (ha : Spells a.toList ts) (hb : Spells b.toList ts) : LinesAlike a b where
  left := ha.isClosed
  right := hb.isClosed
  tokens := by
    have ha := ha.tokensBelow_line []
    have hb := hb.tokensBelow_line []
    rw [List.append_nil] at ha hb
    rw [ha, hb]
  isEmpty := by
    have ha : a.isEmpty = false := by simpa using ha.text_ne_nil
    have hb : b.isEmpty = false := by simpa using hb.text_ne_nil
    rw [ha, hb]

/-- Lines that are alike are so at any depth. -/
theorem indented {unit : String} (hu : IsClosed unit) (depth : Nat) (h : LinesAlike a b) :
    IsClosed (Layout.lineText unit (depth, a)) ∧ IsClosed (Layout.lineText unit (depth, b)) ∧
      tokensBelow (Layout.lineText unit (depth, a)).toList =
        tokensBelow (Layout.lineText unit (depth, b)).toList := by
  have hindent : IsClosed (String.join (List.replicate depth unit)) :=
    .join fun _ hw => List.eq_of_mem_replicate hw ▸ hu
  have hempty : IsClosed "\n" := .of_blanks (List.forall_mem_singleton.2 rfl)
  rw [Layout.lineText, Layout.lineText, ← h.isEmpty]
  split
  · exact ⟨hempty, hempty, rfl⟩
  · rw [String.append_assoc, String.append_assoc]
    exact ⟨hindent.append h.left, hindent.append h.right,
      by rw [hindent.tokens_append, hindent.tokens_append, h.tokens]⟩

end LinesAlike

namespace Layout

/-- The layouts are the same but for lines that are alike. -/
def Alike (ls ms : List Layout) : Prop :=
  ∀ depth, List.Forall₂ (fun l m => l.1 = m.1 ∧ LinesAlike l.2 m.2) (linesOfAll depth ls)
    (linesOfAll depth ms)

namespace Alike

variable {ls ms ls' ms' body body' : List Layout} {a b unit : String}

theorem nil : Alike [] [] :=
  fun _ => .nil

theorem cons_line (h : LinesAlike a b) (hl : Alike ls ms) : Alike (.line a :: ls) (.line b :: ms) :=
  fun depth => .cons ⟨rfl, h⟩ (hl depth)

theorem one (h : LinesAlike a b) : Alike [.line a] [.line b] :=
  cons_line h nil

theorem linesOfAll_append (depth : Nat) (ls ms : List Layout) :
    linesOfAll depth (ls ++ ms) = linesOfAll depth ls ++ linesOfAll depth ms := by
  induction ls with
  | nil => rfl
  | cons l ls ih => simp [linesOfAll, ih]

theorem append (h : Alike ls ms) (h' : Alike ls' ms') : Alike (ls ++ ls') (ms ++ ms') := by
  intro depth
  rw [linesOfAll_append, linesOfAll_append]
  exact List.rel_append (h depth) (h' depth)

/-- Groups between the same lines are alike if what is in them is. -/
theorem block (ha : IsClosed (a ++ "\n")) (hb : IsClosed (b ++ "\n")) (h : Alike body body') :
    Alike [.block a b body] [.block a b body'] := by
  intro depth
  simp only [linesOfAll, lines, List.append_nil]
  exact .cons ⟨rfl, .refl ha⟩ (List.rel_append (h (depth + 1)) (.cons ⟨rfl, .refl hb⟩ .nil))

/-- **Layouts that are alike hold the same tokens.** -/
theorem tokens_eq (hu : IsClosed unit) (h : Alike ls ms) :
    tokensBelow (render unit ls).toList = tokensBelow (render unit ms).toList := by
  have hlines := h 0
  rw [render, render]
  generalize linesOfAll 0 ls = xs, linesOfAll 0 ms = ys at hlines
  induction hlines with
  | nil => rfl
  | @cons l m xs ys hlm _ ih =>
    obtain ⟨depth, a⟩ := l
    obtain ⟨_, b⟩ := m
    obtain ⟨rfl, hab⟩ : depth = _ ∧ LinesAlike a b := hlm
    obtain ⟨ha, hb, htokens⟩ := hab.indented hu depth
    rw [List.map_cons, List.map_cons, String.join_cons, String.join_cons, ha.tokens_append,
      hb.tokens_append, htokens, ih]

end Alike

end Layout

end CommandModules

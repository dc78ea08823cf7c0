/-
  Command modules — where two trees part.

  Two trees are compared by their tokens, places aside.  The tokens of a text end with an `eof`
  that comes nowhere else, so that the tokens of one text never begin those of another one.

  * `Token.Same`: two tokens agree in kind and text;
  * `EndsOnce`: only the last token is an `eof`; `SyntaxTree.tokens_endsOnce`: so it is for each
    text;
  * `differenceAt?_spec`: lists that end in this way and are not the same part at a place where
    both of them have a token;
  * `SyntaxTree.first_difference`: the first tokens in which two trees differ are the first
    ones that do, at the same place in both.
-/
import CommandModules.Proofs.Alike.Unit
import CommandModules.Proofs.Safe.Unit
import Mathlib.Data.List.Forall2

namespace CommandModules

/-- The tokens agree in kind and text. -/
def Token.Same (t u : Token) : Prop :=
  t.kind = u.kind ∧ t.lexeme = u.lexeme

theorem Token.agrees_iff {t u : Token} : t.agrees u = true ↔ t.Same u := by
  simp only [agrees, Bool.and_eq_true, beq_iff_eq, Same]

/-- Only the last token is an `eof`. -/
def EndsOnce : List Token → Prop
  | [] => False
  | [t] => t.kind = .eof
  | t :: ts => t.kind ≠ .eof ∧ EndsOnce ts

theorem EndsOnce.concat {ts : List Token} {t : Token} (h : ∀ u ∈ ts, u.kind ≠ .eof)
    (ht : t.kind = .eof) : EndsOnce (ts ++ [t]) := by
  induction ts with
  | nil => exact ht
  | cons u ts ih =>
    obtain ⟨hu, hts⟩ := List.forall_mem_cons.1 h
    cases ts with
    | nil => exact ⟨hu, ht⟩
    | cons v ts => exact ⟨hu, ih hts⟩

/-- Behind a token, there is nothing if it is an `eof`, and an `eof` at the end if not. -/
theorem EndsOnce.cases {t : Token} {ts : List Token} (h : EndsOnce (t :: ts)) :
    (t.kind = .eof ∧ ts = []) ∨ (t.kind ≠ .eof ∧ EndsOnce ts) := by
  cases ts with
  | nil => exact .inl ⟨h, rfl⟩
  | cons u ts => exact .inr h

namespace SyntaxTree

variable {ts us : List Token} {n : Nat}

theorem differenceAt?_eq_none_iff :
    differenceAt? ts us = none ↔ List.Forall₂ Token.Same ts us := by
  fun_induction differenceAt? ts us with
  | case1 => simp
  | case2 t ts u us htu ih =>
    rw [Option.map_eq_none_iff, ih, List.forall₂_cons]
    exact ⟨fun h => ⟨Token.agrees_iff.1 htu, h⟩, fun h => h.2⟩
  | case3 t ts u us htu =>
    rw [List.forall₂_cons, ← Token.agrees_iff]
    exact ⟨fun h => absurd h (Option.some_ne_none 0), fun h => absurd h.1 htu⟩
  | case4 ts us hnil hcons =>
    refine ⟨fun h => absurd h (Option.some_ne_none 0), fun h => ?_⟩
    cases h with
    | nil => exact (hnil rfl rfl).elim
    | cons => exact (hcons _ _ _ _ rfl rfl).elim

/-- The lists part at the place `n`: both have a token there, these are not the same, and all
    before them are. -/
structure PartAt (ts us : List Token) (n : Nat) (t u : Token) : Prop where
  left : ts[n]? = some t
  right : us[n]? = some u
  differ : ¬ t.Same u
  before : List.Forall₂ Token.Same (ts.take n) (us.take n)

/-- **Lists that end once part where both have a token**, and never at the end of one of them. -/
theorem differenceAt?_spec (ht : EndsOnce ts) (hu : EndsOnce us)
    (h : differenceAt? ts us = some n) : ∃ t u, PartAt ts us n t u := by
  fun_induction differenceAt? ts us generalizing n with
  | case1 => cases h
  | case2 t ts u us htu ih =>
    have hsame := Token.agrees_iff.1 htu
    obtain ⟨m, hm, rfl⟩ := Option.map_eq_some_iff.1 h
    -- the two tokens are both an `eof`, with nothing behind them, or neither is
    rcases ht.cases with ⟨hk, rfl⟩ | ⟨hk, ht⟩
    · rcases hu.cases with ⟨-, rfl⟩ | ⟨hk', -⟩
      · cases hm
      · exact absurd (hsame.1.symm.trans hk) hk'
    · rcases hu.cases with ⟨hk', -⟩ | ⟨-, hu⟩
      · exact absurd (hsame.1.trans hk') hk
      · obtain ⟨x, y, hp⟩ := ih ht hu hm
        exact ⟨x, y, hp.left, hp.right, hp.differ, .cons hsame hp.before⟩
  | case3 t ts u us htu =>
    obtain rfl := Option.some_inj.1 h
    exact ⟨t, u, rfl, rfl, fun hs => htu (Token.agrees_iff.2 hs), .nil⟩
  | case4 ts us hnil hcons =>
    cases ts with
    | nil => exact ht.elim
    | cons t ts =>
      cases us with
      | nil => exact hu.elim
      | cons u us => exact (hcons _ _ _ _ rfl rfl).elim

namespace PartAt

variable {m : Nat} {t u t' u' : Token}

theorem lt_left (h : PartAt ts us n t u) : n < ts.length :=
  (List.getElem?_eq_some_iff.1 h.left).1

theorem lt_right (h : PartAt ts us n t u) : n < us.length :=
  (List.getElem?_eq_some_iff.1 h.right).1

/-- No place before is one where the lists part. -/
theorem not_lt (h : PartAt ts us n t u) (h' : PartAt ts us m t' u') : ¬ m < n := by
  intro hlt
  obtain ⟨hlen, hsame⟩ := List.forall₂_iff_get.1 h.before
  have hl : m < (ts.take n).length := by
    rw [List.length_take]
    exact lt_min hlt h'.lt_left
  have hr : m < (us.take n).length := hlen ▸ hl
  refine h'.differ ?_
  have := hsame m hl hr
  rwa [List.get_eq_getElem, List.get_eq_getElem, List.getElem_take, List.getElem_take,
    (List.getElem?_eq_some_iff.1 h'.left).2, (List.getElem?_eq_some_iff.1 h'.right).2] at this

/-- Lists part at one place only. -/
theorem unique (h : PartAt ts us n t u) (h' : PartAt ts us m t' u') : t = t' ∧ u = u' := by
  obtain rfl : n = m := Nat.le_antisymm (Nat.not_lt.1 (h.not_lt h')) (Nat.not_lt.1 (h'.not_lt h))
  exact ⟨Option.some_inj.1 (h.left.symm.trans h'.left),
    Option.some_inj.1 (h.right.symm.trans h'.right)⟩

end PartAt

/-- **The tokens of a text end once**, whatever of the text is no token. -/
theorem tokens_endsOnce (id : Nat) (path text : String) : EndsOnce (parse id path text).tokens :=
  .concat (ParserState.ofText_good text).ne_eof (ParserState.ofText_good text).eof_kind

/-- The places at which the tokens of the trees are looked up are those where these part. -/
theorem firstDifference?_of_partAt {t u : SyntaxTree} {l r : Token}
    (hn : differenceAt? t.tokens u.tokens = some n) (h : PartAt t.tokens u.tokens n l r) :
    t.firstDifference? u = some (l, r) := by
  have hleft : min n (t.tokens.length - 1) = n := Nat.min_eq_left (Nat.le_pred_of_lt h.lt_left)
  have hright : min n (u.tokens.length - 1) = n := Nat.min_eq_left (Nat.le_pred_of_lt h.lt_right)
  simp only [firstDifference?, hn, Option.bind_eq_bind, Option.bind_some, hleft, hright, h.left,
    h.right]

/-- **Two trees part at their first different tokens.**  They are equivalent just if their tokens
    agree in kind and text, one by one and in number, and then no difference is shown.  A pair of
    tokens is shown just if these stand at the same place in both trees, are not the same, and all
    tokens before them are. -/
theorem first_difference (id id' : Nat) (path path' text text' : String) :
    let t := parse id path text
    let u := parse id' path' text'
    (t.isEquivalent u = true ↔ List.Forall₂ Token.Same t.tokens u.tokens) ∧
    (t.firstDifference? u = none ↔ List.Forall₂ Token.Same t.tokens u.tokens) ∧
    ∀ l r, t.firstDifference? u = some (l, r) ↔ ∃ n, t.tokens[n]? = some l ∧
      u.tokens[n]? = some r ∧ (l.kind ≠ r.kind ∨ l.lexeme ≠ r.lexeme) ∧
        List.Forall₂ Token.Same (t.tokens.take n) (u.tokens.take n) := by
  intro t u
  have hparts {n : Nat} (hn : differenceAt? t.tokens u.tokens = some n) :
      ∃ l r, PartAt t.tokens u.tokens n l r ∧ t.firstDifference? u = some (l, r) := by
    obtain ⟨l, r, hp⟩ := differenceAt?_spec (tokens_endsOnce ..) (tokens_endsOnce ..) hn
    exact ⟨l, r, hp, firstDifference?_of_partAt hn hp⟩
  have hnone (hn : differenceAt? t.tokens u.tokens = none) : t.firstDifference? u = none := by
    rw [firstDifference?, hn]
    rfl
  refine ⟨?_, ?_, fun l r => ⟨fun h => ?_, ?_⟩⟩
  · rw [isEquivalent, Option.isNone_iff_eq_none, differenceAt?_eq_none_iff]
  · rw [← differenceAt?_eq_none_iff]
    refine ⟨fun h => ?_, hnone⟩
    cases hn : differenceAt? t.tokens u.tokens with
    | none => rfl
    | some n =>
      obtain ⟨l, r, -, hsome⟩ := hparts hn
      cases h.symm.trans hsome
  · cases hn : differenceAt? t.tokens u.tokens with
    | none => cases h.symm.trans (hnone hn)
    | some n =>
      obtain ⟨l', r', hp, hsome⟩ := hparts hn
      obtain ⟨rfl, rfl⟩ := Prod.mk.inj (Option.some_inj.1 (h.symm.trans hsome))
      exact ⟨n, hp.left, hp.right, not_and_or.1 hp.differ, hp.before⟩
  · rintro ⟨n, hl, hr, hdiffer, hbefore⟩
    have hp : PartAt t.tokens u.tokens n l r := ⟨hl, hr, not_and_or.2 hdiffer, hbefore⟩
    cases hn : differenceAt? t.tokens u.tokens with
    | none =>
      have hall := List.forall₂_iff_get.1 (differenceAt?_eq_none_iff.1 hn)
      have := hall.2 n hp.lt_left hp.lt_right
      rw [List.get_eq_getElem, List.get_eq_getElem, (List.getElem?_eq_some_iff.1 hl).2,
        (List.getElem?_eq_some_iff.1 hr).2] at this
      exact absurd this hp.differ
    | some m =>
      obtain ⟨l', r', hp', hsome⟩ := hparts hn
      obtain ⟨rfl, rfl⟩ := hp.unique hp'
      exact hsome

end SyntaxTree

end CommandModules

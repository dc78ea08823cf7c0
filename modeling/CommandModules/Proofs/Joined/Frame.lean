/-
  Command modules — a text inside a longer one.

  * `Frame` is what stands around the characters and the tokens of a text in a longer one;
    `s.within w` is the state `s` of a parser, in the longer text;
  * `s.Onward s'`: a parser can go from `s` to `s'`; `s.Quiet s'`: nothing was recorded on the way;
  * `s.Bounded w`: what a parser looks for ahead of `s` is found before the tokens that stand
    behind the text, for the last one of its own ends a declaration;
  * `s.Ready w`: the token before `s` is the same in the longer text.
-/
import CommandModules.Proofs.Joined.Shift
import CommandModules.Proofs.Safe.State

namespace CommandModules

open Text

/-! ## Cutting out -/

theorem bytes_of_splitAtByte? {n : Nat} {cs front back : List Char}
    (h : splitAtByte? n cs = some (front, back)) : bytes front = n := by
  induction cs generalizing n front back with
  | nil =>
    rw [splitAtByte?] at h
    split at h
    · cases h
      exact Eq.symm ‹_›
    · cases h
  | cons c cs ih =>
    rw [splitAtByte?] at h
    split at h
    · cases h
      exact Eq.symm ‹_›
    split at h
    · obtain ⟨parts, hp, he⟩ := Option.map_eq_some_iff.1 h
      cases he
      rw [bytes_cons, ih hp]
      omega
    · cases h

/-- What is cut out of a text can be cut out of a longer one. -/
theorem between?_append {start stop : Nat} {cs mid : List Char}
    (h : between? start stop cs = some mid) (front back : List Char) :
    between? (start + bytes front) (stop + bytes front) (front ++ (cs ++ back)) = some mid := by
  unfold between? at h
  split at h
  · rename_i hle
    obtain ⟨⟨pre, tail⟩, hpre, h⟩ := Option.bind_eq_some_iff.1 h
    obtain ⟨⟨body, post⟩, hbody, h⟩ := Option.bind_eq_some_iff.1 h
    obtain rfl : body = mid := Option.some_inj.1 h
    have hcs : cs = pre ++ (body ++ post) := by
      rw [splitAtByte?_append hbody, splitAtByte?_append hpre]
    have hstart : start + bytes front = bytes (front ++ pre) := by
      rw [bytes_append, bytes_of_splitAtByte? hpre, Nat.add_comm]
    have hstop : stop + bytes front = bytes (front ++ pre ++ body) := by
      rw [bytes_append, ← hstart, bytes_of_splitAtByte? hbody]
      omega
    have := between?_bytes (front ++ pre) body (post ++ back)
    rwa [← hstart, ← hstop, List.append_assoc, ← List.append_assoc body, ← List.append_assoc pre,
      ← hcs] at this
  · cases h

/-! ## Frames -/

/-- The distance from the head of a text to its end. -/
def Distance.over (front : List Char) : Distance :=
  ⟨front.count '\n', Text.bytes front⟩

/-- What stands around a text in a longer one. -/
structure Frame where
  front : List Char
  back : List Char
  /-- the tokens before those of the text, latest first -/
  before : List Token
  /-- the tokens behind those of the text -/
  after : List Token
  /-- the end of the longer text -/
  eof : Token

/-- How far the text is behind the head of the longer one. -/
def Frame.distance (w : Frame) : Distance :=
  .over w.front

/-- Does a token of this kind end declarations? -/
def TokenKind.endsDeclaration : TokenKind → Bool
  | .punct p => p == .semicolon || p == .rightBrace
  | _ => false

theorem endsDeclaration_iff {kind : TokenKind} :
    kind.endsDeclaration = true ↔ kind = .punct .semicolon ∨ kind = .punct .rightBrace := by
  cases kind <;> simp [TokenKind.endsDeclaration]

theorem endsDeclaration_of_eq {kind kind' : TokenKind} (h : kind = kind')
    (hk : kind'.endsDeclaration = false) : kind.endsDeclaration = false :=
  h ▸ hk

namespace ParserState

/-- The state in the longer text. -/
def within (s : ParserState) (w : Frame) : ParserState where
  source := w.front ++ (s.source ++ w.back)
  before := shift w.distance s.before ++ w.before
  after := shift w.distance s.after ++ w.after
  eof := w.eof
  errors := s.errors
  faults := s.faults

/-- What is looked for ahead is found before the tokens behind the text: the last one of its own
    tokens ends a declaration, or the longer text ends with it. -/
inductive Bounded (w : Frame) (s : ParserState) : Prop
  | stopped {t : Token} : s.after.getLast? = some t → t.kind.endsDeclaration = true → Bounded w s
  | ended : w.after = [] → w.eof = shift w.distance s.eof → s.eof.kind = .eof → Bounded w s

/-- The token before this place is the same in the longer text. -/
def Ready (w : Frame) (s : ParserState) : Prop :=
  s.before ≠ [] ∨ w.before = []

/-! ## Going on -/

/-- A parser can go from `s` to `s'`. -/
structure Onward (s s' : ParserState) : Prop where
  source_eq : s'.source = s.source
  eof_eq : s'.eof = s.eof
  tokens_eq : ∃ ts, s.after = ts ++ s'.after ∧ s'.before = ts.reverse ++ s.before
  errors_eq : ∃ es, s'.errors = s.errors ++ es
  faults_eq : ∃ fs, s'.faults = s.faults ++ fs

/-- Nothing was recorded on the way from `s` to `s'`. -/
def Quiet (s s' : ParserState) : Prop :=
  s'.errors = s.errors ∧ s'.faults = s.faults

variable {w : Frame} {s s' s'' : ParserState}

namespace Onward

theorem refl (s : ParserState) : s.Onward s :=
  ⟨rfl, rfl, ⟨[], rfl, rfl⟩, ⟨[], (List.append_nil _).symm⟩, ⟨[], (List.append_nil _).symm⟩⟩

theorem trans (h : s.Onward s') (h' : s'.Onward s'') : s.Onward s'' := by
  obtain ⟨ts, ha, hb⟩ := h.tokens_eq
  obtain ⟨us, ha', hb'⟩ := h'.tokens_eq
  obtain ⟨es, he⟩ := h.errors_eq
  obtain ⟨es', he'⟩ := h'.errors_eq
  obtain ⟨fs, hf⟩ := h.faults_eq
  obtain ⟨fs', hf'⟩ := h'.faults_eq
  exact ⟨h'.source_eq.trans h.source_eq, h'.eof_eq.trans h.eof_eq,
    ⟨ts ++ us, by rw [ha, ha', List.append_assoc],
      by rw [hb', hb, List.reverse_append, List.append_assoc]⟩,
    ⟨es ++ es', by rw [he', he, List.append_assoc]⟩,
    ⟨fs ++ fs', by rw [hf', hf, List.append_assoc]⟩⟩

/-- Going back to `s` keeps what was recorded on the way. -/
theorem returnTo (h : s.Onward s') : s.Onward (s'.returnTo s) :=
  ⟨h.source_eq, h.eof_eq, ⟨[], rfl, rfl⟩, h.errors_eq, h.faults_eq⟩

theorem quiet_left (h : s.Onward s') (h' : s'.Onward s'') (hq : s.Quiet s'') : s.Quiet s' := by
  obtain ⟨es, he⟩ := h.errors_eq
  obtain ⟨es', he'⟩ := h'.errors_eq
  obtain ⟨fs, hf⟩ := h.faults_eq
  obtain ⟨fs', hf'⟩ := h'.faults_eq
  obtain ⟨hqe, hqf⟩ := hq
  rw [he', he, List.append_assoc, List.append_right_eq_self, List.append_eq_nil_iff] at hqe
  rw [hf', hf, List.append_assoc, List.append_right_eq_self, List.append_eq_nil_iff] at hqf
  exact ⟨by rw [he, hqe.1, List.append_nil], by rw [hf, hqf.1, List.append_nil]⟩

theorem quiet_right (h : s.Onward s') (h' : s'.Onward s'') (hq : s.Quiet s'') : s'.Quiet s'' := by
  have hl := h.quiet_left h' hq
  exact ⟨hq.1.trans hl.1.symm, hq.2.trans hl.2.symm⟩

/-- What is bounded later was bounded before. -/
theorem bounded (h : s.Onward s') (hb : s'.Bounded w) : s.Bounded w := by
  cases hb with
  | @stopped t ht hk =>
    obtain ⟨ts, ha, -⟩ := h.tokens_eq
    refine .stopped (t := t) ?_ hk
    rw [ha, List.getLast?_append, ht, Option.some_or]
  | ended ha he hk => exact .ended ha (h.eof_eq ▸ he) (h.eof_eq ▸ hk)

theorem before_ne_nil (h : s.Onward s') (hb : s.before ≠ []) : s'.before ≠ [] := by
  obtain ⟨ts, -, hb'⟩ := h.tokens_eq
  rw [hb']
  exact List.append_ne_nil_of_right_ne_nil _ hb

theorem ready (h : s.Onward s') (hr : s.Ready w) : s'.Ready w :=
  hr.imp_left h.before_ne_nil

theorem fault (h : s.Onward s') (f : Fault) : s.Onward (s'.fault f) :=
  h.trans ⟨rfl, rfl, ⟨[], rfl, rfl⟩, ⟨[], (List.append_nil _).symm⟩, ⟨[f], rfl⟩⟩

/-- A fault that is noted stays. -/
theorem fault_not_quiet (h : s.Onward s') (f : Fault) : ¬ s.Quiet (s'.fault f) := by
  intro hq
  obtain ⟨fs, hfs⟩ := h.faults_eq
  have : s'.faults ++ [f] = s.faults := hq.2
  simp [hfs] at this

end Onward

/-- Behind tokens that end no declaration the tokens to come are bounded as before. -/
theorem Bounded.mono (hb : s.Bounded w) (he : s'.eof = s.eof) {ts : List Token}
    (ha : s.after = ts ++ s'.after) (hts : ∀ t ∈ ts, t.kind.endsDeclaration = false) :
    s'.Bounded w := by
  cases hb with
  | @stopped t ht hk =>
    refine .stopped (t := t) ?_ hk
    rw [ha, List.getLast?_append] at ht
    cases hl : s'.after.getLast? with
    | some u => rwa [hl, Option.some_or] at ht
    | none =>
      rw [hl, Option.none_or] at ht
      have := hts t (List.mem_of_getLast? ht)
      rw [hk] at this
      cases this
  | ended hw heof hk => exact .ended hw (he ▸ heof) (he ▸ hk)

/-- Where the tokens to come are the same, they are bounded as before. -/
theorem Bounded.same (hb : s.Bounded w) (he : s'.eof = s.eof) (ha : s'.after = s.after) :
    s'.Bounded w :=
  hb.mono he (ha.symm.trans (List.nil_append _).symm) (List.forall_mem_nil _)

/-! ## What is seen from a state -/

theorem endsDeclaration_of_isAt {kind : TokenKind} (h : s.isAt kind = true)
    (hk : kind.endsDeclaration = false) : s.peek.kind.endsDeclaration = false :=
  endsDeclaration_of_eq (beq_iff_eq.1 h) hk

section
variable (hb : s.Bounded w)
include hb

/-- No token behind the text is seen over tokens that end no declaration. -/
theorem Bounded.peekAt_of {n : Nat}
    (hn : ∀ i t, i < n → s.after[i]? = some t → t.kind.endsDeclaration = false) :
    (s.within w).peekAt n = shift w.distance (s.peekAt n) := by
  have hmap : (shift w.distance s.after)[n]? = shift w.distance s.after[n]? := List.getElem?_map ..
  cases hb with
  | @stopped t ht hk =>
    have hlast : s.after[s.after.length - 1]? = some t := by rw [← List.getLast?_eq_getElem?, ht]
    have hlt : n < s.after.length := by
      by_contra hge
      have hpos : 0 < s.after.length := by
        rw [List.length_pos_iff]
        rintro hnil
        rw [hnil] at ht
        cases ht
      have := hn _ t (by omega) hlast
      rw [hk] at this
      cases this
    rw [peekAt, peekAt, within, List.getElem?_append_left (by rwa [length_shift]), hmap,
      List.getElem?_eq_getElem hlt]
    rfl
  | ended hw he =>
    rw [peekAt, peekAt, within, hw, List.append_nil, hmap, he]
    cases s.after[n]? <;> rfl

theorem Bounded.peek : (s.within w).peek = shift w.distance s.peek := by
  rw [Good.peek_eq, Good.peek_eq s]
  exact hb.peekAt_of fun _ _ hi => absurd hi (Nat.not_lt_zero _)

theorem Bounded.peekAt_one (h : s.peek.kind.endsDeclaration = false) :
    (s.within w).peekAt 1 = shift w.distance (s.peekAt 1) := by
  refine hb.peekAt_of fun i t hi ht => ?_
  obtain rfl : i = 0 := by omega
  rwa [Good.peek_eq, peekAt, ht] at h

theorem Bounded.peekAt_two (h : s.peek.kind.endsDeclaration = false)
    (h' : (s.peekAt 1).kind.endsDeclaration = false) :
    (s.within w).peekAt 2 = shift w.distance (s.peekAt 2) := by
  refine hb.peekAt_of fun i t hi ht => ?_
  obtain rfl | rfl : i = 0 ∨ i = 1 := by omega
  · rwa [Good.peek_eq, peekAt, ht] at h
  · rwa [peekAt, ht] at h'

/-- Where no tokens are left, none follow in the longer text. -/
theorem Bounded.eq_nil (ha : s.after = []) : w.after = [] := by
  cases hb with
  | stopped h => simp [ha] at h
  | ended hw => exact hw

/-- Where there is a token it can be consumed. -/
theorem Bounded.after_ne_nil (h : s.peek.kind ≠ .eof) : s.after ≠ [] := by
  intro ha
  cases hb with
  | stopped ht => simp [ha] at ht
  | ended _ _ hk => exact h (by rw [ParserState.peek, ha]; exact hk)

theorem Bounded.isAt (kind : TokenKind) : (s.within w).isAt kind = s.isAt kind := by
  rw [ParserState.isAt, ParserState.isAt, hb.peek, kind_shift]

theorem Bounded.isAtMark (mark : Punct) : (s.within w).isAtMark mark = s.isAtMark mark :=
  hb.isAt (.punct mark)

theorem Bounded.isAtEof : (s.within w).isAtEof = s.isAtEof :=
  hb.isAt .eof

/-- What is behind the current token matters only where that one ends no declaration. -/
theorem Bounded.and_next {a b b' : Bool} (ha : a = true → s.peek.kind.endsDeclaration = false)
    (h : s.peek.kind.endsDeclaration = false →
      (s.within w).peekAt 1 = shift w.distance (s.peekAt 1) → b' = b) : (a && b') = (a && b) := by
  cases a with
  | false => rfl
  | true => rw [h (ha rfl) (hb.peekAt_one (ha rfl))]

theorem Bounded.isAt_and {kind : TokenKind} (hk : kind.endsDeclaration = false) {b b' : Bool}
    (h : s.peek.kind.endsDeclaration = false →
      (s.within w).peekAt 1 = shift w.distance (s.peekAt 1) → b' = b) :
    ((s.within w).isAt kind && b') = (s.isAt kind && b) := by
  rw [hb.isAt]
  exact hb.and_next (fun ha => endsDeclaration_of_isAt ha hk) h

theorem Bounded.isAtMark_and {mark : Punct} (hk : (TokenKind.punct mark).endsDeclaration = false)
    {b b' : Bool} (h : s.peek.kind.endsDeclaration = false →
      (s.within w).peekAt 1 = shift w.distance (s.peekAt 1) → b' = b) :
    ((s.within w).isAtMark mark && b') = (s.isAtMark mark && b) :=
  hb.isAt_and hk h

end

/-- As many tokens come next, if they are not all. -/
theorem length_takeWhile_within {p : Token → Bool} (hp : ∀ t, p (shift w.distance t) = p t)
    (h : (s.after.takeWhile p).length ≠ s.after.length ∨ w.after = []) :
    ((s.within w).after.takeWhile p).length = (s.after.takeWhile p).length := by
  have hmap : (shift w.distance s.after).takeWhile p = shift w.distance (s.after.takeWhile p) := by
    refine List.takeWhile_map.trans ?_
    rw [show p ∘ shift w.distance = p from funext hp]
    rfl
  rcases h with h | h
  · rw [within, List.takeWhile_append, hmap, length_shift, length_shift, if_neg h, length_shift]
  · rw [within, h, List.append_nil, hmap, length_shift]

theorem Bounded.length_takeWhile (hb : s.Bounded w) {p : Token → Bool}
    (hp : ∀ t, p (shift w.distance t) = p t)
    (h : ∀ t, t.kind.endsDeclaration = true → p t = false) :
    ((s.within w).after.takeWhile p).length = (s.after.takeWhile p).length := by
  refine length_takeWhile_within hp ?_
  cases hb with
  | @stopped t ht hk =>
    refine .inl fun hall => ?_
    have heq : s.after.takeWhile p = s.after := (List.takeWhile_prefix p).eq_of_length hall
    have := List.mem_takeWhile_imp (heq.symm ▸ List.mem_of_getLast? ht)
    rw [h t hk] at this
    cases this
  | ended hw => exact .inr hw

theorem length_after_within (s : ParserState) (w : Frame) :
    (s.within w).after.length = s.after.length + w.after.length := by
  rw [within, List.length_append, length_shift]

theorem place_within (s : ParserState) (w : Frame) :
    (s.within w).place = s.place + w.before.length := by
  rw [place, place, within, List.length_append, length_shift]

theorem takenSince_within (s : ParserState) (w : Frame) (place : Nat) :
    (s.within w).takenSince (place + w.before.length) = shift w.distance (s.takenSince place) := by
  have hle : s.place - place ≤ (shift w.distance s.before).length := by
    rw [length_shift, ParserState.place]
    omega
  rw [takenSince, takenSince, place_within, Nat.add_sub_add_right, within,
    List.take_append_of_le_length hle, shift_reverse]
  exact congrArg List.reverse List.map_take.symm

theorem Ready.spanFrom (h : s.Ready w) (start : Span) :
    (s.within w).spanFrom (shift w.distance start) = shift w.distance (s.spanFrom start) := by
  rw [ParserState.spanFrom, ParserState.spanFrom, within]
  cases hs : s.before with
  | cons t ts => exact merge_shift start t.span
  | nil =>
    have hw : w.before = [] := h.resolve_left fun hne => hne hs
    rw [hw]
    rfl

theorem Ready.previousSpan (h : s.Ready w) (hb : s.Bounded w) :
    (s.within w).previousSpan = shift w.distance s.previousSpan := by
  have hpeek := congrArg Token.span hb.peek
  rw [ParserState.previousSpan, ParserState.previousSpan]
  cases hs : s.before with
  | cons t ts =>
    rw [within, hs]
    rfl
  | nil =>
    have hw : w.before = [] := h.resolve_left fun hne => hne hs
    have hnil : (s.within w).before = [] := by
      rw [within, hs, hw]
      rfl
    rw [hnil]
    exact hpeek

end ParserState

end CommandModules

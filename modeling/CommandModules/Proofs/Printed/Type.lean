/-
  Command modules — types written out as tokens.

  * `TypeSyntax.tokens`: the tokens of a type;
  * `TypeSyntax.IsPrintable`: every part of the type can be written, that is, names are words
    that are not reserved, no name is without segments, no tuple has less than two elements
    and no rank is zero;
  * `TypeSyntax.isSpelt`: then each of the tokens is spelt.
-/
import CommandModules.Proofs.Token.Spaced
import CommandModules.Syntax.Type

namespace CommandModules

/-! ## Writing types -/

/-- The items with a mark between any two. -/
def separated (m : Punct) (items : List (List Token)) : List Token :=
  [markToken m].intercalate items

/-- The token of an identifier. -/
def Ident.token (i : Ident) : Token :=
  wordToken .identifier i.name

/-- The tokens of the suffix of an array type. -/
def rankTokens (rank : Nat) : List Token :=
  markToken .leftBracket :: (List.replicate (rank - 1) (markToken .comma) ++
    [markToken .rightBracket])

/-- The tokens of type arguments, none if there are no arguments. -/
def argumentTokens (args : List (List Token)) : List Token :=
  if args.isEmpty then [] else markToken .less :: (separated .comma args ++ [markToken .greater])

mutual

/-- The tokens of a segment. -/
def NameSegment.tokens : NameSegment → List Token
  | ⟨ident, args⟩ => ident.token :: argumentTokens (args.map TypeSyntax.tokens)

/-- The tokens of a name. -/
def Name.tokens : Name → List Token
  | ⟨alias?, segments, _, _⟩ =>
    (alias?.toList.flatMap fun a => [a.token, markToken .colonColon]) ++
      separated .dot (segments.map NameSegment.tokens)

/-- The tokens of an element of a tuple. -/
def TupleElement.tokens : TupleElement → List Token
  | ⟨type, name?⟩ => type.tokens ++ name?.toList.map Ident.token

/-- The tokens of a type of this form. -/
def TypeShape.tokens : TypeShape → List Token
  | .predefined word => [wordToken (wordKind word) word]
  | .named name => name.tokens
  | .array element rank => element.tokens ++ rankTokens rank
  | .nullable element => element.tokens ++ [markToken .question]
  | .pointer element => element.tokens ++ [markToken .star]
  | .tuple elements => markToken .leftParen ::
      (separated .comma (elements.map TupleElement.tokens) ++ [markToken .rightParen])

/-- The tokens of a type. -/
def TypeSyntax.tokens : TypeSyntax → List Token
  | ⟨shape, _, _⟩ => shape.tokens

end

/-- The identifier is a word that is not reserved, or an escaped one. -/
def Ident.IsName (i : Ident) : Prop :=
  IsWord i.name .identifier

mutual

/-- The segment can be written. -/
def NameSegment.IsPrintable : NameSegment → Prop
  | ⟨ident, args⟩ => ident.IsName ∧ ∀ a ∈ args, a.IsPrintable

/-- The name can be written. -/
def Name.IsPrintable : Name → Prop
  | ⟨alias?, segments, _, _⟩ =>
    (∀ a ∈ alias?, a.IsName) ∧ segments ≠ [] ∧ ∀ s ∈ segments, s.IsPrintable

/-- The element of a tuple can be written. -/
def TupleElement.IsPrintable : TupleElement → Prop
  | ⟨type, name?⟩ => type.IsPrintable ∧ ∀ i ∈ name?, i.IsName

/-- A type of this form can be written. -/
def TypeShape.IsPrintable : TypeShape → Prop
  | .predefined word => (wordKind word).isPredefinedType = true
  | .named name => name.IsPrintable
  | .array element rank => element.IsPrintable ∧ 0 < rank
  | .nullable element => element.IsPrintable
  | .pointer element => element.IsPrintable
  | .tuple elements => 2 ≤ elements.length ∧ ∀ e ∈ elements, e.IsPrintable

/-- The type can be written. -/
def TypeSyntax.IsPrintable : TypeSyntax → Prop
  | ⟨shape, _, _⟩ => shape.IsPrintable

end

/-! ## Beginnings -/

/-- Can a type begin with the token? -/
def Token.beginsType (t : Token) : Bool :=
  t.kind.isPredefinedType || t.kind == .punct .leftParen || t.kind == .identifier

theorem NameSegment.tokens_eq (i : NameSegment) : i.tokens =
    i.ident.token :: argumentTokens (i.args.map TypeSyntax.tokens) := by
  cases i
  exact NameSegment.tokens.eq_1 _ _

theorem Name.tokens_eq (n : Name) : n.tokens =
    (n.alias?.toList.flatMap fun a => [a.token, markToken .colonColon]) ++
      separated .dot (n.segments.map NameSegment.tokens) := by
  cases n
  exact Name.tokens.eq_1 _ _ _ _

theorem separated_cons (m : Punct) (ts : List Token) (items : List (List Token)) :
    ∃ us, separated m (ts :: items) = ts ++ us := by
  cases items with
  | nil => exact ⟨[], by simp [separated]⟩
  | cons us items =>
    exact ⟨markToken m :: separated m (us :: items), by
      simp [separated, List.intercalate_cons_cons]⟩

/-- Behind the first item stands the mark, or what follows the items. -/
theorem separated_append_cons (m : Punct) (ts : List Token) (items : List (List Token)) (u : Token)
    (rest : List Token) : ∃ v us, separated m (ts :: items) ++ u :: rest = ts ++ v :: us ∧
      (v = markToken m ∨ v = u) := by
  cases items with
  | nil => exact ⟨u, rest, by simp [separated], .inr rfl⟩
  | cons us items =>
    exact ⟨markToken m, separated m (us :: items) ++ u :: rest, by
      simp [separated, List.intercalate_cons_cons], .inl rfl⟩

/-- A name begins with an identifier. -/
theorem Name.IsPrintable.tokens_begin {n : Name} (h : n.IsPrintable) :
    ∃ t ts, n.tokens = t :: ts ∧ t.kind = .identifier := by
  obtain ⟨alias?, segments, text, span⟩ := n
  rw [Name.IsPrintable] at h
  rw [Name.tokens]
  cases alias? with
  | some a => exact ⟨_, _, rfl, rfl⟩
  | none =>
    obtain ⟨i, is, rfl⟩ := List.exists_cons_of_ne_nil h.2.1
    obtain ⟨us, hus⟩ := separated_cons .dot i.tokens (is.map NameSegment.tokens)
    exact ⟨_, _, by rw [List.map_cons, hus, i.tokens_eq]; rfl, rfl⟩

theorem TypeSyntax.IsPrintable.tokens_begin : ∀ {t : TypeSyntax}, t.IsPrintable →
    ∃ u us, t.tokens = u :: us ∧ u.beginsType = true
  | ⟨.predefined word, _, _⟩, h => by
    rw [TypeSyntax.IsPrintable, TypeShape.IsPrintable] at h
    rw [TypeSyntax.tokens, TypeShape.tokens]
    exact ⟨_, _, rfl, by simp [Token.beginsType, wordToken, h]⟩
  | ⟨.named n, _, _⟩, h => by
    rw [TypeSyntax.IsPrintable, TypeShape.IsPrintable] at h
    rw [TypeSyntax.tokens, TypeShape.tokens]
    obtain ⟨u, us, hu, hk⟩ := h.tokens_begin
    exact ⟨u, us, hu, by simp [Token.beginsType, hk]⟩
  | ⟨.array element rank, _, _⟩, h => by
    rw [TypeSyntax.IsPrintable, TypeShape.IsPrintable] at h
    rw [TypeSyntax.tokens, TypeShape.tokens]
    obtain ⟨u, us, hu, hk⟩ := h.1.tokens_begin
    exact ⟨u, _, by rw [hu]; rfl, hk⟩
  | ⟨.nullable element, _, _⟩, h => by
    rw [TypeSyntax.IsPrintable, TypeShape.IsPrintable] at h
    rw [TypeSyntax.tokens, TypeShape.tokens]
    obtain ⟨u, us, hu, hk⟩ := h.tokens_begin
    exact ⟨u, _, by rw [hu]; rfl, hk⟩
  | ⟨.pointer element, _, _⟩, h => by
    rw [TypeSyntax.IsPrintable, TypeShape.IsPrintable] at h
    rw [TypeSyntax.tokens, TypeShape.tokens]
    obtain ⟨u, us, hu, hk⟩ := h.tokens_begin
    exact ⟨u, _, by rw [hu]; rfl, hk⟩
  | ⟨.tuple elements, _, _⟩, h => by
    rw [TypeSyntax.tokens, TypeShape.tokens]
    exact ⟨_, _, rfl, rfl⟩

theorem length_le_separated {ts : List Token} {m : Punct} {items : List (List Token)} (h : ts ∈ items) :
    ts.length ≤ (separated m items).length := by
  induction items with
  | nil => cases h
  | cons us items ih =>
    cases items with
    | nil =>
      obtain rfl := List.mem_singleton.1 h
      simp [separated]
    | cons vs items =>
      rw [separated, List.intercalate_cons_cons, List.length_append, List.length_append]
      rcases List.mem_cons.1 h with rfl | h
      · omega
      · have := ih h
        rw [separated] at this
        omega

theorem tokens_length_le_name {k : Name} {i : NameSegment} (hi : i ∈ k.segments) :
    i.tokens.length ≤ k.tokens.length := by
  rw [k.tokens_eq, List.length_append]
  have := @length_le_separated i.tokens .dot _ (List.mem_map_of_mem hi)
  omega

/-! ## Suffixes -/

/-- A type of this form begins with no other type. -/
def TypeShape.isBase : TypeShape → Bool
  | .predefined _ | .named _ | .tuple _ => true
  | _ => false

/-- A suffix of a type. -/
inductive TypeSuffix where
  | nullable
  | pointer
  | array (rank : Nat)

namespace TypeSuffix

/-- The tokens of the suffix. -/
def tokens : TypeSuffix → List Token
  | nullable => [markToken .question]
  | pointer => [markToken .star]
  | array rank => rankTokens rank

/-- The type `t` with the suffix, without its places. -/
def on (t : TypeSyntax) : TypeSuffix → TypeSyntax
  | nullable => ⟨.nullable t, "", default⟩
  | pointer => ⟨.pointer t, "", default⟩
  | array rank => ⟨.array t rank, "", default⟩

/-- Is the rank, if there is one, at least one? -/
def IsPrintable : TypeSuffix → Prop
  | array rank => 0 < rank
  | _ => True

end TypeSuffix

/-! ## Spelling -/

section
variable {p : Token → Prop}

theorem forall_mem_separated {m : Punct} {items : List (List Token)} (hm : p (markToken m))
    (h : ∀ ts ∈ items, ∀ t ∈ ts, p t) : ∀ t ∈ separated m items, p t := by
  induction items with
  | nil => simp [separated]
  | cons ts items ih =>
    obtain ⟨hts, hitems⟩ := List.forall_mem_cons.1 h
    cases items with
    | nil => simpa [separated] using hts
    | cons us items =>
      intro t ht
      rw [separated, List.intercalate_cons_cons, List.append_assoc, List.mem_append] at ht
      rcases ht with ht | ht
      · exact hts t ht
      · rcases List.mem_cons.1 ht with rfl | ht
        exacts [hm, ih hitems t ht]

theorem forall_mem_argumentTokens {args : List (List Token)} (hm : ∀ m, p (markToken m))
    (h : ∀ ts ∈ args, ∀ t ∈ ts, p t) : ∀ t ∈ argumentTokens args, p t := by
  unfold argumentTokens
  split
  · simp
  · simpa [hm, or_imp, forall_and] using forall_mem_separated (hm .comma) h

theorem forall_mem_rankTokens {rank : Nat} (hm : ∀ m, p (markToken m)) :
    ∀ t ∈ rankTokens rank, p t := by
  simp [rankTokens, hm, or_imp, forall_and]

end

theorem Ident.IsName.isSpelt {i : Ident} (h : i.IsName) : i.token.IsSpelt :=
  wordToken_isSpelt h

/-- The name of a predefined type is a reserved word. -/
theorem isWord_of_isPredefinedType {w : String} (h : (wordKind w).isPredefinedType = true) :
    IsWord w (wordKind w) := by
  unfold wordKind at h ⊢
  split at h
  · rename_i k hk
    exact Keyword.text_of_ofText? hk ▸ k.isWord
  · cases h

mutual

theorem NameSegment.IsPrintable.isSpelt : ∀ {s : NameSegment}, s.IsPrintable →
    ∀ t ∈ s.tokens, t.IsSpelt
  | ⟨ident, args⟩, h => by
    rw [NameSegment.IsPrintable] at h
    rw [NameSegment.tokens, List.forall_mem_cons]
    refine ⟨h.1.isSpelt, forall_mem_argumentTokens markToken_isSpelt ?_⟩
    intro ts hts
    obtain ⟨a, ha, rfl⟩ := List.mem_map.1 hts
    exact (h.2 a ha).isSpelt

theorem Name.IsPrintable.isSpelt : ∀ {n : Name}, n.IsPrintable → ∀ t ∈ n.tokens, t.IsSpelt
  | ⟨alias?, segments, _, _⟩, h => by
    rw [Name.IsPrintable] at h
    rw [Name.tokens, List.forall_mem_append]
    refine ⟨?_, forall_mem_separated (markToken_isSpelt .dot) ?_⟩
    · cases alias? with
      | none => simp
      | some a => simpa [markToken_isSpelt] using (h.1 a rfl).isSpelt
    · intro ts hts
      obtain ⟨s, hs, rfl⟩ := List.mem_map.1 hts
      exact (h.2.2 s hs).isSpelt

theorem TupleElement.IsPrintable.isSpelt : ∀ {e : TupleElement}, e.IsPrintable →
    ∀ t ∈ e.tokens, t.IsSpelt
  | ⟨type, name?⟩, h => by
    rw [TupleElement.IsPrintable] at h
    rw [TupleElement.tokens, List.forall_mem_append]
    refine ⟨h.1.isSpelt, ?_⟩
    cases name? with
    | none => simp
    | some i => simpa using (h.2 i rfl).isSpelt

theorem TypeShape.IsPrintable.isSpelt : ∀ {s : TypeShape}, s.IsPrintable →
    ∀ t ∈ s.tokens, t.IsSpelt
  | .predefined word, h => by
    rw [TypeShape.IsPrintable] at h
    rw [TypeShape.tokens, List.forall_mem_singleton]
    exact wordToken_isSpelt (isWord_of_isPredefinedType h)
  | .named name, h => by
    rw [TypeShape.IsPrintable] at h
    rw [TypeShape.tokens]
    exact h.isSpelt
  | .array element rank, h => by
    rw [TypeShape.IsPrintable] at h
    rw [TypeShape.tokens, List.forall_mem_append]
    exact ⟨h.1.isSpelt, forall_mem_rankTokens markToken_isSpelt⟩
  | .nullable element, h => by
    rw [TypeShape.IsPrintable] at h
    rw [TypeShape.tokens, List.forall_mem_append, List.forall_mem_singleton]
    exact ⟨h.isSpelt, markToken_isSpelt _⟩
  | .pointer element, h => by
    rw [TypeShape.IsPrintable] at h
    rw [TypeShape.tokens, List.forall_mem_append, List.forall_mem_singleton]
    exact ⟨h.isSpelt, markToken_isSpelt _⟩
  | .tuple elements, h => by
    rw [TypeShape.IsPrintable] at h
    rw [TypeShape.tokens, List.forall_mem_cons, List.forall_mem_append, List.forall_mem_singleton]
    refine ⟨markToken_isSpelt _, forall_mem_separated (markToken_isSpelt .comma) ?_,
      markToken_isSpelt _⟩
    intro ts hts
    obtain ⟨e, he, rfl⟩ := List.mem_map.1 hts
    exact (h.2 e he).isSpelt

theorem TypeSyntax.IsPrintable.isSpelt : ∀ {t : TypeSyntax}, t.IsPrintable →
    ∀ u ∈ t.tokens, u.IsSpelt
  | ⟨shape, _, _⟩, h => by
    rw [TypeSyntax.IsPrintable] at h
    rw [TypeSyntax.tokens]
    exact h.isSpelt

end

end CommandModules

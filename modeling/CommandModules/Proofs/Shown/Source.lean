/-
  Command modules — texts that are written out, before the parser.

  * `membersWithin_reads`: classes and methods that are written out are read back as the
    members of a class, by induction on the depth of classes in classes;
  * `using_reads`: so are using directives;
  * `entriesWithin_reads`: so are these and the declarations of a namespace, by induction on
    the depth of namespaces in namespaces; `sourceUnit_reads` says this of whole texts.
-/
import CommandModules.Proofs.Alike.Unit
import CommandModules.Proofs.Shown.Unit

namespace CommandModules

open ParserState

variable {source : List Char} {s : ParserState} {t u v : Token} {ts rest : List Token}

namespace Parser

/-! ## Moving on -/

/-- Behind tokens that were consumed, there is no need to move on. -/
theorem moveOn_passed {place : Nat} (h : place < s.place) :
    Reader.Accepts source s (moveOn place) fun _ s' => s' = s := by
  refine .of_safe moveOn_safe fun _ => ?_
  have hrun : ((moveOn place).run s).2 = s := by
    show (StateT.run (if s.place = place && !s.isAtMark .rightBrace then Functor.discard advance
      else Pure.pure ()) s).2 = s
    rw [if_neg (by simp; omega)]
    rfl
  rw [hrun]
  exact ⟨rfl, rfl⟩

/-! ## Members -/

/-- Where less than `n` tokens are ahead, members that are written out are read, up to a
    closing brace. -/
def ReadsMembers (source : List Char) (nested : Reader (List Member)) (n : Nat) : Prop :=
  ∀ (ms : List Member) (s : ParserState) (rest : List Token), (∀ m ∈ ms, m.IsPrintable) →
    s.after.length < n → s.Shows (ms.flatMap Member.tokens ++ markToken .rightBrace :: rest) →
      Reader.Accepts source s nested fun xs s' =>
        erase xs = erase ms ∧ s'.Shows (markToken .rightBrace :: rest)

/-- A class without its head, and what its head is. -/
theorem TypeDeclaration.tokens_eq (t : TypeDeclaration) : t.tokens =
    headTokens t.attributes t.modifiers ++ keywordToken .class_ :: t.name.token ::
      (TypeParameter.listTokens t.typeParameters ++ (baseTokens t.bases ++ markToken .leftBrace ::
        (t.members.flatMap Member.tokens ++ [markToken .rightBrace]))) := by
  cases t
  simp [TypeDeclaration.tokens, TypeDeclaration.openTokens, baseTokens]

theorem TypeDeclaration.isPrintable_iff (t : TypeDeclaration) :
    t.IsPrintable ↔ t.Opens ∧ ∀ m ∈ t.members, m.IsPrintable := by
  cases t
  rw [TypeDeclaration.IsPrintable]

/-! ## Beginnings -/

/-- A member or a declaration can begin with the token. -/
def BeginsMember (t : Token) : Prop :=
  t.kind ≠ .punct .semicolon ∧ t.kind ≠ .punct .rightBrace ∧ t.kind ≠ .eof

theorem beginsMember_word {kind : TokenKind} {w : String}
    (h : kind.isKeyword = true ∨ kind = .identifier) : BeginsMember (wordToken kind w) := by
  rw [BeginsMember]
  rcases h with h | h <;> refine ⟨?_, ?_, ?_⟩ <;> intro hk <;> simp_all [wordToken, TokenKind.isKeyword]

theorem beginsMember_type (h : t.beginsType = true) : BeginsMember t := by
  refine ⟨?_, ?_, ?_⟩ <;> intro hk <;> simp [Token.beginsType, hk, TokenKind.isPredefinedType] at h

theorem headTokens_begin {as : List AttributeSection} {m : WrittenModifiers} (hu : BeginsMember u) :
    ∃ t ts, headTokens as m ++ u :: rest = t :: ts ∧ BeginsMember t := by
  rcases as with _ | ⟨a, as⟩
  · rcases hwords : m.words with _ | ⟨w, ws⟩
    · exact ⟨u, rest, by simp [headTokens, WrittenModifiers.tokens, hwords], hu⟩
    · refine ⟨_, _, by simp [headTokens, WrittenModifiers.tokens, hwords]; exact ⟨rfl, rfl⟩, ?_⟩
      refine beginsMember_word ?_
      unfold wordKind
      split
      exacts [.inl rfl, .inr rfl]
  · exact ⟨_, _, rfl, by simp [BeginsMember, markToken]⟩

theorem Member.IsPrintable.tokens_begin {m : Member} (hm : m.IsPrintable) :
    ∃ t ts, m.tokens = t :: ts ∧ BeginsMember t := by
  cases m with
  | method m =>
    rw [Member.IsPrintable] at hm
    rw [Member.tokens, Method.tokens]
    obtain ⟨u, us, hu, hbegin⟩ := hm.returnType.1.tokens_begin
    rw [hu, List.append_assoc]
    exact headTokens_begin (beginsMember_type hbegin)
  | type t =>
    rw [Member.tokens, TypeDeclaration.tokens_eq]
    exact headTokens_begin (beginsMember_word (.inl rfl))
  | _ => simp [Member.IsPrintable] at hm

/-- What follows a member does not begin with a semicolon. -/
theorem noSemicolon_members {ms : List Member} (hms : ∀ m ∈ ms, m.IsPrintable) :
    NoSemicolon (ms.flatMap Member.tokens ++ markToken .rightBrace :: rest) := by
  intro t ht
  cases ms with
  | nil =>
    obtain rfl := Option.some_inj.1 ht
    simp [markToken]
  | cons m ms =>
    obtain ⟨u, us, hu, hbegin⟩ := Member.IsPrintable.tokens_begin (hms m List.mem_cons_self)
    rw [List.flatMap_cons, hu] at ht
    obtain rfl : u = t := Option.some_inj.1 ht
    exact hbegin.1

section
variable {nested : Reader (List Member)} {n : Nat} (h : ReadsMembers source nested n)
  (hsafe : ∀ s', s'.after.length < n →
    Reader.Safe source s' nested fun ms _ => Member.AllWorded ms)
include h hsafe

/-- A class that is written out is read back behind its attributes and modifiers. -/
theorem typeWithMembers_reads {head : Head} {t : TypeDeclaration} (ht : t.IsPrintable)
    (hn : s.after.length ≤ n) (hattrs : erase head.attributes = erase t.attributes)
    (hmods : erase head.modifiers = erase t.modifiers) (hr : NoSemicolon rest)
    (hs : s.Shows (classTokens t.name t.typeParameters t.bases
      (t.members.flatMap Member.tokens ++ markToken .rightBrace :: rest))) :
    Parser.Accepts source s (typeWithMembers nested head) fun x s' =>
      erase x = erase t ∧ s'.Shows rest := by
  rw [TypeDeclaration.isPrintable_iff] at ht
  obtain ⟨hopens, hms⟩ := ht
  refine (typeWithMembers_passes (C := True) (Q := fun xs => erase xs = erase t.members) hsafe hn
    (fun s' hs' hlen => h t.members s' rest hms hlen hs') hr
    (fun p hp => ⟨(hopens.typeParameters p hp).attributes, (hopens.typeParameters p hp).variance⟩)
    (fun b hb => (hopens.bases b hb).1) hs).mono fun x s' hx => ⟨?_, hx.2⟩
  obtain ⟨⟨-, heq, hmembers⟩, -⟩ := hx
  have hkind := hopens.kind
  have hparams := hopens.parameters
  have hconstraints := hopens.constraints
  obtain ⟨attributes, modifiers, kind, name, ps, parameters?, bases, constraints, ms, span⟩ := t
  obtain rfl : kind = .class_ := hkind
  obtain rfl : parameters? = none := hparams
  obtain rfl : constraints = [] := hconstraints
  rw [heq]
  simp [hattrs, hmods, hmembers]

omit h hsafe in
theorem isAtType_of_beginsType (hbegin : s.peek.beginsType = true) (hp : s.peek.IsPlain) :
    isAtType s = false := by
  have hrecord : isAtRecord s = false := by
    have : s.peek.isContextual "record" = false := by
      refine Bool.eq_false_iff.2 fun hc => ?_
      simp only [Token.isContextual, Bool.and_eq_true, beq_iff_eq] at hc
      exact hp hc.1 (by simp [hc.2, contextualWords])
    simp [isAtRecord, this]
  unfold isAtType
  split
  case h_5 => exact hrecord
  all_goals
    rename_i hk
    simp [Token.beginsType, hk, TokenKind.isPredefinedType, Keyword.isPredefinedType] at hbegin

/-- A member that is written out is read back. -/
theorem memberWith_reads {m : Member} (hm : m.IsPrintable) (hn : s.after.length ≤ n)
    (hr : NoSemicolon rest) (hs : s.Shows (m.tokens ++ rest)) :
    Parser.Accepts source s (memberWith nested) fun x? s' =>
      (∃ x, x? = some x ∧ erase x = erase m) ∧ s'.Shows rest := by
  have hsemicolon : s.peek.kind ≠ .punct .semicolon := by
    obtain ⟨u, us, hu, hbegin⟩ := Member.IsPrintable.tokens_begin hm
    have hs := hs
    rw [hu] at hs
    exact ParserState.Shows.peek_kind hs ▸ hbegin.1
  refine .andThen (eat_declines hsemicolon) fun b s₁ h₁ => ?_
  obtain ⟨rfl, rfl⟩ := h₁
  cases m with
  | method m =>
    rw [Member.IsPrintable] at hm
    obtain ⟨u, us, hu, hbegin⟩ := hm.returnType.1.tokens_begin
    have hplain : u.IsPlain := hm.returnType.2 u (hu ▸ List.mem_cons_self)
    have hs : s₁.Shows (headTokens m.attributes m.modifiers ++ (m.returnType.tokens ++
        m.name.token :: signatureTokens m.typeParameters m.parameters (m.body.tokens ++ rest))) := by
      simpa [Member.tokens, Method.tokens, signatureTokens] using hs
    have hmodifies (t : Token) (ht : t.kind = .identifier)
        (hl : contextualModifiers.contains t.lexeme = true) :=
      @modifiesBefore_of_member source t m.name.token
        (signatureTokens m.typeParameters m.parameters (m.body.tokens ++ rest)) _
        hm.returnType.1 ht hl rfl
    rw [hu] at hs hmodifies
    refine (head_reads hm.attributes hm.modifiers hs (endsModifiers_of_beginsType hbegin hplain)
      (ne_bracket_of_beginsType hbegin) hmodifies).bind fun hd s₂ h₂ => .get fun _ => ?_
    obtain ⟨hattrs, hmods, h₂⟩ := h₂
    have hpeek : erase s₂.peek = u := ParserState.Shows.peek h₂
    rw [← hpeek] at hbegin hplain
    rw [if_neg (by simp [isAtType_of_beginsType hbegin hplain])]
    refine (memberAfter_reads hm hattrs hmods (by rwa [hu])).bind fun x s₃ h₃ => .pure ?_
    exact ⟨⟨x, rfl, h₃.1⟩, h₃.2⟩
  | type t =>
    rw [Member.IsPrintable] at hm
    have hopens := ((TypeDeclaration.isPrintable_iff t).1 hm).1
    have hs : s₁.Shows (headTokens t.attributes t.modifiers ++ classTokens t.name t.typeParameters
        t.bases (t.members.flatMap Member.tokens ++ markToken .rightBrace :: rest)) := by
      simpa [Member.tokens, TypeDeclaration.tokens_eq, classTokens] using hs
    refine (head_reads hopens.attributes hopens.modifiers hs (by decide) (by decide)
      fun v hk hl => modifiesBefore_of_continues hk hl (by decide)).bind fun hd s₂ h₂ =>
        .get fun _ => ?_
    obtain ⟨hattrs, hmods, h₂⟩ := h₂
    have hk : s₂.peek.kind = .keyword .class_ := ParserState.Shows.peek_kind h₂
    have hlen : s₂.after.length ≤ n := by
      have hlength := h₂.length_after
      have := hs.length_after
      rw [List.length_append] at this
      exact (hlength.trans_le (by rw [classTokens] at this; omega)).trans hn
    rw [if_pos (by simp [isAtType, hk])]
    refine (typeWithMembers_reads h hsafe hm hlen hattrs hmods hr h₂).bind fun x s₃ h₃ => .pure ?_
    exact ⟨⟨_, rfl, by simp [h₃.1]⟩, h₃.2⟩
  | _ => simp [Member.IsPrintable] at hm

theorem memberStep_reads {m : Member} {xs : List Member} (hm : m.IsPrintable)
    (hn : s.after.length ≤ n) (hr : NoSemicolon rest) (hs : s.Shows (m.tokens ++ rest)) :
    Reader.Accepts source s (memberStep nested xs) fun r s' =>
      (∃ x, r = .next (xs ++ [x]) ∧ erase x = erase m) ∧ s'.Shows rest := by
  obtain ⟨u, us, hu, hbegin⟩ := Member.IsPrintable.tokens_begin hm
  have hs' := hs
  rw [hu] at hs'
  have hk : s.peek.kind = u.kind := ParserState.Shows.peek_kind hs'
  refine .get fun _ => ?_
  rw [if_pos (by simp [isInBraces, isAtMark, isAtEof, isAt, hk, hbegin.2.1, hbegin.2.2])]
  refine ((memberWith_reads h hsafe hm hn hr hs).orRecover
    (memberWith_safe hsafe hn)).bind_moves fun x? k s₁ hk h₁ => ?_
  obtain ⟨_, rfl, ⟨x, rfl, hx⟩, h₁⟩ := h₁
  have hplace : s.place < s₁.place := by
    have hlen := hk.length_after
    rw [h₁.length_after, hs'.length_after, List.cons_append, List.length_cons,
      List.length_append] at hlen
    rw [hk.place_eq]
    omega
  refine (moveOn_passed hplace).bind fun _ s₂ h₂ => .pure ?_
  exact ⟨⟨x, rfl, hx⟩, h₂ ▸ h₁⟩

end

/-- **Classes and methods that are written out are read back** as the members of a class. -/
theorem membersWithin_reads (depth : Nat) : ReadsMembers source (membersWithin depth) depth := by
  induction depth with
  | zero => exact fun _ _ _ _ hn => absurd hn (Nat.not_lt_zero _)
  | succ depth ih =>
    intro ms s rest hms hn hs
    -- the members that were read, and those ahead
    refine .loop (I := fun xs s' => ∃ done ahead, ms = done ++ ahead ∧ erase xs = erase done ∧
      s'.after.length ≤ depth ∧
      s'.Shows (ahead.flatMap Member.tokens ++ markToken .rightBrace :: rest))
      ⟨[], ms, rfl, rfl, Nat.le_of_lt_succ hn, hs⟩ fun xs s' hI => ?_
    obtain ⟨done, ahead, rfl, hxs, hlen, hs'⟩ := hI
    obtain ⟨-, hahead⟩ := List.forall_mem_append.1 hms
    cases ahead with
    | nil =>
      have hs' : s'.Shows (markToken .rightBrace :: rest) := hs'
      refine .get fun _ => ?_
      rw [if_neg (by simp [isInBraces, isAtMark, isAt, hs'.peek_kind, markToken])]
      exact .pure ⟨by simp [hxs], hs'⟩
    | cons m ahead =>
      obtain ⟨hm, hahead⟩ := List.forall_mem_cons.1 hahead
      have hs' : s'.Shows (m.tokens ++
          (ahead.flatMap Member.tokens ++ markToken .rightBrace :: rest)) := by
        simpa using hs'
      refine (memberStep_reads ih (fun _ h' => membersWithin_safe h') hm hlen
        (noSemicolon_members hahead) hs').mono fun r s₁ h₁ => ?_
      obtain ⟨⟨x, rfl, hx⟩, h₁⟩ := h₁
      have hpos : 0 < m.tokens.length := by
        obtain ⟨u, us, hu, -⟩ := Member.IsPrintable.tokens_begin hm
        simp [hu]
      have hlt : s₁.after.length < s'.after.length := by
        rw [h₁.length_after, hs'.length_after, @List.length_append _ m.tokens]
        omega
      exact ⟨⟨done ++ [m], ahead, by simp, by simp [hxs, hx], by omega, h₁⟩, hlt⟩

theorem members_reads (n : Nat) : ReadsMembers source members n := by
  intro ms s rest hms _ hs
  refine rounds_accepts.bind fun k s₁ h₁ => ?_
  obtain ⟨rfl, rfl⟩ := h₁
  exact membersWithin_reads _ ms s₁ rest hms (Nat.lt_succ_self _) hs

/-! ## Using directives -/

theorem usingAlias_reads {a? : Option Ident} {n : Name} (hn : n.IsPrintable)
    (hs : s.Shows ((a?.toList.flatMap fun a => [a.token, markToken .equal]) ++
      (n.tokens ++ markToken .semicolon :: rest))) :
    Parser.Accepts source s usingAlias fun x? s' => erase x? = erase a? ∧
      s'.Shows (n.tokens ++ markToken .semicolon :: rest) := by
  cases a? with
  | none =>
    have hs : s.Shows (n.tokens ++ markToken .semicolon :: rest) := hs
    refine .get fun hg => ?_
    have hne : (s.peekAt 1).kind ≠ .punct .equal := by
      refine ParserState.Shows.peekAt_of (p := (· ≠ .punct .equal)) hs hg (fun t ht hk => ?_) (by simp)
      rcases hn.tokens_second ht with h | h
      · simp [Token.endsType, hk] at h
      · obtain rfl := Option.some_inj.1 h
        simp [markToken] at hk
    rw [if_neg (by simp [hne])]
    exact .pure ⟨rfl, hs⟩
  | some a =>
    have hs : s.Shows (a.token :: markToken .equal :: (n.tokens ++ markToken .semicolon :: rest)) := hs
    refine .get fun _ => ?_
    rw [if_pos (by simp [isAt, hs.peek_kind, hs.peekAt_kind (n := 1) rfl, Ident.token, wordToken,
      markToken])]
    refine (ident_accepts hs rfl).bind fun i s₁ h₁ => ?_
    refine (Parser.Passes.lift (advance_shows h₁.2)).discard.bind fun _ s₂ h₂ => .pure ⟨?_, h₂⟩
    exact congrArg some (erase_ident_eq h₁.1)

/-- **A using directive that is written out is read back.** -/
theorem using_reads {u : Using} (hu : u.IsPrintable) (hs : s.Shows (u.tokens ++ rest)) :
    Parser.Accepts source s using_ fun x s' => erase x = erase u ∧ s'.Shows rest := by
  obtain ⟨isGlobal, isStatic, alias?, name, span⟩ := u
  have hname : name.IsPrintable := hu.name.1
  clear hu
  -- the directive behind its word `using`
  have hbehind {s' : ParserState} (hs' : s'.Shows ((if isStatic then [keywordToken .static] else []) ++
      ((alias?.toList.flatMap fun a => [a.token, markToken .equal]) ++
        (name.tokens ++ markToken .semicolon :: rest)))) : Parser.Accepts source s'
      (do let isStatic ← eatWord .static
          let alias? ← usingAlias
          let name ← Parser.name
          discard (expectMark .semicolon)
          return ⟨isGlobal, isStatic, alias?, name, (← get).spanFrom s.peek.span⟩ : Parser Using)
      fun x s'' => erase x = erase (⟨isGlobal, isStatic, alias?, name, span⟩ : Using) ∧
        s''.Shows rest := by
    have hstatic : Reader.Accepts source s' (eatWord .static) fun b s'' => b = isStatic ∧
        s''.Shows ((alias?.toList.flatMap fun a => [a.token, markToken .equal]) ++
          (name.tokens ++ markToken .semicolon :: rest)) := by
      cases isStatic with
      | true => exact eat_accepts hs' rfl
      | false =>
        have hk : s'.peek.kind = .identifier := by
          obtain ⟨u, us, hu, hk⟩ := hname.tokens_begin
          cases alias? with
          | none =>
            rw [hu] at hs'
            exact (ParserState.Shows.peek_kind hs').trans hk
          | some a => exact ParserState.Shows.peek_kind hs'
        refine (eat_declines (by simp [hk])).mono fun b s'' hb => ?_
        obtain ⟨rfl, rfl⟩ := hb
        exact ⟨rfl, hs'⟩
    refine .andThen hstatic fun b s₁ h₁ => ?_
    obtain ⟨rfl, h₁⟩ := h₁
    refine (usingAlias_reads hname h₁).bind fun x? s₂ h₂ => ?_
    refine (name_reads hname h₂.2 (.cons rfl)).bind fun x s₃ h₃ => ?_
    exact (expect_accepts h₃.2 rfl).discard.bind fun _ s₄ h₄ => .get fun _ =>
      .pure ⟨by simp [h₂.1, h₃.1], h₄⟩
  refine .get fun _ => ?_
  cases isGlobal with
  | true =>
    have hs : s.Shows (wordToken .identifier "global" :: keywordToken .using_ ::
        ((if isStatic then [keywordToken .static] else []) ++
          ((alias?.toList.flatMap fun a => [a.token, markToken .equal]) ++
            (name.tokens ++ markToken .semicolon :: rest)))) := by
      simpa [Using.tokens] using hs
    have hglobal : s.peek.isContextual "global" = true := by
      simp [Token.isContextual, hs.peek_kind, hs.peek_lexeme, wordToken]
    simp only [hglobal, if_true]
    refine (Parser.Passes.lift (advance_shows hs)).discard.bind fun _ s₁ h₁ => ?_
    exact (expect_accepts h₁ rfl).discard.bind fun _ s₂ h₂ => hbehind h₂
  | false =>
    have hs : s.Shows (keywordToken .using_ :: ((if isStatic then [keywordToken .static] else []) ++
        ((alias?.toList.flatMap fun a => [a.token, markToken .equal]) ++
          (name.tokens ++ markToken .semicolon :: rest)))) := by
      simpa [Using.tokens] using hs
    have hglobal : s.peek.isContextual "global" = false := by
      simp [Token.isContextual, hs.peek_kind, keywordToken, wordToken]
    simp only [hglobal, Bool.false_eq_true, if_false]
    exact (expect_accepts hs rfl).discard.bind fun _ s₂ h₂ => hbehind h₂

/-! ## Entries -/

/-- The tokens of an entry, which is a using directive or a declaration. -/
def Entry.tokens : Entry → List Token
  | .using_ u => u.tokens
  | .declaration d => d.tokens
  | .attributes _ => []

/-- The entry is a using directive or a declaration that can be written. -/
def Entry.IsPrintable : Entry → Prop
  | .using_ u => u.IsPrintable
  | .declaration d => d.IsPrintable
  | .attributes _ => False

/-- What follows entries: the end of the text or, between braces, a closing brace. -/
def EndsEntries (braced : Bool) (rest : List Token) : Prop :=
  if braced then ∃ more, rest = markToken .rightBrace :: more else rest = []

/-- Where less than `n` tokens are ahead, entries that are written out are read. -/
def ReadsEntries (source : List Char) (nested : Bool → Reader (List Entry)) (n : Nat) : Prop :=
  ∀ (es : List Entry) (s : ParserState) (rest : List Token) (braced : Bool),
    (∀ e ∈ es, e.IsPrintable) → EndsEntries braced rest → s.after.length < n →
      s.Shows (es.flatMap Entry.tokens ++ rest) →
        Reader.Accepts source s (nested braced) fun xs s' => erase xs = erase es ∧ s'.Shows rest

theorem Using.tokens_begin (u : Using) : ∃ t ts, u.tokens = t :: ts ∧ BeginsMember t := by
  obtain ⟨isGlobal, isStatic, alias?, name, span⟩ := u
  cases isGlobal with
  | true => exact ⟨_, _, rfl, beginsMember_word (.inr rfl)⟩
  | false => exact ⟨_, _, rfl, beginsMember_word (.inl rfl)⟩

theorem NamespaceDeclaration.tokens_eq (n : NamespaceDeclaration) : n.tokens =
    keywordToken .namespace_ :: (n.name.tokens ++ markToken .leftBrace ::
      ((n.usings.map Entry.using_ ++ n.members.map Entry.declaration).flatMap Entry.tokens ++
        [markToken .rightBrace])) := by
  cases n
  rw [NamespaceDeclaration.tokens, List.flatMap_append, List.flatMap_map, List.flatMap_map]
  rfl

theorem Entry.IsPrintable.tokens_begin {e : Entry} (he : e.IsPrintable) :
    ∃ t ts, e.tokens = t :: ts ∧ BeginsMember t := by
  cases e with
  | using_ u => exact Using.tokens_begin u
  | declaration d =>
    cases d with
    | namespace_ n =>
      rw [Entry.tokens, Declaration.tokens, NamespaceDeclaration.tokens_eq]
      exact ⟨_, _, rfl, beginsMember_word (.inl rfl)⟩
    | type t =>
      rw [Entry.tokens, Declaration.tokens, TypeDeclaration.tokens_eq]
      exact headTokens_begin (beginsMember_word (.inl rfl))
    | delegate d => simp [Entry.IsPrintable, Declaration.IsPrintable] at he
  | attributes => cases he

/-- What follows an entry does not begin with a semicolon. -/
theorem noSemicolon_entries {es : List Entry} {braced : Bool} (hes : ∀ e ∈ es, e.IsPrintable)
    (hr : EndsEntries braced rest) : NoSemicolon (es.flatMap Entry.tokens ++ rest) := by
  intro t ht
  cases es with
  | nil =>
    cases braced with
    | true =>
      obtain ⟨more, rfl⟩ := hr
      obtain rfl := Option.some_inj.1 ht
      simp [markToken]
    | false =>
      obtain rfl : rest = [] := hr
      cases ht
  | cons e es =>
    obtain ⟨u, us, hu, hbegin⟩ := Entry.IsPrintable.tokens_begin (hes e List.mem_cons_self)
    rw [List.flatMap_cons, hu] at ht
    obtain rfl : u = t := Option.some_inj.1 ht
    exact hbegin.1

/-- Which readers of entries are tried before that of declarations. -/
theorem begins_class {as : List AttributeSection} {m : WrittenModifiers}
    (has : ∀ a ∈ as, a.IsPrintable) (hm : m.IsPrintable)
    (hs : s.Shows (headTokens as m ++ keywordToken .class_ :: rest)) (hg : s.Good source) :
    s.isAtMark .rightBrace = false ∧ isAtExternAlias s = false ∧ isAtUsing s = false ∧
      isAtGlobalAttributes s = false := by
  cases as with
  | nil =>
    have hms : AreModifiers m.tokens :=
      ⟨isChain_of_forall fun t ht v => hm.canModify ht v, by
        rw [m.lexeme_tokens]
        exact modifierFlags_nodup hm.nodup⟩
    obtain ⟨hbrace, hpast, husing, hbracket, -⟩ := hms.begins_declaration hs
    exact ⟨hbrace, hpast, husing, by simp [isAtGlobalAttributes, hbracket]⟩
  | cons a as =>
    have hk : s.peek.kind = .punct .leftBracket := ParserState.Shows.peek_kind hs
    have hglobal : isAtGlobalAttributes s = false := by
      obtain ⟨target?, attributes, span⟩ := a
      have hattrs := (has _ List.mem_cons_self).attributes
      have hs : s.Shows (markToken .leftBracket :: (separated .comma (attributes.map Attribute.tokens) ++
          markToken .rightBracket :: (headTokens as m ++ keywordToken .class_ :: rest))) := by
        simpa [headTokens, AttributeSection.tokens] using hs
      cases attributes with
      | nil =>
        have hnext : (s.peekAt 1).kind = .punct .rightBracket :=
          ParserState.Shows.peekAt_kind (n := 1) hs rfl
        simp [isAtGlobalAttributes, Token.isContextual, hnext]
      | cons b bs =>
        obtain ⟨v, us, heq, hv⟩ := separated_append_cons .comma b.tokens (bs.map Attribute.tokens)
          (markToken .rightBracket) (headTokens as m ++ keywordToken .class_ :: rest)
        rw [List.map_cons, heq] at hs
        have hcolon : (s.peekAt 2).kind ≠ .punct .colon :=
          ParserState.Shows.peekAt_of (p := (· ≠ .punct .colon)) hs hg (fun t ht =>
            Attribute.IsPrintable.second_ne_colon (hattrs b List.mem_cons_self) hv ht) (by simp)
        simp [isAtGlobalAttributes, hcolon]
    simp [isAtMark, isAtExternAlias, isAtUsing, isAt, hk, hglobal, Token.isContextual]

/-- The using directives and declarations among entries that were written out. -/
theorem entries_of_erase {es : List Entry} {us : List Using} {ds : List Declaration}
    (hes : erase es = erase (us.map Entry.using_ ++ ds.map Entry.declaration)) :
    erase (Entry.usings es) = erase us ∧ Entry.globalAttributes es = [] ∧
      erase (Entry.declarations es) = erase ds := by
  refine ⟨(Entry.usings_alike hes).trans ?_,
    List.map_eq_nil_iff.1 ((Entry.globalAttributes_alike hes).trans ?_),
    (Entry.declarations_alike hes).trans ?_⟩
  · simp [Entry.usings, List.filterMap_append, List.filterMap_map]
  · simp [Entry.globalAttributes, List.filterMap_append, List.filterMap_map]
  · simp [Entry.declarations, List.filterMap_append, List.filterMap_map]

section
variable {nested : Bool → Reader (List Entry)} {n : Nat} (h : ReadsEntries source nested n)
include h

/-- **A namespace that is written out is read back.** -/
theorem namespaceWith_reads {start : Span} {d : NamespaceDeclaration} (hd : d.IsPrintable)
    (hn : s.after.length ≤ n) (hr : NoSemicolon rest) (hs : s.Shows (d.tokens ++ rest)) :
    Parser.Accepts source s (namespaceWith nested start) fun x s' =>
      erase x = erase d ∧ s'.Shows rest := by
  rw [NamespaceDeclaration.tokens_eq] at hs
  obtain ⟨name, isFileScoped, usings, members, span⟩ := d
  rw [NamespaceDeclaration.IsPrintable] at hd
  obtain ⟨hname, rfl, husings, hmembers⟩ := hd
  have hs : s.Shows (keywordToken .namespace_ :: (name.tokens ++ markToken .leftBrace ::
      ((usings.map Entry.using_ ++ members.map Entry.declaration).flatMap Entry.tokens ++
        markToken .rightBrace :: rest))) := by
    simpa using hs
  refine (expect_accepts hs rfl).discard.bind fun _ s₁ h₁ => ?_
  refine (name_reads hname.1 h₁ (.cons rfl)).bind fun x s₂ h₂ => ?_
  obtain ⟨hx, h₂⟩ := h₂
  refine .andThen (eat_declines (by simp [h₂.peek_kind, markToken])) fun b s₃ h₃ => ?_
  obtain ⟨rfl, rfl⟩ := h₃
  have hentries : Parser.Accepts source s₃ (namespaceEntries nested false) fun es s' =>
      erase es = erase (usings.map Entry.using_ ++ members.map Entry.declaration) ∧
        s'.Shows rest := by
    refine (expect_accepts h₂ rfl).discard.bind fun _ s₄ h₄ => ?_
    have hlen : s₄.after.length < n := by
      have := hs.length_after
      rw [h₄.length_after]
      simp only [List.length_cons, List.length_append] at this ⊢
      omega
    refine .andThen (h _ s₄ (markToken .rightBrace :: rest) true ?_ ⟨rest, rfl⟩ hlen h₄)
      fun es s₅ h₅ => ?_
    · intro e he
      rcases List.mem_append.1 he with he | he
      · obtain ⟨u, hu, rfl⟩ := List.mem_map.1 he
        exact husings u hu
      · obtain ⟨d, hd, rfl⟩ := List.mem_map.1 he
        exact hmembers d hd
    · exact (closing_accepts h₅.2 hr).mono fun x s₆ h₆ => ⟨h₆.1 ▸ h₅.1, h₆.2⟩
  refine hentries.bind fun es s₄ h₄ => ?_
  obtain ⟨hus, hattrs, hds⟩ := entries_of_erase h₄.1
  simp only [hattrs, List.head?_nil]
  exact .get fun _ => .pure ⟨by simp [hx, hus, hds], h₄.2⟩

theorem declarationWith_reads {d : Declaration} (hd : d.IsPrintable) (hn : s.after.length ≤ n)
    (hr : NoSemicolon rest) (hs : s.Shows (d.tokens ++ rest)) :
    Parser.Accepts source s (declarationWith nested) fun x s' =>
      erase x = erase d ∧ s'.Shows rest := by
  cases d with
  | namespace_ d =>
    rw [Declaration.IsPrintable] at hd
    have hs : s.Shows (d.tokens ++ rest) := by
      rw [Declaration.tokens] at hs
      exact hs
    obtain ⟨us, hus⟩ : ∃ us, d.tokens ++ rest = keywordToken .namespace_ :: us :=
      ⟨_, by rw [NamespaceDeclaration.tokens_eq]; rfl⟩
    have hhead : Parser.Accepts source s head fun _ s' => s'.Shows (d.tokens ++ rest) := by
      have hk : s.peek.kind = .keyword .namespace_ := by
        rw [hus] at hs
        exact hs.peek_kind
      rw [hus] at hs ⊢
      exact (@head_accepts _ _ _ [] _ hs (by simp) (by simp [modifierFlags]) (by decide) (by simp)
        (by simp [hk])).mono fun _ _ h => h.2.2
    refine hhead.bind fun hd' s₁ h₁ => .get fun _ => ?_
    have hk : s₁.peek.kind = .keyword .namespace_ := by
      have h₁ := h₁
      rw [hus] at h₁
      exact ParserState.Shows.peek_kind h₁
    have hlen : s₁.after.length ≤ n := by
      rw [h₁.length_after, ← hs.length_after]
      exact hn
    rw [if_pos (isAt_iff.2 hk)]
    exact (namespaceWith_reads h hd hlen hr h₁).bind fun x s₂ h₂ =>
      .pure ⟨by simp [h₂.1], h₂.2⟩
  | type t =>
    rw [Declaration.IsPrintable] at hd
    have hopens := ((TypeDeclaration.isPrintable_iff t).1 hd).1
    have hs : s.Shows (headTokens t.attributes t.modifiers ++ classTokens t.name t.typeParameters
        t.bases (t.members.flatMap Member.tokens ++ markToken .rightBrace :: rest)) := by
      simpa [Declaration.tokens, TypeDeclaration.tokens_eq, classTokens] using hs
    refine (head_reads hopens.attributes hopens.modifiers hs (by decide) (by decide)
      fun v hk hl => modifiesBefore_of_continues hk hl (by decide)).bind fun hd' s₁ h₁ =>
        .get fun _ => ?_
    obtain ⟨hattrs, hmods, h₁⟩ := h₁
    have hk : s₁.peek.kind = .keyword .class_ := ParserState.Shows.peek_kind h₁
    rw [if_neg (by simp [isAt, hk]), if_neg (by simp [isAt, hk]), if_pos (by simp [isAtType, hk])]
    exact (typeWithMembers_reads (members_reads _) (fun _ _ => members_safe) hd (Nat.le_refl _)
      hattrs hmods hr h₁).bind fun x s₂ h₂ => .pure ⟨by simp [h₂.1], h₂.2⟩
  | delegate d => simp [Declaration.IsPrintable] at hd

variable (hsafe : ∀ s' braced, s'.after.length < n →
  Reader.Safe source s' (nested braced) fun es _ => Entry.AllSound source es)
include hsafe

/-- **An entry that is written out is read back.** -/
theorem entryWith_reads {e : Entry} (he : e.IsPrintable) (hn : s.after.length ≤ n)
    (hr : NoSemicolon rest) (hs : s.Shows (e.tokens ++ rest)) :
    Reader.Accepts source s (entryWith nested) fun x? s' =>
      (∃ x, x? = some x ∧ erase x = erase e) ∧ s'.Shows rest := by
  refine .get fun hg => ?_
  cases e with
  | using_ u =>
    have hat : s.isAtMark .rightBrace = false ∧ isAtExternAlias s = false ∧ isAtUsing s = true := by
      obtain ⟨isGlobal, isStatic, alias?, name, span⟩ := u
      cases isGlobal with
      | true =>
        have hk : s.peek.kind = .identifier := ParserState.Shows.peek_kind hs
        have hl : s.peek.lexeme = "global" := ParserState.Shows.peek_lexeme hs
        have hnext : (s.peekAt 1).kind = .keyword .using_ :=
          ParserState.Shows.peekAt_kind (n := 1) hs rfl
        simp [isAtMark, isAtExternAlias, isAtUsing, isAt, Token.isContextual, hk, hl, hnext]
      | false =>
        have hk : s.peek.kind = .keyword .using_ := ParserState.Shows.peek_kind hs
        simp [isAtMark, isAtExternAlias, isAtUsing, isAt, hk]
    rw [if_neg (by simp [hat.1]), if_neg (by simp [hat.2.1]), if_pos hat.2.2]
    refine (Parser.Passes.orRecover (S := fun _ _ => True) (.map (using_safe.mono fun _ _ _ => ⟨⟩))
      (Parser.Passes.map (T := fun e s' => erase e = erase (Entry.using_ u) ∧ s'.Shows rest)
        ((using_reads he hs).mono fun x s' hx => ⟨congrArg Entry.using_ hx.1, hx.2⟩))).mono
          fun x? s' hx => ?_
    obtain ⟨x, rfl, hx, hs'⟩ := hx
    exact ⟨⟨x, rfl, hx⟩, hs'⟩
  | declaration d =>
    have hat : s.isAtMark .rightBrace = false ∧ isAtExternAlias s = false ∧ isAtUsing s = false ∧
        isAtGlobalAttributes s = false := by
      cases d with
      | namespace_ d =>
        have hs : s.Shows (d.tokens ++ rest) := by
          rw [Entry.tokens, Declaration.tokens] at hs
          exact hs
        rw [NamespaceDeclaration.tokens_eq] at hs
        obtain ⟨hbrace, hpast, husing, hbracket, -⟩ := begins_namespace hs
        exact ⟨hbrace, hpast, husing, by simp [isAtGlobalAttributes, hbracket]⟩
      | type t =>
        have hopens : t.Opens := by
          rw [Entry.IsPrintable, Declaration.IsPrintable, TypeDeclaration.isPrintable_iff] at he
          exact he.1
        rw [Entry.tokens, Declaration.tokens, TypeDeclaration.tokens_eq, List.append_assoc] at hs
        exact begins_class hopens.attributes hopens.modifiers hs hg
      | delegate d => simp [Entry.IsPrintable, Declaration.IsPrintable] at he
    rw [if_neg (by simp [hat.1]), if_neg (by simp [hat.2.1]), if_neg (by simp [hat.2.2.1]),
      if_neg (by simp [hat.2.2.2])]
    refine (Parser.Passes.orRecover (S := fun _ _ => True)
      (.map ((declarationWith_safe hsafe hn).mono fun _ _ _ => ⟨⟩))
      (Parser.Passes.map (T := fun e s' => erase e = erase (Entry.declaration d) ∧ s'.Shows rest)
        ((declarationWith_reads h he hn hr hs).mono fun x s' hx =>
          ⟨congrArg Entry.declaration hx.1, hx.2⟩))).mono fun x? s' hx => ?_
    obtain ⟨x, rfl, hx, hs'⟩ := hx
    exact ⟨⟨x, rfl, hx⟩, hs'⟩
  | attributes => cases he

theorem entryStep_reads {e : Entry} {xs : List Entry} {braced : Bool} (he : e.IsPrintable)
    (hn : s.after.length ≤ n) (hr : NoSemicolon rest) (hs : s.Shows (e.tokens ++ rest)) :
    Reader.Accepts source s (entryStep nested braced xs) fun r s' =>
      (∃ x, r = .next (xs ++ [x]) ∧ erase x = erase e) ∧ s'.Shows rest := by
  obtain ⟨u, us, hu, hbegin⟩ := Entry.IsPrintable.tokens_begin he
  have hs' := hs
  rw [hu] at hs'
  have hk : s.peek.kind = u.kind := ParserState.Shows.peek_kind hs'
  refine .get fun _ => ?_
  rw [if_neg (by simp [isAtMark, isAtEof, isAt, hk, hbegin.2.1, hbegin.2.2])]
  refine (entryWith_reads h hsafe he hn hr hs).bind_moves fun x? k s₁ hk h₁ => ?_
  obtain ⟨⟨x, rfl, hx⟩, h₁⟩ := h₁
  have hplace : s.place < s₁.place := by
    have hlen := hk.length_after
    rw [h₁.length_after, hs'.length_after, List.cons_append, List.length_cons,
      List.length_append] at hlen
    rw [hk.place_eq]
    omega
  refine (moveOn_passed hplace).bind fun _ s₂ h₂ => .pure ?_
  exact ⟨⟨x, rfl, hx⟩, h₂ ▸ h₁⟩

end

/-- **Using directives and declarations that are written out are read back.** -/
theorem entriesWithin_reads (depth : Nat) : ReadsEntries source (entriesWithin depth) depth := by
  induction depth with
  | zero => exact fun _ _ _ _ _ _ hn => absurd hn (Nat.not_lt_zero _)
  | succ depth ih =>
    intro es s rest braced hes hr hn hs
    have hsafe (s' : ParserState) (braced : Bool) (h' : s'.after.length < depth) :=
      (@entriesWithin_safe source s' depth braced h').mono fun _ _ hes => hes.1
    -- the entries that were read, and those ahead
    refine .loop (I := fun xs s' => ∃ done ahead, es = done ++ ahead ∧ erase xs = erase done ∧
      s'.after.length ≤ depth ∧ s'.Shows (ahead.flatMap Entry.tokens ++ rest))
      ⟨[], es, rfl, rfl, Nat.le_of_lt_succ hn, hs⟩ fun xs s' hI => ?_
    obtain ⟨done, ahead, rfl, hxs, hlen, hs'⟩ := hI
    obtain ⟨-, hahead⟩ := List.forall_mem_append.1 hes
    cases ahead with
    | nil =>
      have hs' : s'.Shows rest := hs'
      refine .get fun hg => ?_
      have hend : (s'.isAtEof || (braced && s'.isAtMark .rightBrace)) = true := by
        cases braced with
        | true =>
          obtain ⟨more, rfl⟩ := hr
          simp [isAtMark, isAt, hs'.peek_kind, markToken]
        | false =>
          obtain rfl : rest = [] := hr
          simp [isAtEof, isAt, hs'.peek_eof hg]
      rw [if_pos hend]
      exact .pure ⟨by simp [hxs], hs'⟩
    | cons e ahead =>
      obtain ⟨he, hahead⟩ := List.forall_mem_cons.1 hahead
      have hs' : s'.Shows (e.tokens ++ (ahead.flatMap Entry.tokens ++ rest)) := by
        simpa using hs'
      refine (entryStep_reads ih hsafe he hlen (noSemicolon_entries hahead hr) hs').mono
        fun r s₁ h₁ => ?_
      obtain ⟨⟨x, rfl, hx⟩, h₁⟩ := h₁
      have hpos : 0 < e.tokens.length := by
        obtain ⟨u, us, hu, -⟩ := Entry.IsPrintable.tokens_begin he
        simp [hu]
      have hlt : s₁.after.length < s'.after.length := by
        rw [h₁.length_after, hs'.length_after, @List.length_append _ e.tokens]
        omega
      exact ⟨⟨done ++ [e], ahead, by simp, by simp [hxs, hx], by omega, h₁⟩, hlt⟩

/-- **A text that is written out is read back.** -/
theorem sourceUnit_reads {u : SourceUnit} (hu : u.IsPrintable) (hs : s.Shows u.tokens) :
    Reader.Accepts source s sourceUnit fun x _ => erase x = erase u := by
  obtain ⟨usings, attributes, members, span⟩ := u
  obtain ⟨husings, hattributes, hmembers⟩ := hu
  obtain rfl : attributes = [] := hattributes
  have hs : s.Shows ((usings.map Entry.using_ ++ members.map Entry.declaration).flatMap
      Entry.tokens ++ []) := by
    rw [List.append_nil, List.flatMap_append, List.flatMap_map, List.flatMap_map]
    exact hs
  refine .get fun _ => rounds_accepts.bind fun n s₁ h₁ => ?_
  obtain ⟨rfl, rfl⟩ := h₁
  refine (entriesWithin_reads _ _ s₁ [] false ?_ rfl (Nat.lt_succ_self _) hs).bind
    fun es s₂ h₂ => .get fun _ => .pure ?_
  · intro e he
    rcases List.mem_append.1 he with he | he
    · obtain ⟨u, hu, rfl⟩ := List.mem_map.1 he
      exact husings u hu
    · obtain ⟨d, hd, rfl⟩ := List.mem_map.1 he
      exact hmembers d hd
  · obtain ⟨hus, hattrs, hds⟩ := entries_of_erase h₂.1
    simp [hus, hattrs, hds]

end Parser

end CommandModules

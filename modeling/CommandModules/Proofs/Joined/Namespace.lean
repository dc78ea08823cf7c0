/-
  Command modules — a text inside a namespace.

  * `IsNamespaceLine`, `IsClosingLine`: the lines around a text that put it in a namespace, however
    they are laid out;
  * `IsComplete`, `IsBody`: the text holds using directives and declarations; `IsComplete.ends`: so
    its last token ends one of them;
  * `LeadsTo.eq_below`: behind the first line a parser is where it is before the lines below alone;
  * `entriesOf_body`: the entries of the text are read there up to the end, or to the brace;
  * `parse_namespaceText`: the whole holds one namespace, with the directives and declarations of
    the text.
-/
import CommandModules.Proofs.Joined.Finished
import CommandModules.Proofs.Joined.Tree
import CommandModules.Proofs.Registration.Spelling

namespace CommandModules

open CommandModules.Parser ParserState

variable {s s' t : ParserState} {names : List String} {isFileScoped : Bool} {line text body closing : String}

/-! ## Lines -/

/-- The line holds the word `namespace`, a dotted name and the mark behind it, with blanks and
    comments anywhere. -/
structure IsNamespaceLine (names : List String) (isFileScoped : Bool) (line : String) : Prop where
  tokens : erase (tokenize line).body = keywordToken .namespace_ ::
    (pathTokens names ++ [markToken (namespaceMark isFileScoped)])
  errors : (tokenize line).errors = []
  unmarked : line.toList.head? ≠ some '\uFEFF'
  named : ∀ w ∈ names, wordKind w = .identifier
  ne_nil : names ≠ []

/-- The line holds a closing brace, with blanks and comments around it. -/
structure IsClosingLine (line : String) : Prop where
  tokens : erase (tokenize line).body = [markToken .rightBrace]
  errors : (tokenize line).errors = []
  unmarked : line.toList.head? ≠ some '\uFEFF'

/-- The text holds using directives and declarations, without errors, and no namespace in it
    extends to its end.  Where an `extern alias` is passed over, a semicolon has to end it. -/
structure IsComplete (text : String) : Prop where
  errors : (SyntaxTree.parse 0 "" text).errors = []
  attributes : (SyntaxTree.parse 0 "" text).root.attributes = []
  blocks : ∀ x ∈ (SyntaxTree.parse 0 "" text).root.members, x.isFileScoped = false
  aliases : hasExternAlias (tokenize text).body = true →
    ∀ t ∈ (tokenize text).body.getLast?, t.kind = .punct .semicolon ∨ t.kind = .punct .rightBrace

/-- The text can stand below a line. -/
structure IsBody (text : String) : Prop extends IsComplete text where
  unmarked : text.toList.head? ≠ some '\uFEFF'

/-- The word `namespace`, a dotted name and the mark. -/
def namespaceLine (names : List String) (isFileScoped : Bool) : String :=
  let name := ".".intercalate names
  s!"namespace {name}" ++ if isFileScoped then ";" else " \x7b"

/-- What stands below the line of a namespace: the body, and a closing line if it is in braces. -/
def namespaceLines (isFileScoped : Bool) (body closing : String) : String :=
  if isFileScoped then body else body ++ "\n" ++ closing

/-- A body in a namespace. -/
def namespaceText (line : String) (isFileScoped : Bool) (body closing : String) : String :=
  line ++ "\n" ++ namespaceLines isFileScoped body closing

theorem head?_append_ne {a b : String} {c : Char} (ha : a.toList.head? ≠ some c)
    (hb : a = "" → b.toList.head? ≠ some c) : (a ++ b).toList.head? ≠ some c := by
  rw [String.toList_append, List.head?_append]
  cases h : a.toList.head? with
  | none =>
    rw [List.head?_eq_none_iff, String.toList_eq_nil_iff] at h
    exact hb h
  | some d => exact fun hd => ha (h.trans hd)

theorem isNamespaceLine_plain (h : ∀ w ∈ names, IsWord w .identifier) (hne : names ≠ [])
    (isFileScoped : Bool) : IsNamespaceLine names isFileScoped (namespaceLine names isFileScoped) := by
  obtain ⟨p, ps, rfl⟩ := List.exists_cons_of_ne_nil hne
  have hname := spells_namespace (Eq.refl (".".intercalate (p :: ps)))
    fun q hq => (h q hq).kind_eq ▸ h q hq
  have hline : Spells (namespaceLine (p :: ps) isFileScoped).toList (keywordToken .namespace_ ::
      (pathTokens (p :: ps) ++ [markToken (namespaceMark isFileScoped)])) := by
    rw [namespaceLine, String.toList_append]
    cases isFileScoped with
    | true => exact hname.append (.cons (by decide)) (.mark (m := .semicolon) rfl)
    | false => exact hname.space (.mark (m := .leftBrace) rfl)
  refine ⟨hline.tokensOf_eq, hline.tokenize_eq.2, ?_, fun w hw => (h w hw).kind_eq.symm, hne⟩
  have hbegins := hline.begins [] .nil
  rw [List.append_nil] at hbegins
  intro hhead
  obtain ⟨cs, hcs⟩ := List.head?_eq_some_iff.1 hhead
  exact (hcs ▸ hbegins).ne_mark rfl

theorem isClosingLine_plain : IsClosingLine "\x7d" := by
  constructor <;> decide +kernel

/-! ## Behind a line -/

/-- **Behind the first of two texts** a parser is where it is before the second one alone. -/
theorem ParserState.LeadsTo.eq_below {a b : String} (ha : (tokenize a).errors = [])
    (hb : (tokenize b).errors = []) (hmark : b.toList.head? ≠ some '\uFEFF')
    (h : (ofText (a ++ "\n" ++ b)).LeadsTo s') (hlen : s'.after.length = (ofText b).after.length) :
    ∃ t, s' = (ofText b).within (.below t (ofText b)) := by
  obtain ⟨⟨k, hk⟩, he⟩ := h
  rw [ofText_joined ha hb hmark] at hk he
  obtain ⟨ts, -, hafter, hbefore⟩ := hk.tokens_eq
  rw [within, Frame.distance_above, shift_zero, shift_zero] at hk he hafter hbefore
  obtain ⟨rfl, hs'⟩ := List.append_inj' hafter (by rw [Frame.above, length_shift, hlen])
  refine ⟨{ ofText a with before := (ofText a).after.reverse }, ?_⟩
  rw [within, ParserState.mk.injEq]
  refine ⟨?_, ?_, ?_, hk.eof_eq, he, hk.faults_eq⟩
  · rw [hk.source_eq]
    show (ofText a).source ++ '\n' :: (ofText b).source =
      (ofText a).source ++ ['\n'] ++ ((ofText b).source ++ [])
    rw [List.append_nil, List.append_assoc, List.singleton_append]
  · rw [hbefore]
    exact List.append_nil _
  · rw [← hs']
    exact (List.append_nil _).symm

/-! ## The entries of a body -/

namespace Parser

/-- The entries of a whole text are read to its end. -/
theorem entriesOf_after {source : List Char} (hg : s.Good source) : (entriesOf s).2.after = [] := by
  obtain ⟨k, hk, -, hall⟩ := (@entriesWithin_safe source s _ false (Nat.lt_succ_self _)) hg
  have hlen : (entriesOf s).2.after.length + k = s.after.length := hk.length_after
  rw [hall rfl] at hlen
  exact List.length_eq_zero_iff.1 (by omega)

/-- Above a closing brace the entries of a text are read up to this brace. -/
theorem entries_to_brace {w : Frame} {depth n : Nat} {es : List Entry}
    (h : (loopWithin (entryStep (entriesWithin depth) false) n []).run s = (es, s'))
    (hq : s.Quiet s') (hends : s.Ends w) (hbody : ∀ t ∈ s.after, t.kind ≠ .eof)
    (hgood : ∀ x, .declaration x ∈ es → x.isFileScoped = false)
    (hw : erase w.after = [markToken .rightBrace]) :
    (loopWithin (entryStep (entriesWithin depth) true) ((s.within w).after.length + 1) []).run
        (s.within w) = (shift w.distance es, s'.within w) ∧
      (s'.within w).Shows [markToken .rightBrace] := by
  obtain ⟨hafter, m, hm, hrun⟩ :=
    entries_below true (le_refl depth) h hq hends hbody hgood (Nat.lt_succ_self _)
  have hshows : (s'.within w).Shows [markToken .rightBrace] := by
    show erase (shift w.distance s'.after ++ w.after) = _
    rw [hafter, shift_nil, List.nil_append, hw]
  have hat : (s'.within w).isAtMark .rightBrace = true := isAtMark_iff.2 hshows.peek_kind
  obtain ⟨m, rfl⟩ : ∃ n, m = n + 1 := ⟨m - 1, by omega⟩
  refine ⟨hrun.trans ?_, hshows⟩
  rw [entries_run, hat, Bool.and_true, Bool.or_true, if_pos rfl]

end Parser

/-- **Directives and declarations end with a semicolon or a closing brace.** -/
theorem IsComplete.ends (h : IsComplete text) : ∀ t ∈ (tokenize text).body.getLast?,
    t.kind = .punct .semicolon ∨ t.kind = .punct .rightBrace := by
  cases halias : hasExternAlias (tokenize text).body with
  | true => exact h.aliases halias
  | false =>
    obtain ⟨hlex, hq⟩ := entriesOf_quiet h.errors
    have hafter := ofText_after hlex
    obtain ⟨ts, hts, hbefore⟩ := (entriesOf_onward (ofText text)).tokens_eq
    rw [entriesOf_after (ofText_good text), List.append_nil, hafter] at hts
    have hentries : ∀ e ∈ (entriesOf (ofText text)).1, e.IsFinished := by
      intro e he
      cases e with
      | using_ u => exact ⟨⟩
      | attributes a =>
        have hmem : a ∈ (SyntaxTree.parse 0 "" text).root.attributes := by
          rw [parse_root]
          exact List.mem_filterMap.2 ⟨_, he, rfl⟩
        rw [h.attributes] at hmem
        cases hmem
      | declaration d => exact h.blocks d (List.mem_filterMap.2 ⟨_, he, rfl⟩)
    have hlast : (tokenize text).body.getLast? = (entriesOf (ofText text)).2.before.head? := by
      rw [hts, hbefore, ← List.head?_reverse]
      exact congrArg List.head? (List.append_nil _).symm
    intro t ht
    rw [hlast] at ht
    rcases entries_finished (rfl : _ = ((entriesOf (ofText text)).1, (entriesOf (ofText text)).2)) hq
      (ofText_good text).eof_kind (hafter ▸ halias) hentries with hnone | ⟨u, us, hu, hk, -⟩
    · rw [hnone] at ht
      cases ht
    · rw [hu] at ht
      cases ht
      exact endsDeclaration_iff.1 hk

section
variable (h : IsBody body) (isFileScoped : Bool) (hclosing : IsClosingLine closing)
include h hclosing

theorem namespaceLines_lexed : (tokenize (namespaceLines isFileScoped body closing)).errors = [] ∧
    (namespaceLines isFileScoped body closing).toList.head? ≠ some '\uFEFF' := by
  obtain ⟨hlex, -⟩ := entriesOf_quiet h.errors
  cases isFileScoped with
  | true => exact ⟨hlex, h.unmarked⟩
  | false =>
    refine ⟨congrArg Lexed.errors (tokenize_joined hlex hclosing.errors hclosing.unmarked), ?_⟩
    refine head?_append_ne (head?_append_ne h.unmarked fun _ => by decide) fun hnil => ?_
    exact absurd (String.append_eq_empty_iff.1 hnil).2 (by decide)

/-- **The entries of a body are read** up to the end, or to the closing brace below it. -/
theorem entriesOf_body :
    let s := ofText (namespaceLines isFileScoped body closing)
    ∃ depth s', depth ≤ s.after.length ∧
      (loopWithin (entryStep (entriesWithin depth) (!isFileScoped)) (s.after.length + 1) []).run s =
        ((entriesOf (ofText body)).1, s') ∧
      s.Quiet s' ∧ s'.Shows (namespaceEnd isFileScoped) := by
  obtain ⟨hlex, hq⟩ := entriesOf_quiet h.errors
  cases isFileScoped with
  | true => exact ⟨_, _, le_refl _, rfl, hq, congrArg erase (entriesOf_after (ofText_good body))⟩
  | false =>
    have hbrace := hclosing.tokens
    rw [← ofText_after hclosing.errors] at hbrace
    have hends : (ofText body).Ends (.above (ofText body) (ofText closing)) := by
      refine ofText_ends hlex h.ends fun t ts ht hk => ?_
      rw [ht, erase_cons] at hbrace
      have := congrArg Token.kind (List.cons.inj hbrace).1
      rw [kind_erase, hk] at this
      cases this
    have hjoined : ofText (namespaceLines false body closing) =
        (ofText body).within (.above (ofText body) (ofText closing)) :=
      ofText_joined hlex hclosing.errors hclosing.unmarked
    obtain ⟨hrun, hshows⟩ := entries_to_brace (n := (ofText body).after.length + 1)
      (rfl : _ = ((entriesOf (ofText body)).1, (entriesOf (ofText body)).2)) hq hends
      (ofText_good body).ne_eof (fun x hx => h.blocks x (List.mem_filterMap.2 ⟨_, hx, rfl⟩))
      ((erase_shift_tokens _ _).trans hbrace)
    rw [Frame.distance_above, shift_zero] at hrun
    dsimp only
    rw [hjoined]
    refine ⟨_, _, ?_, hrun, hq, hshows⟩
    rw [length_after_within]
    omega

/-- **Behind the line of a namespace its body is read.** -/
theorem entriesWithin_body {source : List Char} {depth : Nat}
    (hlen : (ofText (namespaceLines isFileScoped body closing)).after.length < depth)
    (t : ParserState) :
    let s := ofText (namespaceLines isFileScoped body closing)
    Reader.Accepts source (s.within (.below t s)) (entriesWithin depth (!isFileScoped)) fun es s' =>
      (∃ d, es = shift d (entriesOf (ofText body)).1) ∧ s'.Shows (namespaceEnd isFileScoped) := by
  obtain ⟨depth', s', hdepth, hrun, hq, hshows⟩ := entriesOf_body h isFileScoped hclosing
  intro s
  have ho := entries_onward hrun
  have hafter : (s.within (.below t s)).after.length = s.after.length := by
    rw [length_after_within]
    rfl
  obtain ⟨depth, rfl⟩ : ∃ n, depth = n + 1 := ⟨depth - 1, by omega⟩
  have hwithin : (entriesWithin (depth + 1) (!isFileScoped)).run (s.within (.below t s)) = _ :=
    entries_within (hdepth.trans (Nat.le_of_lt_succ hlen)) (by rw [hafter]) hrun hq
      (.ended rfl (ho.eof_eq ▸ rfl) (ho.eof_eq ▸ (ofText_good _).eof_kind))
  refine .of_safe (S := fun _ _ => True) ((entriesWithin_safe (hafter ▸ hlen)).mono fun _ _ _ => ⟨⟩)
    fun _ => ?_
  rw [hwithin]
  refine ⟨hq.1, ⟨_, rfl⟩, ?_⟩
  show erase (shift _ s'.after ++ []) = _
  rw [List.append_nil, erase_shift_tokens]
  exact hshows

end

/-! ## Texts -/

/-- The namespace has this name and holds what the text holds, in another place. -/
structure NamespaceDeclaration.HoldsBody (n : NamespaceDeclaration) (names : List String)
    (isFileScoped : Bool) (body : String) : Prop where
  name : segmentNames n.name.segments = names
  isFileScoped : n.isFileScoped = isFileScoped
  content : ∃ d, n.usings = Shift.shift d (SyntaxTree.parse 0 "" body).root.usings ∧
    n.members = Shift.shift d (SyntaxTree.parse 0 "" body).root.members

/-- **A body in a namespace is read as it is read alone**, in braces or without: the text holds one
    namespace, and this one the directives and declarations of the body. -/
theorem parse_namespaceText (hline : IsNamespaceLine names isFileScoped line) (h : IsBody body)
    (hclosing : IsClosingLine closing) (id : Nat) (path : String) :
    let tree := SyntaxTree.parse id path (namespaceText line isFileScoped body closing)
    tree.errors = [] ∧ tree.root.attributes = [] ∧ tree.root.Holds fun d =>
      ∃ n, d = .namespace_ n ∧ n.HoldsBody names isFileScoped body := by
  obtain ⟨hlex, hmark⟩ := namespaceLines_lexed h isFileScoped hclosing
  obtain ⟨p, ps, rfl⟩ := List.exists_cons_of_ne_nil hline.ne_nil
  generalize htext : namespaceText line isFileScoped body closing = text
  have hs : (ofText text).Shows (keywordToken .namespace_ :: (pathTokens (p :: ps) ++
      markToken (namespaceMark isFileScoped) ::
        erase (ofText (namespaceLines isFileScoped body closing)).after)) := by
    have htokens := hline.tokens
    rw [← ofText_after hline.errors] at htokens
    rw [← htext, namespaceText, ofText_joined hline.errors hlex hmark, Shows]
    show erase (shift .zero (ofText _).after ++ shift _ (ofText _).after) = _
    rw [shift_zero, erase_append, erase_shift_tokens, htokens]
    simp
  have hentries (s' : ParserState) (hr : (ofText text).LeadsTo s')
      (hs' : s'.Shows (erase (ofText (namespaceLines isFileScoped body closing)).after)) :
      Reader.Accepts text.toList s' (entriesWithin (ofText text).after.length (!isFileScoped))
        fun es s'' => (∃ d, es = shift d (entriesOf (ofText body)).1) ∧
          s''.Shows (namespaceEnd isFileScoped) := by
    rw [← htext] at hr
    obtain ⟨t, rfl⟩ := hr.eq_below hline.errors hlex hmark (by rw [hs'.length_after, length_erase])
    refine entriesWithin_body h isFileScoped hclosing ?_ t
    have := hs.length_after
    simp only [List.length_cons, List.length_append, length_erase] at this
    omega
  have hnone : Entry.globalAttributes (entriesOf (ofText body)).1 = [] := by
    have hattributes := h.attributes
    rwa [parse_root] at hattributes
  have hlexed : (tokenize text).errors = [] :=
    htext ▸ congrArg Lexed.errors (tokenize_joined hline.errors hlex hmark)
  obtain ⟨herrors, hroot⟩ := parse_passes_of id path hlexed
    (sourceUnit_namespace isFileScoped hline.named hs hentries fun es hes => by
      obtain ⟨d, rfl⟩ := hes
      rw [globalAttributes_shift, hnone, shift_nil])
  obtain ⟨hattributes, husings, _, hmembers, n, rfl, hname, hscoped, _, ⟨d, rfl⟩, hus, hms⟩ := hroot ⟨⟩
  refine ⟨herrors.2 ⟨⟩, hattributes, husings, _, hmembers, n, rfl, hname, hscoped, d, ?_, ?_⟩
  · rw [hus, usings_shift, parse_root]
  · rw [hms, declarations_shift, parse_root]

/-- **A body in a namespace with braces is a body again.** -/
theorem IsBody.in_braces (h : IsBody body) (hline : IsNamespaceLine names false line)
    (hclosing : IsClosingLine closing) : IsBody (namespaceText line false body closing) := by
  obtain ⟨herrors, hattributes, -, _, hmembers, n, rfl, hn⟩ :=
    parse_namespaceText hline h hclosing 0 ""
  obtain ⟨hlex, hmark⟩ := namespaceLines_lexed h false hclosing
  refine ⟨⟨herrors, hattributes, ?_, fun _ => ?_⟩, ?_⟩
  · rw [hmembers]
    exact List.forall_mem_singleton.2 hn.isFileScoped
  · obtain ⟨t, hbrace, hkind⟩ : ∃ t, (tokenize closing).body = [t] ∧ t.kind = .punct .rightBrace := by
      obtain ⟨t, ht, htoken⟩ := List.map_eq_singleton_iff.1 hclosing.tokens
      exact ⟨t, ht, (kind_erase t).symm.trans (congrArg Token.kind htoken)⟩
    have hbody := tokenize_joined (entriesOf_quiet h.errors).1 hclosing.errors hclosing.unmarked
    have hall : tokenize (namespaceText line false body closing) = _ :=
      tokenize_joined hline.errors hlex hmark
    have hlast : (tokenize (namespaceText line false body closing)).body.getLast? =
        some (shift (.over (line.toList ++ ['\n'])) (shift (.over (body.toList ++ ['\n'])) t)) := by
      rw [hall, namespaceLines, if_neg Bool.false_ne_true, hbody, hbrace]
      simp [shift_append]
    rw [hlast]
    rintro _ ⟨⟩
    exact .inr hkind
  · refine head?_append_ne (head?_append_ne hline.unmarked fun _ => by decide) fun hnil => ?_
    exact absurd (String.append_eq_empty_iff.1 hnil).2 (by decide)

end CommandModules

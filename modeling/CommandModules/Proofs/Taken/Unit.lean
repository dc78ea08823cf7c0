/-
  Command modules — what is known of a text that was read without an error.

  * `Declaration.IsWritten`: every type in the declaration is written;
  * `ofText_spelt`: each stretch of the tokens of a text without errors is spelled by the
    text that it is cut from;
  * `nodes_isWritten`: every type that is met on a walk through such a text is written,
    and so are its methods.
-/
import CommandModules.Proofs.Syntax.Walk
import CommandModules.Proofs.Taken.Member

namespace CommandModules

open ParserState

variable {source : List Char} {s : ParserState}

/-- The types in the declaration are written. -/
inductive Declaration.IsWritten : Declaration → Prop
  | namespace_ {n : NamespaceDeclaration} : (∀ d ∈ n.members, d.IsWritten) →
      IsWritten (.namespace_ n)
  | type {t : TypeDeclaration} : (Member.type t).IsWritten → IsWritten (.type t)
  | delegate (d : Delegate) : IsWritten (.delegate d)

/-- Nothing is declared in a member without members. -/
theorem Member.IsLeaf.declared_eq {m : Member} (h : m.IsLeaf) : m.declared = [] := by
  cases m with
  | type t => exact absurd rfl (h.not_type t)
  | delegate d => exact absurd rfl (h.not_delegate d)
  | _ => rfl

namespace Parser

/-! ## Types -/

/-- The word `class` stands where a class is declared. -/
theorem typeKind_gives : Reader.Gives source s typeKind fun kind _ _ =>
    kind = .class_ → s.peek.kind = .keyword .class_ := by
  have advance_value : Reader.Gives source s advance fun t _ _ => t = s.peek :=
    fun hs hsp => (advance_takes_most hs hsp).imp fun _ h => ⟨h.1, fun _ => rfl⟩
  refine advance_value.bind fun t _ _ _ => ?_
  split
  case h_1 hk => exact .pure fun ht _ => ht ▸ hk
  case h_5 =>
    refine .pass eatWord_safe fun _ _ _ _ => ?_
    split
    · exact .pure fun _ => nofun
    · exact .pass eatWord_passes.discard fun _ _ _ _ => .pure fun _ => nofun
  all_goals exact .pure fun _ => nofun

theorem enumMemberAfter_gives {ms : List Member} :
    Reader.Gives source s (enumMemberAfter ms) fun r ts s' => (∀ m ∈ ms, m.IsLeaf) →
      r.Leads (fun ms _ _ => ∀ m ∈ ms, m.IsLeaf) (fun ms _ _ => ∀ m ∈ ms, m.IsLeaf) ts s' := by
  have snoc {m : EnumMember} (h : ∀ m ∈ ms, m.IsLeaf) : ∀ x ∈ ms ++ [.enumMember m], x.IsLeaf :=
    List.forall_mem_append.2 ⟨h, List.forall_mem_singleton.2 ⟨nofun, nofun, nofun⟩⟩
  refine .get fun _ _ => ?_
  split
  · refine .pass (orRecover_safe enumMember_safe) fun m? _ _ _ => ?_
    cases m? with
    | some m =>
      refine .pass eatMark_safe fun _ _ _ _ => ?_
      split <;> exact .pure snoc
    | none => exact .pure fun h => h
  · exact .pure fun h => h

theorem enumMembers_gives : Reader.Gives source s enumMembers fun ms _ _ =>
    ∀ m ∈ ms, m.IsLeaf :=
  .loop (I := fun ms _ _ => ∀ m ∈ ms, m.IsLeaf) (fun _ _ _ _ => enumMemberAfter_safe.mono fun _ _ h => h.1)
    (by simp)
    fun _ _ _ _ => enumMemberAfter_gives.mono fun r _ _ hr hms => by cases r <;> exact hr hms

section
variable {members : Reader (List Member)} {n : Nat}
  (hs : ∀ s', s'.after.length < n →
    Reader.Safe source s' members fun ms _ => Member.AllWorded ms)
  (h : ∀ s', s'.after.length < n → Reader.Gives source s' members fun ms _ _ =>
    ∀ m ∈ ms, m.IsWritten)
include h

theorem typeBody_gives (hn : s.after.length ≤ n) :
    Parser.Gives source s (typeBody members) fun ms _ _ => ∀ m ∈ ms, m.IsWritten := by
  refine .passReader eatMark_safe fun _ _ s₁ h₁ => ?_
  split
  · exact .pure (by simp)
  refine .bind_safe expectMark_safe.discard expectMark_gives.discard fun _ us s₂ h₂ hpos => ?_
  have := h₁.moves.length_after
  have := h₂.moves.length_after
  refine .andThen (h s₂ (by omega)) fun _ _ _ _ => .passReader expectClosing_safe fun _ _ _ _ => ?_
  exact .pass (Parser.Safe.lift eatMark_passes).discard fun _ _ _ _ => .pure fun hm _ => hm

theorem typeWithMembers_gives {head : Head} (hn : s.after.length ≤ n) :
    Parser.Gives source s (typeWithMembers members head) fun t _ _ =>
      (∃ ts, head.modifiers.Written ts s.peek) → (Member.type t).IsWritten := by
  refine .andThen typeKind_gives fun kind _ _ h₁ => ident_gives.bind fun name _ _ h₂ => ?_
  refine typeParameters_gives.bind fun _ _ _ h₃ => .get fun _ _ => ?_
  refine .join (R := fun _ _ _ => True) (fun _ => .map ((Parser.Gives.of_safe parameters_safe).mono
    fun _ _ _ _ => ⟨⟩)) (fun _ => .pure ⟨⟩) fun _ _ _ h₄ => ?_
  refine .pass baseTypes_safe fun _ _ _ h₅ => .pass constraintClauses_safe fun _ _ _ h₆ => ?_
  have hlen := (h₁.trans <| h₂.trans <| h₃.trans <| h₄.trans <| h₅.trans h₆).moves.length_after
  refine (typeBody_gives (n := n) (fun s' hs' => ?_) (by omega)).bind fun _ _ _ _ => .get fun _ _ => ?_
  · split
    · exact enumMembers_gives.mono fun _ _ _ hm m hmem => (hm m hmem).isWritten
    · exact h s' hs'
  · refine .pure fun hm _ hp hi hk hw => .type ⟨fun hc => ?_, hi.1, hp⟩ hm
    obtain ⟨ts, hts⟩ := hw
    exact ⟨ts, s.peek, hk hc, hts⟩

theorem memberWith_gives (hn : s.after.length ≤ n) :
    Parser.Gives source s (memberWith members) fun m? _ _ => ∀ m, m? = some m → m.IsWritten := by
  refine .passReader eatMark_safe fun _ _ _ h₁ => ?_
  split
  · exact .pure nofun
  refine head_gives.bind fun _ _ _ h₂ => .get fun _ _ => ?_
  have hlen := (h₁.trans h₂).moves.length_after
  rw [List.length_append] at hlen
  split
  · refine (typeWithMembers_gives h (by omega)).bind fun _ _ _ _ => .pure fun ht hh m hm => ?_
    exact Option.some_inj.1 hm ▸ ht hh.2
  · refine memberAfter_gives.bind fun _ _ _ _ => .pure fun hm' hh m hm => ?_
    exact Option.some_inj.1 hm ▸ hm' hh.1

include hs

theorem memberStep_gives {ms : List Member} (hn : s.after.length ≤ n) :
    Reader.Gives source s (memberStep members ms) fun r ts s' => (∀ m ∈ ms, m.IsWritten) →
      r.Leads (fun ms _ _ => ∀ m ∈ ms, m.IsWritten) (fun ms _ _ => ∀ m ∈ ms, m.IsWritten) ts s' := by
  refine .get fun _ _ => ?_
  split
  · refine (orRecover_gives (memberWith_safe hs hn) (memberWith_gives h hn)).bind fun m? _ _ _ => ?_
    refine .pass moveOn_safe fun _ _ _ _ => .pure fun hm hms => List.forall_mem_append.2 ⟨hms, ?_⟩
    intro m hmem
    obtain ⟨x?, hx⟩ : ∃ x?, m? = some x? := by
      cases m? with
      | none => simp at hmem
      | some x? => exact ⟨x?, rfl⟩
    exact hm x? hx m (by simpa [hx] using hmem)
  · exact .pure fun h => h

end

theorem membersWithin_gives {depth : Nat} (h : s.after.length < depth) :
    Reader.Gives source s (membersWithin depth) fun ms _ _ => ∀ m ∈ ms, m.IsWritten := by
  induction depth generalizing s with
  | zero => omega
  | succ depth ih =>
    have hs (s' : ParserState) (h' : s'.after.length < depth) :
        Reader.Safe source s' (membersWithin depth) fun ms _ => Member.AllWorded ms :=
      membersWithin_safe h'
    refine .loop (I := fun ms _ _ => ∀ m ∈ ms, m.IsWritten) (fun _ _ s' h' => ?_) (by simp)
      fun _ _ s' h' => ?_
    · have := h'.length_after
      exact memberStep_consumes hs (by omega)
    · have := h'.moves.length_after
      refine (memberStep_gives hs (fun _ => ih) (by omega)).mono fun r _ _ hr hms => ?_
      cases r <;> exact hr hms

theorem typeDeclaration_gives {head : Head} :
    Parser.Gives source s (typeDeclaration head) fun t _ _ =>
      (∃ ts, head.modifiers.Written ts s.peek) → (Member.type t).IsWritten := by
  refine typeWithMembers_gives (fun s' _ => ?_) (Nat.le_refl s.after.length)
  refine .bind_safe rounds_safe rounds_gives fun _ _ s₁ h₁ hr => ?_
  obtain ⟨hr, rfl⟩ := hr
  have := h₁.moves.length_after
  exact (membersWithin_gives (by omega)).mono fun _ _ _ hm _ => hm

/-! ## Namespaces -/

/-- The declarations among the entries are written. -/
def Entry.AllWritten (es : List Entry) : Prop :=
  ∀ d ∈ Entry.declarations es, d.IsWritten

theorem Entry.AllWritten.append {es fs : List Entry} (h : AllWritten es) (h' : AllWritten fs) :
    AllWritten (es ++ fs) := by
  rw [AllWritten, declarations, List.filterMap_append]
  exact List.forall_mem_append.2 ⟨h, h'⟩

section
variable {nested : Bool → Reader (List Entry)} {n : Nat}
  (hs : ∀ s' braced, s'.after.length < n →
    Reader.Safe source s' (nested braced) fun es _ => Entry.AllSound source es)
  (h : ∀ s' braced, s'.after.length < n →
    Reader.Gives source s' (nested braced) fun es _ _ => Entry.AllWritten es)
include hs h

omit hs in
theorem namespaceEntries_gives {isFileScoped : Bool} (hn : s.after.length < n) :
    Parser.Gives source s (namespaceEntries nested isFileScoped) fun es _ _ =>
      Entry.AllWritten es := by
  refine .ite (fun _ => .lift (h s false hn)) fun _ => ?_
  refine .pass expectMark_safe.discard fun _ _ s₁ h₁ => ?_
  have hlen := h₁.moves.length_after
  refine .andThen (h s₁ true (by omega)) fun _ _ _ _ => .passReader expectClosing_safe fun _ _ _ _ => ?_
  exact .pass (Parser.Safe.lift eatMark_passes).discard fun _ _ _ _ => .pure fun hes => hes

theorem namespaceWith_gives {start : Span} (hn : s.after.length ≤ n) :
    Parser.Gives source s (namespaceWith nested start) fun n _ _ =>
      (Declaration.namespace_ n).IsWritten := by
  refine .bind_safe expectWord_safe.discard (.of_safe expectWord_safe.discard)
    fun _ _ _ h₁ hpos => ?_
  refine .pass name_safe fun _ _ _ h₂ => .passReader eatMark_safe fun _ _ s₃ h₃ => ?_
  have hlen := (h₁.trans <| h₂.trans h₃).moves.length_after
  rw [List.length_append] at hlen
  refine .bind_safe (namespaceEntries_safe hs (by omega)) (namespaceEntries_gives h (by omega))
    fun es _ _ _ hes => ?_
  dsimp only
  split
  · refine .passReader (report_safe (hes.globalAttributes ‹_›)) fun _ _ _ _ => ?_
    exact .get fun _ _ => .pure fun h _ => .namespace_ h
  · exact .get fun _ _ => .pure fun h _ => .namespace_ h

theorem declarationWith_gives (hn : s.after.length ≤ n) :
    Parser.Gives source s (declarationWith nested) fun d _ _ => d.IsWritten := by
  refine head_gives.bind fun _ _ s₁ h₁ => .get fun _ _ => ?_
  have hlen := h₁.moves.length_after
  split
  · exact (namespaceWith_gives hs h (by omega)).bind fun _ _ _ _ => .pure fun hd _ => hd
  split
  · exact .pass delegate_safe fun _ _ _ _ => .pure fun _ => .delegate _
  split
  · exact typeDeclaration_gives.bind fun _ _ _ _ => .pure fun ht hh => .type (ht hh.2)
  · exact failAt_gives

theorem entryWith_gives (hn : s.after.length ≤ n) :
    Reader.Gives source s (entryWith nested) fun e? _ _ => Entry.AllWritten e?.toList := by
  have none_written : Entry.AllWritten (none : Option Entry).toList := by
    simp [Entry.AllWritten, Entry.declarations]
  have other {α : Type} {p : Parser α} {R : α → Nat → Prop} (f : α → Entry)
      (hp : Parser.Safe source s p R) (hf : ∀ a d, f a ≠ .declaration d) :
      Reader.Gives source s (orRecover (f <$> p)) fun e? _ _ => Entry.AllWritten e?.toList := by
    refine (orRecover_gives (R := fun _ _ => True) (.map (hp.mono fun _ _ _ => ⟨⟩))
      (Q := fun e _ _ => ∀ d, e ≠ .declaration d) (.map ((Parser.Gives.of_safe hp).mono
        fun a _ _ _ => hf a))).mono fun e? _ _ he d hd => ?_
    obtain ⟨e, hmem, hed⟩ := List.mem_filterMap.1 hd
    cases e with
    | declaration d => exact absurd rfl (he _ (Option.mem_toList.1 hmem) d)
    | using_ | attributes => cases hed
  refine .get fun _ _ => ?_
  split
  · refine .bind_safe advance_safe (.of_safe advance_safe) fun _ _ _ _ ht => ?_
    exact .pass (report_safe ht.1) fun _ _ _ _ => .pure fun _ => none_written
  split
  · exact .pass synchronize_safe fun _ _ _ _ => .pure none_written
  split
  · exact other _ using_safe nofun
  split
  · exact other _ attributeSection_safe nofun
  · refine (orRecover_gives (R := fun _ _ => True)
      (.map ((declarationWith_safe hs hn).mono fun _ _ _ => ⟨⟩))
      (Q := fun e _ _ => ∀ d, e = .declaration d → d.IsWritten) (.map ((declarationWith_gives hs h hn).mono
        fun a _ _ ha d hd => Entry.declaration.inj hd ▸ ha))).mono fun e? _ _ he d hd => ?_
    obtain ⟨e, hmem, hed⟩ := List.mem_filterMap.1 hd
    cases e with
    | declaration d =>
      cases hed
      exact he _ (Option.mem_toList.1 hmem) _ rfl
    | using_ | attributes => cases hed

theorem entryStep_gives {braced : Bool} {es : List Entry} (hn : s.after.length ≤ n) :
    Reader.Gives source s (entryStep nested braced es) fun r ts s' => Entry.AllWritten es →
      r.Leads (fun es _ _ => Entry.AllWritten es) (fun es _ _ => Entry.AllWritten es) ts s' := by
  refine .get fun _ _ => ?_
  split
  · exact .pure fun h => h
  · refine (entryWith_gives hs h hn).bind fun _ _ _ _ => .pass moveOn_safe fun _ _ _ _ => ?_
    exact .pure fun he hes => hes.append he

end

theorem entriesWithin_gives {depth : Nat} {braced : Bool} (h : s.after.length < depth) :
    Reader.Gives source s (entriesWithin depth braced) fun es _ _ => Entry.AllWritten es := by
  induction depth generalizing s braced with
  | zero => omega
  | succ depth ih =>
    have hs (s' : ParserState) (braced : Bool) (h' : s'.after.length < depth) :=
      (@entriesWithin_safe source s' depth braced h').mono fun _ _ hes => hes.1
    refine .loop (I := fun es _ _ => Entry.AllWritten es) (fun es k s' h' => ?_)
      (by simp [Entry.AllWritten, Entry.declarations]) fun _ _ s' h' => ?_
    · have := h'.length_after
      exact (entryStep_safe hs (.refl s') (by omega)).mono fun _ _ hr => hr.1
    · have := h'.moves.length_after
      refine (entryStep_gives hs (fun _ _ => ih) (by omega)).mono fun r _ _ hr hes => ?_
      cases r <;> exact hr hes

/-- The types of a text that was read without an error are written. -/
theorem sourceUnit_gives : Reader.Gives source s sourceUnit fun u _ _ =>
    ∀ d ∈ u.members, d.IsWritten := by
  refine .get fun _ _ => .bind_safe rounds_safe rounds_gives fun _ _ s₁ h₁ hr => ?_
  obtain ⟨hr, rfl⟩ := hr
  have := h₁.moves.length_after
  refine (entriesWithin_gives (by omega)).bind fun _ _ _ _ => .get fun _ _ => ?_
  exact .pure fun hes _ => hes

end Parser

/-! ## Whole texts -/

/-- Nothing of a text without errors is left out. -/
theorem ofText_after {text : String} (h : (tokenize text).errors = []) :
    (ofText text).after = (tokenize text).body := by
  exact List.filter_eq_self.2 fun t ht => by simpa using tokenize_ne_error h t ht

/-- **Each stretch of the tokens of a text without errors is spelled by the text** that it
    is cut from. -/
theorem ofText_spelt {text : String} (h : (tokenize text).errors = []) :
    (ofText text).Spelt := by
  intro as bs cs t u htokens ht hu
  have hbody : (tokenize text).body = as ++ (bs ++ cs) := by
    rw [← htokens, ofText_after h]
    rfl
  exact spells_between hbody (fun v hv => tokenize_ne_error h v (by rw [hbody]; simp [hv])) ht hu

/-- The declarations of a text that was read without an error are written. -/
theorem parse_isWritten {id : Nat} {path text : String}
    (h : (SyntaxTree.parse id path text).errors = []) :
    ∀ d ∈ (SyntaxTree.parse id path text).root.members, d.IsWritten := by
  obtain ⟨hl, he⟩ := List.append_eq_nil_iff.1 h
  obtain ⟨_, -, hd⟩ := Parser.sourceUnit_gives (ofText_good text)
    (ofText_spelt (List.map_eq_nil_iff.1 hl))
  exact hd he

/-! ## Walks -/

/-- If the node is a declaration, then the types in it are written. -/
def Node.IsWritten : Node → Prop
  | .unit u => ∀ d ∈ u.members, d.IsWritten
  | .namespace_ n => ∀ d ∈ n.members, d.IsWritten
  | .type t => (Member.type t).IsWritten
  | _ => True

theorem Declaration.IsWritten.node {d : Declaration} (h : d.IsWritten) :
    (Node.ofDeclaration d).IsWritten := by
  cases h with
  | namespace_ h => exact h
  | type h => exact h
  | delegate => exact ⟨⟩

theorem Member.IsWritten.node {m : Member} (h : m.IsWritten) : (Node.ofMember m).IsWritten := by
  cases m with
  | type t => exact h
  | _ => exact ⟨⟩

theorem Node.IsWritten.children {n : Node} (h : n.IsWritten) : ∀ m ∈ n.children, m.IsWritten := by
  intro m hm
  cases n with
  | unit u =>
    simp only [Node.children, List.mem_append, List.mem_map] at hm
    obtain (⟨_, -, rfl⟩ | ⟨_, -, rfl⟩) | ⟨d, hd, rfl⟩ := hm
    exacts [⟨⟩, ⟨⟩, (h d hd).node]
  | namespace_ n =>
    simp only [Node.children, List.mem_append, List.mem_map] at hm
    obtain ⟨_, -, rfl⟩ | ⟨d, hd, rfl⟩ := hm
    exacts [⟨⟩, (h d hd).node]
  | type t =>
    simp only [Node.children, List.mem_append, List.mem_map] at hm
    cases h with
    | type _ hmembers =>
      obtain ((((⟨_, -, rfl⟩ | ⟨_, -, rfl⟩) | ⟨_, -, rfl⟩) | ⟨_, -, rfl⟩) | ⟨_, -, rfl⟩) |
        ⟨x, hx, rfl⟩ := hm
      exacts [⟨⟩, ⟨⟩, ⟨⟩, ⟨⟩, ⟨⟩, (hmembers x hx).node]
    | other h => exact absurd rfl (h t)
  | _ =>
    -- nothing else has a declaration right below it
    cases m with
    | unit | namespace_ | type => simp [Node.children] at hm
    | _ => exact ⟨⟩

/-- **Every type that is met on a walk through a text without errors is written**, and so
    are its methods. -/
theorem nodes_isWritten {id : Nat} {path text : String}
    (h : (SyntaxTree.parse id path text).errors = []) {t : TypeDeclaration}
    (ht : Node.type t ∈ (SyntaxTree.parse id path text).nodes) :
    t.IsWritten ∧ ∀ m ∈ t.methods, m.IsWritten :=
  (SyntaxTree.nodes_forall (fun _ h => Node.IsWritten.children h) (parse_isWritten h) _ ht).methods

end CommandModules

/-
  Command modules — where the nodes of a tree stand.

  Entries of a unit or a namespace stand in the order in which they were read, whatever their
  kinds; a node holds them kind by kind, each kind in that order.

  * `membersWithin_locates`, `entriesWithin_locates`: the members of a type and the entries of a
    namespace stand in turn, at any depth;
  * `SyntaxTree.nodes_stand`: every node of a tree stands somewhere among the tokens of the text.
-/
import CommandModules.Proofs.Located.Member
import CommandModules.Proofs.Safe.Unit

namespace CommandModules

namespace Parser

open ParserState

/-! ## Entries -/

/-- The node of an entry. -/
def Entry.node : Entry → Node
  | .using_ u => .using_ u
  | .attributes a => .attributeSection a
  | .declaration d => .ofDeclaration d

/-- The entries of one kind are among all of them, in their order. -/
theorem Entry.usings_sublist (es : List Entry) :
    ((Entry.usings es).map Node.using_).Sublist (es.map Entry.node) := by
  induction es with
  | nil => exact .slnil
  | cons e es ih =>
    cases e with
    | using_ u => exact ih.cons_cons _
    | attributes | declaration => exact ih.cons _

theorem Entry.globalAttributes_sublist (es : List Entry) :
    ((Entry.globalAttributes es).map Node.attributeSection).Sublist (es.map Entry.node) := by
  induction es with
  | nil => exact .slnil
  | cons e es ih =>
    cases e with
    | attributes a => exact ih.cons_cons _
    | using_ | declaration => exact ih.cons _

theorem Entry.declarations_sublist (es : List Entry) :
    ((Entry.declarations es).map Node.ofDeclaration).Sublist (es.map Entry.node) := by
  induction es with
  | nil => exact .slnil
  | cons e es ih =>
    cases e with
    | declaration d => exact ih.cons_cons _
    | using_ | attributes => exact ih.cons _

variable {source : List Char} {ts : List Token} {s : ParserState}

/-! ## Types -/

/-- A base ends where its type does, before the arguments that may follow it. -/
theorem baseType_locates :
    Parser.Locates source ts s baseType fun t j =>
      ∃ b, b ≤ j + 0 ∧ Node.Stands source ts s.place b (.typeReference t) := by
  refine type_locates.bind fun t _ s₁ h₁ ht => .get fun _ _ => ?_
  refine .after (K := fun _ => True) (fun _ => .lift (skipGroup_safe.mono fun _ _ _ => ⟨⟩))
    fun _ s₂ h₂ => .pure ⟨s₁.place, h₂.place_le, ht.node⟩

theorem baseTypes_locates :
    Parser.Locates source ts s baseTypes fun bs j =>
      InTurn (Node.Stands source ts) s.place j (bs.map .typeReference) := by
  refine .passReader eatMark_safe fun _ _ s₁ h₁ _ => .ite (fun _ => ?_) fun _ => .pure (.nil h₁.place_le)
  exact (commaSeparated_locates (P := fun a b x => Node.Stands source ts a b (.typeReference x))
    (fun _ _ _ => baseType_safe) fun _ _ _ => baseType_locates).mono
    fun _ _ h => (h.widen h₁.place_le (Nat.le_refl _)).map

/-- The members stand in turn. -/
def MembersStand (source : List Char) (ts : List Token) (i j : Nat) (ms : List Member) : Prop :=
  InTurn (fun a b m => Node.Stands source ts a b (.ofMember m)) i j ms

theorem enumMemberAfter_locates {ms : List Member} {i : Nat} (hms : MembersStand source ts i s.place ms) :
    Reader.Locates source ts s (enumMemberAfter ms)
      (Round.Located (fun ms j => MembersStand source ts i j ms) fun ms j =>
        MembersStand source ts i j ms) := by
  refine .get fun _ _ => .ite (fun _ => ?_) fun _ => .pure hms
  refine (orRecover_locates enumMember_safe enumMember_locates).bind fun m? _ s₁ h₁ hm => ?_
  cases m? with
  | some m =>
    have hall : MembersStand source ts i s₁.place (ms ++ [.enumMember m]) :=
      hms.append (.one (Nat.le_refl _) (hm m rfl) (Nat.le_refl _))
    refine .pass eatMark_safe fun _ _ s₂ h₂ _ => ?_
    have hall := hall.widen (Nat.le_refl i) h₂.place_le
    exact .ite (fun _ => .pure hall) fun _ => .pure hall
  | none => exact .pure (hms.widen (Nat.le_refl _) h₁.place_le)

theorem enumMembers_locates :
    Reader.Locates source ts s enumMembers fun ms j => MembersStand source ts s.place j ms :=
  .loop (fun _ _ _ _ _ => enumMemberAfter_safe.mono fun _ _ hr => hr.1) (.nil (Nat.le_refl _))
    fun _ _ _ _ hms => enumMemberAfter_locates hms

section
variable {members : Reader (List Member)} {n : Nat}
  (h : ∀ s', s'.after.length < n →
    Reader.Locates source ts s' members fun ms j => MembersStand source ts s'.place j ms)
include h

theorem typeBody_locates (hn : s.after.length ≤ n) :
    Parser.Locates source ts s (typeBody members) fun ms j => MembersStand source ts s.place j ms := by
  refine .passReader eatMark_safe fun _ _ s₁ h₁ _ => .ite (fun _ => .pure (.nil h₁.place_le)) fun _ => ?_
  refine .pass expectMark_safe.discard fun _ _ s₂ h₂ _ => .andThen (h s₂ ?_) fun ms _ s₃ h₃ hms => ?_
  · have := h₁.length_after
    have := h₂.length_after
    omega
  refine .passReader expectClosing_safe fun _ _ s₄ h₄ _ => ?_
  refine .pass (Parser.Safe.lift eatMark_passes).discard fun _ _ s₅ h₅ _ => .pure ?_
  exact hms.widen (h₁.trans h₂).place_le (h₄.trans h₅).place_le

theorem typeWithMembers_locates {head : Head} {i : Nat} (hn : s.after.length ≤ n)
    (hh : head.Stands source ts i s.place) :
    Parser.Locates source ts s (typeWithMembers members head) fun t j =>
      Node.Stands source ts i j (.type t) := by
  refine .passReader typeKind_safe fun kind _ s₁ h₁ _ => .pass ident_safe fun _ _ s₂ h₂ hi => ?_
  refine typeParameters_locates.bind fun tps _ s₃ h₃ htps => .get fun _ _ => ?_
  refine .join (R := fun ps? j => InTurn (Node.Stands source ts) s₃.place j
    ((ps?.getD []).map .parameter)) (fun _ => .map parameters_locates)
    (fun _ => .pure (.nil (Nat.le_refl _))) fun ps? _ s₄ h₄ hps => ?_
  refine baseTypes_locates.bind fun bs _ s₅ h₅ hbs => constraintClauses_locates.bind fun cs _ s₆ h₆ hcs => ?_
  have hlen := (h₁.trans <| h₂.trans <| h₃.trans <| h₄.trans <| h₅.trans h₆).length_after
  refine (typeBody_locates (n := n) (fun s' hs' => ?_) (by omega)).bind
    fun ms _ s₇ h₇ hms => .get fun hg hs₇ => .pure ?_
  · split
    · exact enumMembers_locates
    · exact h s' hs'
  · have := hh.2.le Node.Stands.le
    have := h₁.place_le
    have := h₂.place_eq
    have := (h₃.trans <| h₄.trans <| h₅.trans h₆).place_le
    have := h₇.place_le
    refine .plain (hg.covers hs₇ hh.1 (by omega)) .nil (fun m hm => ?_) ?_
    · -- the members are read behind the word that says what is declared, and the name
      obtain ⟨a, _, ha, -, hm⟩ := hms.mem (fun _ _ _ => Node.Stands.le _ _ _) hm
      obtain ⟨-, u, -, -, -, hu, -, hoffset, -⟩ := hm.extent
      exact ⟨a, u, by omega, hu, hoffset⟩
    · exact ((((hh.2.append (htps.widen (by omega) (Nat.le_refl _))).append hps).append hbs).append
        hcs).append hms.map

theorem memberWith_locates (hn : s.after.length ≤ n) :
    Parser.Locates source ts s (memberWith members) fun m? j =>
      MembersStand source ts s.place j m?.toList := by
  refine .passReader eatMark_safe fun _ _ s₁ h₁ _ => .ite (fun _ => .pure (.nil h₁.place_le)) fun _ => ?_
  refine head_locates.bind fun head _ s₂ h₂ hh => .get fun _ _ => ?_
  have hlen := (h₁.trans h₂).length_after
  refine .ite (fun _ => ?_) fun _ => ?_
  · exact (typeWithMembers_locates h (by omega) hh).bind fun t _ _ _ ht =>
      .pure (.one h₁.place_le ht (Nat.le_refl _))
  · exact (memberAfter_locates hh).bind fun m _ _ _ hm => .pure (.one h₁.place_le hm (Nat.le_refl _))

theorem memberStep_locates {ms : List Member} {i : Nat}
    (hp : ∀ s', s'.after.length < n →
      Reader.Safe source s' members fun ms _ => Member.AllWorded ms)
    (hn : s.after.length ≤ n) (hms : MembersStand source ts i s.place ms) :
    Reader.Locates source ts s (memberStep members ms)
      (Round.Located (fun ms j => MembersStand source ts i j ms) fun ms j =>
        MembersStand source ts i j ms) := by
  refine .get fun _ _ => .ite (fun _ => ?_) fun _ => .pure hms
  refine (orRecover_locates (memberWith_safe hp hn) (memberWith_locates h hn)).bind
    fun m? _ s₁ h₁ hm => .pass moveOn_safe fun _ _ s₂ h₂ _ => .pure ?_
  cases m? with
  | none => exact hms.append (.nil (h₁.trans h₂).place_le)
  | some m? => exact hms.append ((hm m? rfl).widen (Nat.le_refl _) h₂.place_le)

end

/-- **The members of a type stand in turn**, and so do those of the types in it. -/
theorem membersWithin_locates {depth : Nat} (h : s.after.length < depth) :
    Reader.Locates source ts s (membersWithin depth) fun ms j => MembersStand source ts s.place j ms := by
  induction depth generalizing s with
  | zero => omega
  | succ depth ih =>
    have hp (s' : ParserState) (h' : s'.after.length < depth) :
        Reader.Safe source s' (membersWithin depth) fun ms _ => Member.AllWorded ms :=
      membersWithin_safe h'
    have hlen {k : Nat} {s' : ParserState} (h' : Moves k s s') : s'.after.length ≤ depth := by
      have := h'.length_after
      omega
    exact .loop (fun _ _ _ h' _ => memberStep_consumes hp (hlen h')) (.nil (Nat.le_refl _))
      fun _ _ _ h' hms => memberStep_locates (fun _ => ih) hp (hlen h') hms

theorem members_locates :
    Reader.Locates source ts s members fun ms j => MembersStand source ts s.place j ms := by
  refine .pass rounds_safe fun _ _ s₁ h₁ hr => ?_
  obtain ⟨rfl, rfl⟩ := hr
  have hplace := h₁.place_eq
  rw [Nat.add_zero] at hplace
  rw [← hplace]
  exact membersWithin_locates (Nat.lt_succ_of_le (h₁.after_eq ▸ Nat.le_refl _))

theorem typeDeclaration_locates {head : Head} {i : Nat} (hh : head.Stands source ts i s.place) :
    Parser.Locates source ts s (typeDeclaration head) fun t j =>
      Node.Stands source ts i j (.type t) :=
  typeWithMembers_locates (fun _ _ => members_locates) (Nat.le_refl s.after.length) hh

/-! ## Namespaces -/

theorem using_locates :
    Parser.Locates source ts s using_ fun u j => Node.Stands source ts s.place j (.using_ u) := by
  refine .get fun _ hs => .after (K := fun _ => True)
    (fun _ => (Parser.Safe.lift advance_passes).discard) fun _ s₁ h₁ => ?_
  refine .pass expectWord_safe.discard fun _ _ s₂ h₂ _ => .passReader eatWord_safe fun _ _ s₃ h₃ _ => ?_
  refine .pass usingAlias_safe fun _ _ s₄ h₄ _ => name_locates.bind fun name _ s₅ h₅ hname => ?_
  refine .pass expectMark_safe.discard fun _ _ s₆ h₆ _ => .get fun hg hs₆ => .pure ?_
  have := (h₁.trans <| h₂.trans <| h₃.trans h₄).place_le
  have := h₆.place_le
  exact .plain (hg.covers hs₆ (begins_peek hs) (by omega)) hname.1 ⟨⟩ (.nil (by omega))

/-- The entries stand in turn. -/
def EntriesStand (source : List Char) (ts : List Token) (i j : Nat) (es : List Entry) : Prop :=
  InTurn (fun a b e => Node.Stands source ts a b e.node) i j es

section
variable {nested : Bool → Reader (List Entry)} {n : Nat}
  (hp : ∀ s' braced, s'.after.length < n →
    Reader.Safe source s' (nested braced) fun es _ => Entry.AllSound source es)
  (h : ∀ s' braced, s'.after.length < n →
    Reader.Locates source ts s' (nested braced) fun es j => EntriesStand source ts s'.place j es)
include hp h

omit hp in
theorem namespaceEntries_locates {isFileScoped : Bool} (hn : s.after.length < n) :
    Parser.Locates source ts s (namespaceEntries nested isFileScoped) fun es j =>
      EntriesStand source ts s.place j es := by
  refine .ite (fun _ => .lift (h s false hn)) fun _ => ?_
  refine .pass expectMark_safe.discard fun _ _ s₁ h₁ _ => ?_
  have hlen := h₁.length_after
  refine .andThen (h s₁ true (by omega)) fun es _ s₂ h₂ hes => .passReader expectClosing_safe fun _ _ s₃ h₃ _ => ?_
  exact .pass (Parser.Safe.lift eatMark_passes).discard fun _ _ s₄ h₄ _ =>
    .pure (hes.widen h₁.place_le (h₃.trans h₄).place_le)

theorem namespaceWith_locates {start : Span} {i : Nat} (hn : s.after.length ≤ n)
    (hb : Begins ts i start) (hi : i ≤ s.place) :
    Parser.Locates source ts s (namespaceWith nested start) fun n j =>
      Node.Stands source ts i j (.namespace_ n) := by
  refine .pass expectWord_safe.discard fun _ _ s₁ h₁ _ => name_locates.bind fun name _ s₂ h₂ hname => ?_
  refine .passReader eatMark_safe fun isFileScoped _ s₃ h₃ _ => ?_
  have hlen := (h₁.trans <| h₂.trans h₃).length_after
  have hplace := h₁.place_eq
  have hle := (h₂.trans h₃).place_le
  refine .bind_safe (namespaceEntries_safe hp (by omega)) (namespaceEntries_locates h (by omega))
    fun es _ s₄ h₄ hsound hes => ?_
  have hstands {s' : ParserState} {k : Nat} (h' : Moves k s₄ s') (hg : s'.Good source)
      (hs : s'.tokens = ts) : Node.Stands source ts i s'.place (.namespace_ ⟨name, isFileScoped,
        Entry.usings es, Entry.declarations es, s'.spanFrom start⟩) := by
    have := (h₄.trans h').place_le
    refine .mixed ⟨⟩ (hg.covers hs hb (by omega)) hname.1
      (InTurn.map (hes.widen (by omega) h'.place_le)) ?_
    exact List.forall_mem_cons.2 ⟨Entry.usings_sublist es,
      List.forall_mem_singleton.2 (Entry.declarations_sublist es)⟩
  dsimp only
  split
  · rename_i a ha
    refine .passReader (report_safe (e := ⟨.unexpectedToken, a.span, _⟩) (hsound.globalAttributes ha))
      fun _ _ s₅ h₅ _ => .get fun hg hs => .pure (hstands h₅ hg hs)
  · exact .get fun hg hs => .pure (hstands (.refl s₄) hg hs)

theorem declarationWith_locates (hn : s.after.length ≤ n) :
    Parser.Locates source ts s (declarationWith nested) fun d j =>
      Node.Stands source ts s.place j (.ofDeclaration d) := by
  refine head_locates.bind fun head _ s₁ h₁ hh => .get fun _ _ => ?_
  have hlen := h₁.length_after
  refine .ite (fun _ => ?_) fun _ => .ite (fun _ => ?_) fun _ => .ite (fun _ => ?_) fun _ =>
    failAt_locates
  · exact (namespaceWith_locates hp h (by omega) hh.1 h₁.place_le).bind fun _ _ _ _ hd => .pure hd
  · exact (delegate_locates hh).bind fun _ _ _ _ hd => .pure hd
  · exact (typeDeclaration_locates hh).bind fun _ _ _ _ ht => .pure ht

/-- An entry that is read stands where it was read; what is passed over is none. -/
theorem entryWith_locates (hn : s.after.length ≤ n) :
    Reader.Locates source ts s (entryWith nested) fun e? j =>
      ∀ e, e? = some e → Node.Stands source ts s.place j e.node := by
  refine .get fun hg _ => .ite (fun hb => ?_) fun _ => .ite (fun _ => ?_) fun _ =>
    .ite (fun _ => ?_) fun _ => .ite (fun _ => ?_) fun _ => ?_
  · refine .pass advance_safe fun _ _ _ _ ht => .pass (report_safe ht.1) fun _ _ _ _ _ => .pure ?_
    exact nofun
  · exact .pass synchronize_safe fun _ _ _ _ _ => .pure nofun
  · exact orRecover_locates (K := fun _ _ => True) (.map (using_safe.mono fun _ _ _ => ⟨⟩))
      (.map using_locates)
  · exact orRecover_locates (K := fun _ _ => True) (.map (attributeSection_safe.mono fun _ _ _ => ⟨⟩))
      (.map attributeSection_locates)
  · exact orRecover_locates (K := fun _ _ => True)
      (.map ((declarationWith_safe hp hn).mono fun _ _ _ => ⟨⟩)) (.map (declarationWith_locates hp h hn))

theorem entryStep_locates {braced : Bool} {es : List Entry} {i : Nat} (hn : s.after.length ≤ n)
    (hes : EntriesStand source ts i s.place es) :
    Reader.Locates source ts s (entryStep nested braced es)
      (Round.Located (fun es j => EntriesStand source ts i j es) fun es j =>
        EntriesStand source ts i j es) := by
  refine .get fun _ _ => .ite (fun _ => .pure hes) fun _ => ?_
  refine (entryWith_locates hp h hn).bind fun e? _ s₁ h₁ he => .pass moveOn_safe fun _ _ s₂ h₂ _ => .pure ?_
  cases e? with
  | none => exact hes.append (.nil (h₁.trans h₂).place_le)
  | some e => exact hes.append (.one (Nat.le_refl _) (he e rfl) h₂.place_le)

end

/-- **The entries of a namespace stand in turn**, and so do those of the namespaces in it. -/
theorem entriesWithin_locates {depth : Nat} {braced : Bool} (h : s.after.length < depth) :
    Reader.Locates source ts s (entriesWithin depth braced) fun es j =>
      EntriesStand source ts s.place j es := by
  induction depth generalizing s braced with
  | zero => omega
  | succ depth ih =>
    have hp (s' : ParserState) (braced : Bool) (h' : s'.after.length < depth) :
        Reader.Safe source s' (entriesWithin depth braced) fun es _ => Entry.AllSound source es :=
      (entriesWithin_safe h').mono fun _ _ hes => hes.1
    have hlen {k : Nat} {s' : ParserState} (h' : Moves k s s') : s'.after.length ≤ depth := by
      have := h'.length_after
      omega
    exact .loop (fun _ _ _ h' _ => (entryStep_safe hp (.refl _) (hlen h')).mono fun _ _ hr => hr.1)
      (.nil (Nat.le_refl _)) fun _ _ _ h' hes => entryStep_locates hp (fun _ _ => ih) (hlen h') hes

/-- A unit stands from the first token on; that of an empty text has the `eof` for its place. -/
theorem sourceUnit_locates (h : s.before = []) :
    Reader.Locates source ts s sourceUnit fun u _ => ∃ j, Node.Stands source ts 0 j (.unit u) := by
  refine .get fun _ hs => .pass rounds_safe fun _ _ s₁ h₁ hr => ?_
  obtain ⟨rfl, rfl⟩ := hr
  have hplace : s.place = 0 := by rw [place, h]; rfl
  have hplace₁ : s₁.place = 0 := h₁.place_eq.trans hplace
  refine (entriesWithin_locates (h₁.after_eq ▸ Nat.lt_succ_self _)).bind fun es _ s₂ h₂ hes => ?_
  refine .get fun hg hs₂ => .pure ?_
  have hb : Begins ts 0 s.peek.span := hplace ▸ begins_peek hs
  have hlists : ∀ l ∈ Node.childLists (.unit ⟨Entry.usings es, Entry.globalAttributes es,
      Entry.declarations es, s₂.spanFrom s.peek.span⟩), l.Sublist (es.map Entry.node) :=
    List.forall_mem_cons.2 ⟨Entry.usings_sublist es, List.forall_mem_cons.2
      ⟨Entry.globalAttributes_sublist es, List.forall_mem_singleton.2 (Entry.declarations_sublist es)⟩⟩
  rcases Nat.eq_zero_or_pos s₂.place with hzero | hpos
  · have hspan : s₂.spanFrom s.peek.span = s.peek.span := by
      rw [spanFrom, List.eq_nil_of_length_eq_zero hzero]
    obtain ⟨t, ht, htspan⟩ := hb
    have hcovers : (s₂.spanFrom s.peek.span).Covers ts 0 1 := by
      rw [hspan, ← htspan]
      exact .through (Nat.le_refl 0) ht ht rfl rfl
    exact ⟨1, .mixed ⟨⟩ hcovers .nil (InTurn.map (hes.widen (Nat.zero_le _) (by omega))) hlists⟩
  · exact ⟨s₂.place, .mixed ⟨⟩ (hg.covers hs₂ hb hpos) .nil
      (InTurn.map (hes.widen (Nat.zero_le _) (Nat.le_refl _))) hlists⟩

end Parser

/-- **Every node of a tree stands among the tokens of its text.** -/
theorem SyntaxTree.nodes_stand (id : Nat) (path text : String) :
    ∀ n ∈ (parse id path text).nodes,
      ∃ i j, Node.Stands text.toList (parse id path text).tokens i j n := by
  obtain ⟨k, -, j, hroot⟩ := Parser.sourceUnit_locates rfl rfl (ParserState.ofText_good text)
  refine nodes_forall (P := fun n => ∃ i j, Node.Stands text.toList _ i j n) (fun n hn m hm => ?_)
    ⟨0, j, hroot⟩
  obtain ⟨i, j, hn⟩ := hn
  obtain ⟨a, b, -, -, hm⟩ := hn.child hm
  exact ⟨a, b, hm⟩

end CommandModules

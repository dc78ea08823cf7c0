/-
  Command modules — types, namespaces and entries in a longer text.

  * `membersWithin_carries`, `entriesWithin_carries`: types and namespaces, by induction on their
    depth, of which the longer text may allow more;
  * `typeWithMembers_closes`, `namespaceWith_closes`, `entryWith_closes`: an entry may end with the
    text, unless it is a namespace without braces.
-/
import CommandModules.Proofs.Joined.Member

namespace CommandModules

/-- Does a namespace without braces stand here, which extends to the end of the text? -/
def Declaration.isFileScoped : Declaration → Bool
  | .namespace_ n => n.isFileScoped
  | .type _ | .delegate _ => false

namespace Parser

open ParserState

variable {w : Frame} {r : Bool} {s : ParserState} {d : Distance}

/-! ## Types -/

theorem endsDeclaration_of_isContextual {t : Token} {word : String}
    (h : t.isContextual word = true) : t.kind.endsDeclaration = false :=
  endsDeclaration_of_eq (beq_iff_eq.1 (Bool.and_eq_true_iff.1 h).1) rfl

theorem isAtRecord_within (hb : s.Bounded w) : isAtRecord (s.within w) = isAtRecord s := by
  rw [isAtRecord, isAtRecord, hb.peek, isContextual_shift]
  refine hb.and_next endsDeclaration_of_isContextual fun hk h => ?_
  rw [h, kind_shift]
  split
  · rfl
  · rfl
  · rename_i hnext
    rw [hb.peekAt_two hk (endsDeclaration_of_eq hnext rfl)]
    rfl
  · rfl

theorem isAtType_within (hb : s.Bounded w) : isAtType (s.within w) = isAtType s := by
  rw [isAtType, isAtType, hb.peek, kind_shift, isAtRecord_within hb]

/-- What follows the word `record`. -/
theorem recordKind_carries : Reader.Carries w r false s
    (do
      if ← eatWord .struct then return TypeKind.recordStruct
      else
        discard (eatWord .class_)
        return .record)
    (do
      if ← eatWord .struct then return TypeKind.recordStruct
      else
        discard (eatWord .class_)
        return .record) :=
  (eatWord_carries _).bind fun _ _ _ => .ite (fun _ => Iff.rfl) (fun _ => .pure rfl)
    fun _ => (eatWord_carries _).discard.bind fun _ _ _ => .pure rfl

theorem typeKind_carries : Reader.Carries w r false s typeKind typeKind := by
  refine advance_carries.bind fun t _ _ => .congr ?_ fun _ _ => by rw [kind_shift]
  split
  case h_5 => exact recordKind_carries
  all_goals exact .pure rfl

theorem before_typeKind_ne_nil (h : s.after ≠ []) : (typeKind.run s).2.before ≠ [] := by
  have hs : (advance.run s).2.before ≠ [] := before_advance_ne_nil h
  rw [typeKind, Reader.run_bind]
  split
  case h_5 =>
    exact (recordKind_carries (w := ⟨[], [], [], [], s.eof⟩) (r := false)).onward.before_ne_nil hs
  all_goals exact hs

theorem isAtType_ne_eof (h : isAtType s = true) : s.peek.kind ≠ .eof := by
  intro hk
  have hrecord : isAtType s = isAtRecord s := by rw [isAtType, hk]
  rw [hrecord, isAtRecord, Token.isContextual, hk] at h
  exact absurd (Bool.and_eq_true_iff.1 h).1 (by simp)

theorem baseType_carries : Parser.Carries w true false s baseType baseType :=
  type_carries.bind fun _ _ _ => .get (.after (fun hb => by rw [hb.isAtMark])
    (fun _ => .lift skipGroup_carries) fun _ _ => .pure rfl)

theorem baseTypes_carries : Parser.Carries w true false s baseTypes baseTypes :=
  .andThen (eatMark_carries _) fun _ _ _ => .ite (fun _ => Iff.rfl)
    (fun _ => commaSeparated_carries fun _ _ => baseType_carries) fun _ => .pure rfl

theorem isInBraces_within (hb : s.Bounded w) : isInBraces (s.within w) = isInBraces s := by
  rw [isInBraces, isInBraces, hb.isAtMark, hb.isAtEof]

theorem enumMemberAfter_carries (ms : List Member) :
    Reader.Carries w true false s (enumMemberAfter ms) (enumMemberAfter (shift w.distance ms)) := by
  refine .get (.ite (fun hb => by rw [isInBraces_within hb]) (fun _ => ?_) fun _ => .pure rfl)
  refine (orRecover_carries enumMember_carries).bind fun m? _ _ => ?_
  cases m? with
  | none => exact .pure rfl
  | some m =>
    refine (eatMark_carries _).bind fun _ _ _ => .ite (fun _ => Iff.rfl) (fun _ => .pure ?_)
      fun _ => .pure ?_
    all_goals simp

theorem enumMembers_carries : Reader.Carries w true false s enumMembers enumMembers :=
  loop_carries (fun ms _ _ => (enumMemberAfter_carries ms).mono fun _ _ => ⟨⟩) []

section
variable {members members' : Reader (List Member)}
  (h : ∀ s, Reader.Carries w true false s members members')
include h

theorem typeBody_closes :
    Closes (fun _ => True) w true true s (typeBody members) (typeBody members') := by
  refine eatMark_orCloses (fun _ _ => .pure rfl) ?_
  refine (expectMark_carries _).discard.thenCloses fun _ _ _ => ?_
  refine (Parser.Carries.lift (h _)).thenCloses fun ms _ _ => ?_
  exact (expectClosing_closes _).andThen fun _ _ _ => eatSemicolon_closes.andThen
    fun _ _ _ => .pure rfl

theorem typeWithMembers_closes (hs : s.peek.kind ≠ .eof) (head : Head) :
    Closes (fun _ => True) w r true s (typeWithMembers members head)
      (typeWithMembers members' (shift w.distance head)) := by
  refine (Parser.Carries.lift typeKind_carries).readyCloses (fun kind s' hx hb => ?_)
    fun kind _ _ => ?_
  · rw [lift_run] at hx
    cases hx
    exact before_typeKind_ne_nil (hb.after_ne_nil hs)
  refine ident_carries.thenCloses fun _ _ _ => typeParameters_carries.thenCloses fun _ _ _ => .get ?_
  refine Parser.Carries.joinCloses (fun hb => by rw [hb.isAtMark])
    (fun _ => parameters_carries.map fun _ => rfl) (fun _ => .pure rfl) fun parameters? _ _ => ?_
  refine baseTypes_carries.thenCloses fun _ _ _ => constraintClauses_carries.thenCloses
    fun _ _ _ => ?_
  refine (typeBody_closes fun s => ?_).andThen fun _ _ _ => .pureSpan fun _ => ?_
  · exact .ite (fun _ => Iff.rfl) (fun _ => enumMembers_carries) fun _ => h s
  · rw [shift_typeDeclaration]
    rfl

theorem memberWith_carries :
    Parser.Carries w true false s (memberWith members) (memberWith members') := by
  refine .andThen (eatMark_carries _) fun _ _ _ => .ite (fun _ => Iff.rfl) (fun _ => .pure rfl)
    fun _ => head_carries.anywhere.bind fun head _ _ => .get (.ite (fun hb => by rw [isAtType_within hb])
    (fun hc => ?_) fun _ => ?_)
  · exact (typeWithMembers_closes h (isAtType_ne_eof hc) head).carries.bind fun _ _ _ =>
      .pure (by simp)
  · exact (memberAfter_carries head).bind fun _ _ _ => .pure rfl

theorem memberStep_carries (ms : List Member) :
    Reader.Carries w true false s (memberStep members ms)
      (memberStep members' (shift w.distance ms)) := by
  refine .get (.ite (fun hb => by rw [isInBraces_within hb]) (fun _ => ?_) fun _ => .pure rfl)
  refine .congr ((orRecover_carries (memberWith_carries h)).bind fun m? _ _ => ?_)
    fun _ _ => by rw [place_within]
  refine (moveOn_carries _).bind fun _ _ _ => .pure ?_
  have hjoin : (shift w.distance m?).join.toList = shift w.distance m?.join.toList := by
    rcases m? with _ | _ | m <;> rfl
  rw [hjoin, shift_next, shift_append]

end

/-- More depth than is needed does not matter. -/
theorem membersWithin_carries {n m : Nat} (hn : n ≤ m) :
    Reader.Carries w true false s (membersWithin n) (membersWithin m) := by
  induction n generalizing m s with
  | zero => exact stall_carries
  | succ n ih =>
    obtain ⟨m, rfl⟩ : ∃ m', m = m' + 1 := ⟨m - 1, by omega⟩
    exact loop_carries (fun ms s' _ =>
      (memberStep_carries (fun _ => ih (by omega)) ms).mono fun _ _ => ⟨⟩) []

theorem members_carries : Reader.Carries w true false s members members :=
  withRoundsRead fun _ _ => membersWithin_carries

theorem typeDeclaration_closes (hs : isAtType s = true) (head : Head) :
    Closes (fun _ => True) w r true s (typeDeclaration head)
      (typeDeclaration (shift w.distance head)) :=
  typeWithMembers_closes (fun _ => members_carries) (isAtType_ne_eof hs) head

/-! ## Namespaces -/

theorem isAtExternAlias_within (hb : s.Bounded w) :
    isAtExternAlias (s.within w) = isAtExternAlias s :=
  hb.isAt_and rfl fun _ h => by rw [h, isContextual_shift]

theorem isAtUsing_within (hb : s.Bounded w) : isAtUsing (s.within w) = isAtUsing s := by
  rw [isAtUsing, isAtUsing, hb.isAt, hb.peek, isContextual_shift]
  congr 1
  exact hb.and_next endsDeclaration_of_isContextual fun _ h => by rw [h, kind_shift]

theorem isAtGlobalAttributes_within (hb : s.Bounded w) :
    isAtGlobalAttributes (s.within w) = isAtGlobalAttributes s := by
  rw [isAtGlobalAttributes, isAtGlobalAttributes, Bool.and_assoc, Bool.and_assoc]
  refine hb.isAtMark_and rfl fun hk h => ?_
  rw [h, isContextual_shift, isContextual_shift]
  cases hnext : (s.peekAt 1).isContextual "assembly" || (s.peekAt 1).isContextual "module" with
  | false => rfl
  | true =>
    have hk' := (Bool.or_eq_true_iff.1 hnext).elim endsDeclaration_of_isContextual
      endsDeclaration_of_isContextual
    rw [hb.peekAt_two hk hk', kind_shift]

theorem usingAlias_carries : Parser.Carries w r false s usingAlias usingAlias := by
  refine .get (.ite (fun hb => ?_) (fun _ => ?_) fun _ => .pure rfl)
  · rw [hb.isAt_and rfl fun _ h => by rw [h, kind_shift]]
  · exact ident_carries.bind fun _ _ _ => (Parser.Carries.lift advance_carries).discard.bind
      fun _ _ _ => .pure rfl

theorem using_closes : Closes (fun _ => True) w r true s using_ using_ := by
  refine .get (.congr ?_ fun _ hb => by rw [hb.peek, isContextual_shift, span_shift])
  refine Parser.Carries.afterCloses (fun _ => Iff.rfl)
    (fun _ => (Parser.Carries.lift advance_carries).discard) fun _ _ => ?_
  refine expect_readyCloses (keyword_ne_eof _) fun _ _ => ?_
  refine (Parser.Carries.lift (eatWord_carries _)).thenCloses fun _ _ _ =>
    usingAlias_carries.thenCloses fun _ _ _ => name_carries.thenCloses fun _ _ _ => ?_
  exact (discard_expectMark_closes _).andThen fun _ _ _ => .pureSpan fun _ => rfl

section
variable {nested nested' : Bool → Reader (List Entry)}
  (h : ∀ braced s, Reader.Carries w false false s (nested braced) (nested' braced))
include h

theorem namespaceEntries_closes (isFileScoped : Bool) :
    Closes (fun _ => isFileScoped = false) w true true s (namespaceEntries nested isFileScoped)
      (namespaceEntries nested' isFileScoped) := by
  refine .ite (fun _ => Iff.rfl) (fun hc => ?_) fun _ => ?_
  · exact .of_carries (.anywhere (.lift (h false s))) fun _ hg => by
      rw [hc] at hg
      cases hg
  · refine (expectMark_carries _).discard.thenCloses fun _ _ _ => ?_
    refine (Parser.Carries.lift (h true _)).anywhere.thenCloses fun es _ _ => ?_
    exact (expectClosing_closes _).andThen fun _ _ _ => eatSemicolon_closes.andThen
      fun _ _ _ => .pure rfl

theorem namespaceWith_closes (start : Span) :
    Closes (fun n => n.isFileScoped = false) w r true s (namespaceWith nested start)
      (namespaceWith nested' (shift w.distance start)) := by
  refine expect_readyCloses (keyword_ne_eof _) fun _ _ => name_carries.thenCloses fun name _ _ => ?_
  refine (Parser.Carries.lift (eatMark_carries _)).thenCloses fun isFileScoped _ _ => ?_
  have rest (es : List Entry) (s : ParserState) : Closes (fun _ => True) w true false s
      (do return (⟨name, isFileScoped, Entry.usings es, Entry.declarations es,
        (← get).spanFrom start⟩ : NamespaceDeclaration))
      (do return (⟨shift w.distance name, isFileScoped, shift w.distance (Entry.usings es),
        shift w.distance (Entry.declarations es),
        (← get).spanFrom (shift w.distance start)⟩ : NamespaceDeclaration)) :=
    .pureSpan fun _ => by
      rw [shift_namespaceDeclaration]
  refine (namespaceEntries_closes h isFileScoped).bind (fun es _ _ => ?_) fun es n s₁ s₂ hn hgood => ?_
  · rw [usings_shift, declarations_shift, globalAttributes_shift]
    cases Entry.globalAttributes es with
    | nil => exact (rest es _).mono fun _ _ => ⟨⟩
    | cons => exact report_closes fun s' _ => (rest es s').mono fun _ _ => ⟨⟩
  · cases hl : Entry.globalAttributes es <;> rw [hl] at hn <;> cases hn <;> exact hgood

theorem declarationWith_closes :
    Closes (fun x => x.isFileScoped = false) w false true s (declarationWith nested)
      (declarationWith nested') := by
  refine head_carries.thenCloses fun head _ _ => .get (.ite (fun hb => by rw [hb.isAt])
    (fun _ => ?_) fun _ => .ite (fun hb => by rw [hb.isAt]) (fun _ => ?_) fun _ =>
    .ite (fun hb => by rw [isAtType_within hb]) (fun hc => ?_) fun _ => failAt_closes _ _)
  · refine (namespaceWith_closes h head.start).bind (fun n _ _ => .pure (by simp)) ?_
    rintro n x s₁ s₂ hx hgood
    cases hx
    exact hgood
  · exact (delegate_closes head).andThen fun _ _ _ => .pure (by simp)
  · exact (typeDeclaration_closes hc head).andThen fun _ _ _ => .pure (by simp)

theorem entryWith_closes :
    Closes (fun e? => ∀ x, e? = some (.declaration x) → x.isFileScoped = false) w false true s
      (liftM (entryWith nested)) (liftM (entryWith nested')) := by
  refine .liftGet (.liftIte (fun hb => by rw [hb.isAtMark]) (fun _ => ?_) fun _ =>
    .liftIte (fun hb => by rw [isAtExternAlias_within hb]) (fun hc => ?_) fun _ =>
    .liftIte (fun hb => by rw [isAtUsing_within hb]) (fun _ => ?_) fun _ =>
    .liftIte (fun hb => by rw [isAtGlobalAttributes_within hb]) (fun _ => ?_) fun _ => ?_)
  · exact .liftBind ((Parser.Carries.lift advance_carries).thenCloses fun _ _ _ =>
      .liftBind (report_closes fun _ _ => .pure rfl))
  · refine .liftBind ((synchronize_closes ?_).andThen fun _ _ _ => .pure rfl)
    rw [beq_iff_eq.1 (Bool.and_eq_true_iff.1 hc).1]
    exact keyword_ne_eof _
  · exact orRecover_closes (using_closes.map (fun _ => rfl) fun _ _ => ⟨⟩) fun _ h => h
  · exact orRecover_closes (attributeSection_closes.map (fun _ => rfl) fun _ _ => ⟨⟩) fun _ h => h
  · exact orRecover_closes ((declarationWith_closes h).map (fun _ => rfl) fun x hx => hx x rfl)
      fun _ h => h

theorem entryWith_carries : Reader.Carries w false false s (entryWith nested) (entryWith nested') :=
  (entryWith_closes h).carriesRead

theorem entryStep_carries (braced : Bool) (es : List Entry) :
    Reader.Carries w false false s (entryStep nested braced es)
      (entryStep nested' braced (shift w.distance es)) := by
  refine .get (.ite (fun hb => by rw [hb.isAtEof, hb.isAtMark]) (fun _ => .pure rfl) fun _ => ?_)
  refine .congr ((entryWith_carries h).bind fun e? _ _ => ?_) fun _ _ => by rw [place_within]
  refine (moveOn_carries _).bind fun _ _ _ => .pure ?_
  rw [shift_next, shift_append, toList_shift]

end

theorem entriesWithin_carries {n m : Nat} (hn : n ≤ m) (braced : Bool) :
    Reader.Carries w false false s (entriesWithin n braced) (entriesWithin m braced) := by
  induction n generalizing m s braced with
  | zero => exact stall_carries
  | succ n ih =>
    obtain ⟨m, rfl⟩ : ∃ m', m = m' + 1 := ⟨m - 1, by omega⟩
    exact loop_carries (fun es s' _ =>
      (entryStep_carries (fun braced s => ih (by omega) braced) braced es).mono fun _ _ => ⟨⟩) []

end Parser

end CommandModules

/-
  Command modules — where nodes stand among the tokens of a text.

  Tokens are counted from the head of the text; a node stands from the `i`-th token to the
  `j`-th one, which is the first behind it.

  * `Span.Covers ts i j`: the span reaches from the `i`-th token through the one before the
    `j`-th;
  * `Excerpt`: a text that a node carries word for word, and where it was cut out;
    `Node.excerpts` are those of a node itself, `Node.childLists` are the lists that its
    children come in;
  * `InTurn P i j xs`: the items stand one behind the other between two places;
  * `Node.Stands source ts i j n`: so does the node, its texts are cut from the source, and
    all this holds of what is below it.
-/
import CommandModules.Proofs.Syntax.Walk
import CommandModules.Proofs.Safe.State

namespace CommandModules

open Text

/-! ## Spans -/

/-- The span reaches from the `i`-th token through the one before the `j`-th. -/
inductive Span.Covers (ts : List Token) (i : Nat) : Nat → Span → Prop
  | through {k t u sp} : i ≤ k → ts[i]? = some t → ts[k]? = some u →
      sp.offset = t.span.offset → sp.stop = u.span.stop → Covers ts i (k + 1) sp

namespace Span.Covers

variable {ts : List Token} {i i' j : Nat} {sp sp' : Span}

theorem lt (h : sp.Covers ts i j) : i < j := by
  cases h with
  | through hk => exact Nat.lt_succ_of_le hk

theorem offset_eq {t : Token} (h : sp.Covers ts i j) (ht : ts[i]? = some t) :
    sp.offset = t.span.offset := by
  cases h with
  | through _ ht' _ ho =>
    obtain rfl := Option.some_inj.1 (ht.symm.trans ht')
    exact ho

/-- Spans through the same token end at the same place. -/
theorem stop_eq (h : sp.Covers ts i j) (h' : sp'.Covers ts i' j) : sp.stop = sp'.stop := by
  cases h with
  | through _ _ hu _ hs =>
    cases h' with
    | through _ _ hu' _ hs' =>
      obtain rfl := Option.some_inj.1 (hu.symm.trans hu')
      exact hs.trans hs'.symm

end Span.Covers

/-- Of two tokens in order the earlier one begins first, and ends first. -/
theorem offset_le_of_ordered {ts : List Token} {i j : Nat} {t u : Token}
    (h : ts.Pairwise fun t u => t.span.stop ≤ u.span.offset) (ht : ts[i]? = some t)
    (hu : ts[j]? = some u) (hij : i ≤ j) :
    t.span.offset ≤ u.span.offset ∧ t.span.stop ≤ u.span.stop := by
  rcases hij.eq_or_lt with rfl | hlt
  · obtain rfl := Option.some_inj.1 (ht.symm.trans hu)
    exact ⟨Nat.le_refl _, Nat.le_refl _⟩
  · obtain ⟨hi, rfl⟩ := List.getElem?_eq_some_iff.1 ht
    obtain ⟨hj, rfl⟩ := List.getElem?_eq_some_iff.1 hu
    have := List.pairwise_iff_getElem.1 h i j hi hj hlt
    unfold Span.stop at *
    omega

/-- The `i`-th token has the span. -/
def Begins (ts : List Token) (i : Nat) (sp : Span) : Prop :=
  ∃ t, ts[i]? = some t ∧ t.span = sp

/-! ## Texts that are carried -/

/-- A text that is carried word for word, and where it was cut out. -/
structure Excerpt where
  text : String
  span : Span

/-- The text is cut from the source where its span says, from a first through a last token, behind
    which another one follows. -/
def Excerpt.IsCut (source : List Char) (ts : List Token) (e : Excerpt) : Prop :=
  ∃ i j, j < ts.length ∧ e.span.Covers ts i j ∧ e.span.sliceChars? source = some e.text.toList

/-- All of the texts are. -/
def AllCut (source : List Char) (ts : List Token) (es : List Excerpt) : Prop :=
  ∀ e ∈ es, e.IsCut source ts

namespace AllCut

variable {source : List Char} {ts : List Token} {e : Excerpt} {es fs : List Excerpt}

theorem nil : AllCut source ts [] :=
  List.forall_mem_nil _

theorem cons (he : e.IsCut source ts) (hes : AllCut source ts es) : AllCut source ts (e :: es) :=
  List.forall_mem_cons.2 ⟨he, hes⟩

theorem one (he : e.IsCut source ts) : AllCut source ts [e] :=
  .cons he .nil

theorem append (hes : AllCut source ts es) (hfs : AllCut source ts fs) :
    AllCut source ts (es ++ fs) :=
  List.forall_mem_append.2 ⟨hes, hfs⟩

theorem flatMap {α : Type} {f : α → List Excerpt} {as : List α}
    (h : ∀ a ∈ as, AllCut source ts (f a)) : AllCut source ts (as.flatMap f) := by
  intro e he
  obtain ⟨a, ha, he⟩ := List.mem_flatMap.1 he
  exact h a ha e he

end AllCut

/-- The text of an expression. -/
def ExprSyntax.excerpt (e : ExprSyntax) : Excerpt :=
  ⟨e.text, e.span⟩

mutual

/-- The text of a type, and those of the names and types in it. -/
def TypeSyntax.excerpts : TypeSyntax → List Excerpt
  | ⟨shape, text, span⟩ => ⟨text, span⟩ :: shape.excerpts

/-- The texts of the names and types that a type is made of. -/
def TypeShape.excerpts : TypeShape → List Excerpt
  | .predefined _ => []
  | .named n => n.excerpts
  | .array t _ => t.excerpts
  | .nullable t => t.excerpts
  | .pointer t => t.excerpts
  | .tuple elements => TupleElement.allExcerpts elements

/-- The text of a name, and those of its type arguments. -/
def Name.excerpts : Name → List Excerpt
  | ⟨_, segments, text, span⟩ => ⟨text, span⟩ :: NameSegment.allExcerpts segments

/-- The texts of the type arguments of a segment. -/
def NameSegment.excerpts : NameSegment → List Excerpt
  | ⟨_, args⟩ => TypeSyntax.allExcerpts args

/-- The texts of an element of a tuple. -/
def TupleElement.excerpts : TupleElement → List Excerpt
  | ⟨type, _⟩ => type.excerpts

/-- The texts of types. -/
def TypeSyntax.allExcerpts : List TypeSyntax → List Excerpt
  | [] => []
  | t :: ts => t.excerpts ++ TypeSyntax.allExcerpts ts

/-- The texts of segments. -/
def NameSegment.allExcerpts : List NameSegment → List Excerpt
  | [] => []
  | s :: ss => s.excerpts ++ NameSegment.allExcerpts ss

/-- The texts of elements of a tuple. -/
def TupleElement.allExcerpts : List TupleElement → List Excerpt
  | [] => []
  | e :: es => e.excerpts ++ TupleElement.allExcerpts es

end

theorem TypeSyntax.allExcerpts_eq (ts : List TypeSyntax) :
    TypeSyntax.allExcerpts ts = ts.flatMap TypeSyntax.excerpts := by
  induction ts with
  | nil => rfl
  | cons t ts ih => rw [TypeSyntax.allExcerpts, ih, List.flatMap_cons]

theorem NameSegment.allExcerpts_eq (ss : List NameSegment) :
    NameSegment.allExcerpts ss = ss.flatMap NameSegment.excerpts := by
  induction ss with
  | nil => rfl
  | cons s ss ih => rw [NameSegment.allExcerpts, ih, List.flatMap_cons]

theorem TupleElement.allExcerpts_eq (es : List TupleElement) :
    TupleElement.allExcerpts es = es.flatMap TupleElement.excerpts := by
  induction es with
  | nil => rfl
  | cons e es ih => rw [TupleElement.allExcerpts, ih, List.flatMap_cons]

/-- The texts of an expression that may be missing. -/
def ExprSyntax.excerpts? (e? : Option ExprSyntax) : List Excerpt :=
  e?.toList.map ExprSyntax.excerpt

/-- The text of a body that is an expression. -/
def Body.excerpts : Body → List Excerpt
  | .expression e => [e.excerpt]
  | _ => []

namespace Node

/-- The types, names and expressions that a node carries itself, those in its children aside;
    what a constraint clause carries is without a span of its own. -/
def excerpts : Node → List Excerpt
  | using_ u => u.name.excerpts
  | namespace_ n => n.name.excerpts
  | method m => (m.explicitInterface?.toList.flatMap Name.excerpts) ++ m.body.excerpts
  | constructor c => ExprSyntax.excerpts? c.initializer? ++ c.body.excerpts
  | property p => (p.explicitInterface?.toList.flatMap Name.excerpts) ++
      ExprSyntax.excerpts? p.expressionBody? ++ ExprSyntax.excerpts? p.initializer?
  | accessor a => a.body.excerpts
  | enumMember m => ExprSyntax.excerpts? m.value?
  | variable_ v => ExprSyntax.excerpts? v.initializer?
  | attribute_ a => a.name.excerpts
  | attributeArgument a => ExprSyntax.excerpts? a.expression?
  | parameter p => ExprSyntax.excerpts? p.default?
  | typeReference t => t.excerpts
  | _ => []

/-- The lists that the children of a node come in. -/
def childLists : Node → List (List Node)
  | unit u =>
    [u.usings.map using_, u.attributes.map attributeSection, u.members.map ofDeclaration]
  | namespace_ n => [n.usings.map using_, n.members.map ofDeclaration]
  | type t =>
    [t.attributes.map attributeSection, t.typeParameters.map typeParameter,
      (t.parameters?.getD []).map parameter, t.bases.map typeReference,
      t.constraints.map constraintClause, t.members.map ofMember]
  | delegate d =>
    [d.attributes.map attributeSection, [typeReference d.returnType],
      d.typeParameters.map typeParameter, d.parameters.map parameter,
      d.constraints.map constraintClause]
  | method m =>
    [m.attributes.map attributeSection, [typeReference m.returnType],
      m.typeParameters.map typeParameter, m.parameters.map parameter,
      m.constraints.map constraintClause]
  | constructor c => [c.attributes.map attributeSection, c.parameters.map parameter]
  | field f =>
    [f.attributes.map attributeSection, [typeReference f.type], f.declarators.map variable_]
  | property p =>
    [p.attributes.map attributeSection, [typeReference p.type], p.accessors.map accessor]
  | event e =>
    [e.attributes.map attributeSection, [typeReference e.type], e.declarators.map variable_,
      e.accessors.map accessor]
  | accessor a => [a.attributes.map attributeSection]
  | enumMember m => [m.attributes.map attributeSection]
  | special m => [m.attributes.map attributeSection, m.parameters.map parameter]
  | attributeSection s => [s.attributes.map attribute_]
  | attribute_ a => [a.arguments.map attributeArgument]
  | parameter p => [p.attributes.map attributeSection, [typeReference p.type]]
  | typeParameter p => [p.attributes.map attributeSection]
  | using_ _ | variable_ _ | attributeArgument _ | constraintClause _ | typeReference _ => []

/-- The lists make up the children, in their order. -/
theorem flatten_childLists (n : Node) : n.childLists.flatten = n.children := by
  cases n <;> simp [childLists, children]

/-- Does the node hold entries, whose kinds may come in any order? -/
def HoldsEntries : Node → Prop
  | unit _ | namespace_ _ => True
  | _ => False

end Node

/-! ## Items in turn -/

/-- The items stand one behind the other from the place `i` on, and before the place `j`. -/
inductive InTurn {α : Type} (P : Nat → Nat → α → Prop) : Nat → Nat → List α → Prop
  | nil {i j} : i ≤ j → InTurn P i j []
  | cons {i a b j x xs} : i ≤ a → P a b x → InTurn P b j xs → InTurn P i j (x :: xs)

namespace InTurn

variable {α β : Type} {P : Nat → Nat → α → Prop} {i i' j j' k : Nat} {x : α} {xs ys : List α}

theorem one (hi : i ≤ i') (h : P i' j x) (hj : j ≤ j') : InTurn P i j' [x] :=
  .cons hi h (.nil hj)

theorem widen (h : InTurn P i j xs) (hi : i' ≤ i) (hj : j ≤ j') : InTurn P i' j' xs := by
  induction h generalizing i' with
  | nil h => exact .nil (by omega)
  | cons ha hx _ ih => exact .cons (by omega) hx (ih (Nat.le_refl _) hj)

theorem append (h : InTurn P i j xs) (h' : InTurn P j k ys) : InTurn P i k (xs ++ ys) := by
  induction h with
  | nil h => exact h'.widen h (Nat.le_refl _)
  | cons ha hx _ ih => exact .cons ha hx (ih h')

theorem map {f : β → α} {xs : List β} (h : InTurn (fun a b x => P a b (f x)) i j xs) :
    InTurn P i j (xs.map f) := by
  induction h with
  | nil h => exact .nil h
  | cons ha hx _ ih => exact .cons ha hx ih

theorem le (h : InTurn P i j xs) (hP : ∀ a b x, P a b x → a ≤ b) : i ≤ j := by
  induction h with
  | nil h => exact h
  | cons ha hx _ ih => exact ha.trans ((hP _ _ _ hx).trans ih)

/-- Each item stands between the two places. -/
theorem mem (h : InTurn P i j xs) (hP : ∀ a b x, P a b x → a ≤ b) (hx : x ∈ xs) :
    ∃ a b, i ≤ a ∧ b ≤ j ∧ P a b x := by
  induction h with
  | nil => cases hx
  | @cons i a b j y ys ha hy h ih =>
    rcases List.mem_cons.1 hx with rfl | hx
    · exact ⟨a, b, ha, h.le hP, hy⟩
    · obtain ⟨c, d, hc, hd, hx⟩ := ih hx
      exact ⟨c, d, ha.trans ((hP _ _ _ hy).trans hc), hd, hx⟩

theorem all {Q : α → Prop} (h : InTurn P i j xs) (hQ : ∀ a b x, P a b x → Q x) :
    ∀ x ∈ xs, Q x := by
  induction h with
  | nil => exact List.forall_mem_nil _
  | cons _ hx _ ih => exact List.forall_mem_cons.2 ⟨hQ _ _ _ hx, ih⟩

/-- What stands at later places stands in a relation to what comes before. -/
theorem pairwise {R : α → α → Prop} (h : InTurn P i j xs) (hP : ∀ a b x, P a b x → a ≤ b)
    (hR : ∀ a b c d x y, P a b x → b ≤ c → P c d y → R x y) : xs.Pairwise R := by
  induction h with
  | nil => exact .nil
  | cons _ hx h ih =>
    refine List.pairwise_cons.2 ⟨fun y hy => ?_, ih⟩
    obtain ⟨c, d, hc, -, hy⟩ := h.mem hP hy
    exact hR _ _ _ _ _ _ hx hc hy

end InTurn

/-! ## Nodes -/

/-- The text of the clause is cut from the source, from the token behind the colon through the
    last one. -/
def ConstraintClause.IsCut (source : List Char) (ts : List Token) (c : ConstraintClause) : Prop :=
  ∃ i j colon first, j < ts.length ∧ c.span.Covers ts i j ∧ i + 3 < j ∧ ts[i + 2]? = some colon ∧
    colon.kind = .punct .colon ∧ ts[i + 3]? = some first ∧
    between? first.span.offset c.span.stop source = some c.constraints.toList

/-- What the node carries word for word is cut from the source. -/
def Node.Quotes (source : List Char) (ts : List Token) : Node → Prop
  | .constraintClause c => c.IsCut source ts
  | n => AllCut source ts n.excerpts

/-- If the node is a type, then its members begin behind the `i`-th token. -/
def Node.NestsBehind (ts : List Token) (i : Nat) : Node → Prop
  | .type t => ∀ m ∈ t.members, ∃ a u, i < a ∧ ts[a]? = some u ∧
      (ofMember m).span.offset = u.span.offset
  | _ => True

/-- The node stands from the `i`-th token to the `j`-th, and so does what is below it, one child
    behind the other. -/
inductive Node.Stands (source : List Char) (ts : List Token) : Nat → Nat → Node → Prop
  /-- An argument of an attribute that was never begun stands before the token that is found
      in its place. -/
  | missing {i t a} : ts[i]? = some t → a.expression? = none → a.span = t.span.point →
      Stands source ts i (i + 1) (.attributeArgument a)
  | plain {i j n} : n.span.Covers ts i j → n.Quotes source ts → n.NestsBehind ts i →
      InTurn (Stands source ts) i j n.children → Stands source ts i j n
  /-- Entries stand in the order of the text; the node holds them kind by kind. -/
  | mixed {i j n es} : n.HoldsEntries → n.span.Covers ts i j → n.Quotes source ts →
      InTurn (Stands source ts) i j es → (∀ l ∈ n.childLists, l.Sublist es) → Stands source ts i j n

namespace Node.Stands

variable {source : List Char} {ts : List Token} {i j : Nat} {n m : Node}

theorem lt (h : n.Stands source ts i j) : i < j := by
  cases h with
  | missing => exact Nat.lt_succ_self i
  | plain h => exact h.lt
  | mixed _ h => exact h.lt

theorem le (i j : Nat) (n : Node) (h : n.Stands source ts i j) : i ≤ j :=
  h.lt.le

/-- A child stands where its parent does. -/
theorem child (h : n.Stands source ts i j) (hm : m ∈ n.children) :
    ∃ a b, i ≤ a ∧ b ≤ j ∧ m.Stands source ts a b := by
  cases h with
  | missing => cases hm
  | plain _ _ _ hc => exact hc.mem le hm
  | mixed _ _ _ hes hl =>
    rw [← flatten_childLists] at hm
    obtain ⟨l, hmem, hm⟩ := List.mem_flatten.1 hm
    exact hes.mem le ((hl l hmem).mem hm)

/-- A node begins with its first token, and ends with its last one unless it is missing. -/
theorem extent (h : n.Stands source ts i j) : ∃ k t u, i ≤ k ∧ j = k + 1 ∧ ts[i]? = some t ∧
    ts[k]? = some u ∧ n.span.offset = t.span.offset ∧
      (n.span.stop = u.span.stop ∨ n.children = [] ∧ n.span.stop = t.span.offset) := by
  have covers (h : n.span.Covers ts i j) : ∃ k t u, i ≤ k ∧ j = k + 1 ∧ ts[i]? = some t ∧
      ts[k]? = some u ∧ n.span.offset = t.span.offset ∧
        (n.span.stop = u.span.stop ∨ n.children = [] ∧ n.span.stop = t.span.offset) := by
    cases h with
    | @through k t u _ hk ht hu ho hs => exact ⟨k, t, u, hk, rfl, ht, hu, ho, .inl hs⟩
  cases h with
  | @missing _ t a ht _ hspan =>
    have hoffset : a.span.offset = t.span.offset := by rw [hspan]; rfl
    have hstop : a.span.stop = t.span.offset := by rw [hspan]; rfl
    exact ⟨i, t, t, Nat.le_refl i, rfl, ht, ht, hoffset, .inr ⟨rfl, hstop⟩⟩
  | plain hc => exact covers hc
  | mixed _ hc => exact covers hc

end Node.Stands

end CommandModules

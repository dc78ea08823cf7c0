/-
  Command modules — the spelling of a namespace does not matter.

  A namespace with a dotted name can be written as one block, as nested blocks with a part of the
  name each, or without braces for all that is left of the file.

  * `InBlocks body names text`, `WritesIn body names text`: the text writes the body in the
    namespace with this name, in blocks or in any of these ways;
  * `WritesIn.wraps`: such a text is read without errors, and holds what the body holds, inside
    namespaces that together have this name;
  * `Compilation.symbols_of_spelling`: so a file that writes a body in a namespace leads to the same
    symbols, however it does so, and whatever other trees there are.
-/
import CommandModules.Proofs.Compilation.Restated
import CommandModules.Proofs.Joined.Namespace

namespace CommandModules

variable {body text upper : String} {names outer inner : List String}

/-! ## Ways to write a namespace -/

/-- The text writes the body in blocks that together have this name. -/
inductive InBlocks (body : String) : List String → String → Prop
  | bare : InBlocks body [] body
  | block {outer inner : List String} {line text closing : String} :
      IsNamespaceLine outer false line → InBlocks body inner text → IsClosingLine closing →
        InBlocks body (outer ++ inner) (line ++ "\n" ++ (text ++ "\n" ++ closing))

/-- The text writes the body in the namespace with this name: in one or more blocks, or without
    braces, perhaps around blocks. -/
inductive WritesIn (body : String) : List String → String → Prop
  | blocks {names : List String} {text : String} : InBlocks body names text → names ≠ [] →
      WritesIn body names text
  | fileScoped {outer inner : List String} {line text : String} :
      IsNamespaceLine outer true line → InBlocks body inner text →
        WritesIn body (outer ++ inner) (line ++ "\n" ++ text)

/-- Nested blocks, one for each part of the name. -/
def nestedText : List String → String → String
  | [], body => body
  | name :: names, body =>
    namespaceLine [name] false ++ "\n" ++ (nestedText names body ++ "\n" ++ "\x7d")

theorem inBlocks_nestedText (h : ∀ w ∈ names, IsWord w .identifier) :
    InBlocks body names (nestedText names body) := by
  induction names with
  | nil => exact .bare
  | cons name names ih =>
    obtain ⟨hname, hnames⟩ := List.forall_mem_cons.1 h
    have hline := isNamespaceLine_plain (List.forall_mem_singleton.2 hname) (List.cons_ne_nil _ _) false
    exact .block hline (ih hnames) isClosingLine_plain

/-- **A body can be written in any namespace** in one block, in nested blocks and without braces. -/
theorem writesIn_plain (h : ∀ w ∈ names, IsWord w .identifier) (hne : names ≠ []) :
    WritesIn body names (namespaceLine names false ++ "\n" ++ (body ++ "\n" ++ "\x7d")) ∧
      WritesIn body names (nestedText names body) ∧
      WritesIn body names (namespaceLine names true ++ "\n" ++ body) := by
  have hblock : InBlocks body (names ++ []) _ :=
    .block (isNamespaceLine_plain h hne false) .bare isClosingLine_plain
  have hscoped : WritesIn body (names ++ []) _ := .fileScoped (isNamespaceLine_plain h hne true) .bare
  rw [List.append_nil] at hblock hscoped
  exact ⟨.blocks hblock hne, .blocks (inBlocks_nestedText h) hne, hscoped⟩

/-- What the identifiers of a name mean. -/
def meanings (names : List String) : List String :=
  names.map fun w => (⟨w, default⟩ : Ident).value

theorem path_eq_meanings {n : Name} (h : segmentNames n.segments = names) :
    n.path = meanings names := by
  rw [← h, meanings, segmentNames, List.map_map]
  exact List.map_congr_left fun _ _ => rfl

/-- The directives and declarations of the text are those of the body, inside namespaces that
    together have this name. -/
def HoldsIn (body : String) (names : List String) (text : String) : Prop :=
  let inside := (SyntaxTree.parse 0 "" body).root
  let whole := (SyntaxTree.parse 0 "" text).root
  Wraps inside.usings inside.members (meanings names) whole.usings whole.members

theorem HoldsIn.namespace_ {line closing : String} {isFileScoped : Bool} (h : HoldsIn body inner text)
    (hline : IsNamespaceLine outer isFileScoped line) (htext : IsBody text)
    (hclosing : IsClosingLine closing) :
    let whole := SyntaxTree.parse 0 "" (namespaceText line isFileScoped text closing)
    whole.errors = [] ∧ whole.root.usings = [] ∧
      HoldsIn body (outer ++ inner) (namespaceText line isFileScoped text closing) := by
  obtain ⟨herrors, -, husings, _, hmembers, n, rfl, hname, -, d, hus, hms⟩ :=
    parse_namespaceText hline htext hclosing 0 ""
  refine ⟨herrors, husings, ?_⟩
  rw [HoldsIn, husings, hmembers, meanings, List.map_append, ← meanings, ← meanings,
    ← path_eq_meanings hname]
  exact .inside d h hus hms

theorem InBlocks.holds (hbody : IsBody body) (h : InBlocks body names text) :
    IsBody text ∧ HoldsIn body names text := by
  induction h with
  | bare => exact ⟨hbody, .body⟩
  | block hline _ hclosing ih =>
    exact ⟨ih.1.in_braces hline hclosing, (ih.2.namespace_ hline ih.1 hclosing).2.2⟩

/-- **A text that writes a body in a namespace** is read without errors, and holds nothing but the
    body in this namespace. -/
theorem WritesIn.holds (hbody : IsBody body) (h : WritesIn body names text) :
    let whole := SyntaxTree.parse 0 "" text
    whole.errors = [] ∧ text.toList.head? ≠ some '\uFEFF' ∧ whole.root.usings = [] ∧
      HoldsIn body names text := by
  cases h with
  | blocks h hne =>
    have htext := (h.holds hbody).1
    cases h with
    | bare => exact absurd rfl hne
    | block hline h hclosing =>
      obtain ⟨hinner, hholds⟩ := h.holds hbody
      obtain ⟨herrors, husings, hholds⟩ := hholds.namespace_ hline hinner hclosing
      exact ⟨herrors, htext.unmarked, husings, hholds⟩
  | fileScoped hline h =>
    obtain ⟨hinner, hholds⟩ := h.holds hbody
    obtain ⟨herrors, husings, hholds⟩ := hholds.namespace_ hline hinner isClosingLine_plain
    refine ⟨herrors, ?_, husings, hholds⟩
    refine head?_append_ne (head?_append_ne hline.unmarked fun _ => by decide) fun hnil => ?_
    exact absurd (String.append_eq_empty_iff.1 hnil).2 (by decide)

/-! ## Files -/

/-- A file that writes a body in a namespace, below directives and declarations. -/
theorem WritesIn.file (hupper : IsComplete upper) (hbody : IsBody body) (h : WritesIn body names text)
    (id : Nat) (path : String) :
    let whole := SyntaxTree.parse id path (upper ++ "\n" ++ text)
    let above := (SyntaxTree.parse 0 "" upper).root
    whole.errors = [] ∧ whole.root.usings = above.usings ∧
      ∃ d xs, whole.root.members = above.members ++ shift d xs ∧
        Wraps (SyntaxTree.parse 0 "" body).root.usings (SyntaxTree.parse 0 "" body).root.members
          (meanings names) [] xs := by
  obtain ⟨herrors, hunmarked, husings, hholds⟩ := h.holds hbody
  obtain ⟨hjoined, hus, -, hms⟩ := parse_joined 0 0 id "" "" path hupper.errors herrors hupper.blocks
    hupper.ends hunmarked
  rw [HoldsIn, husings] at hholds
  refine ⟨hjoined, ?_, _, _, hms, hholds⟩
  rw [hus, husings, shift_nil, List.append_nil]

namespace Compilation

/-- **The spelling of a namespace does not matter.**  Two files that write the same body in the
    namespace with the same name, below the same directives and declarations, are free of errors;
    among the same other trees they lead to the same namespaces and to the same types in the same
    order, places aside, and the same is wrong with them. -/
theorem symbols_of_spelling {text' : String} (hupper : IsComplete upper) (hbody : IsBody body)
    (h : WritesIn body names text) (h' : WritesIn body names text') (id : Nat) (path : String)
    (before after : List SyntaxTree) (references : List Reference) (settings : Settings) :
    let file (text : String) := SyntaxTree.parse id path (upper ++ "\n" ++ text)
    let c (text : String) := Compilation.of (before ++ file text :: after) references settings
    ((file text).errors = [] ∧ (file text').errors = []) ∧
      (c text).table.namespaces = (c text').table.namespaces ∧
      (c text).table.symbols.map TypeSymbol.unplaced = (c text').table.symbols.map TypeSymbol.unplaced ∧
      (c text).symbols.diagnostics.map Diagnostic.unplaced =
        (c text').symbols.diagnostics.map Diagnostic.unplaced := by
  obtain ⟨herrors, hus, d, xs, hms, hxs⟩ := h.file hupper hbody id path
  obtain ⟨herrors', hus', d', xs', hms', hxs'⟩ := h'.file hupper hbody id path
  refine ⟨⟨herrors, herrors'⟩, Restates.symbols_eq ⟨?_, rfl⟩⟩
  have hsame (ts : List SyntaxTree) : List.Forall₂ SyntaxTree.Restates ts ts :=
    List.forall₂_same.2 fun t _ => .refl t
  refine List.rel_append (hsame before) (.cons ?_ (hsame after))
  exact .of_wraps d d' rfl ⟨hus, hms⟩ ⟨hus', hms'⟩ hxs hxs'

/-- A class in the namespace `Shop.Stock`, whose base is found by a directive of the body. -/
theorem symbols_of_spelling_demo :
    let body := "using Base; class Item : Thing \x7b \x7d"
    let names := ["Shop", "Stock"]
    let file (text : String) := SyntaxTree.parse 0 "Item.cs" ("using Lib;" ++ "\n" ++ text)
    let c (text : String) := Compilation.of
      [file text, .parse 1 "Thing.cs" "namespace Base \x7b class Thing \x7b \x7d \x7d"] [] .empty
    let dotted := namespaceLine names false ++ "\n" ++ (body ++ "\n" ++ "\x7d")
    (c dotted).table.symbols.map TypeSymbol.unplaced =
        (c (nestedText names body)).table.symbols.map TypeSymbol.unplaced ∧
      (c dotted).table.symbols.map TypeSymbol.unplaced =
        (c (namespaceLine names true ++ "\n" ++ body)).table.symbols.map TypeSymbol.unplaced := by
  intro body names file c dotted
  have hupper : IsComplete "using Lib;" := by constructor <;> decide +kernel
  have hbody : IsBody body := ⟨by constructor <;> decide +kernel, by decide +kernel⟩
  have hnames : ∀ w ∈ names, IsWord w .identifier := by
    have h : names.all isName = true := by decide +kernel
    exact fun w hw => .of_isName (List.all_eq_true.1 h w hw)
  obtain ⟨hdotted, hnested, hscoped⟩ := @writesIn_plain body names hnames (by decide)
  exact ⟨(symbols_of_spelling hupper hbody hdotted hnested 0 "Item.cs" [] _ [] .empty).2.2.1,
    (symbols_of_spelling hupper hbody hdotted hscoped 0 "Item.cs" [] _ [] .empty).2.2.1⟩

end Compilation

end CommandModules

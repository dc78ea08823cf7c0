/-
  Command modules — texts that are written out are read back.

  * `type_spaced`: the tokens of a type, with blanks between them, are read as that type;
  * `unit_spaced`: so are those of using directives, namespaces, classes and methods.
-/
import CommandModules.Proofs.Shown.Source

namespace CommandModules

open ParserState

/-! ## Types -/

/-- **A type that is written out is read back**: its tokens, written with blanks between them,
    are read as the same type, up to places and verbatim texts, and none of them is left. -/
theorem type_spaced (t : TypeSyntax) (ht : t.IsPrintable) :
    let read := Parser.type.run.run (ofText (spaced t.tokens))
    (∃ x, read.1 = .ok x ∧ erase x = erase t) ∧ read.2.after = [] ∧ read.2.errors = [] := by
  obtain ⟨htokens, hlex⟩ := tokenize_spaced ht.isSpelt
  have hs : (ofText (spaced t.tokens)).Shows (t.tokens ++ []) := by
    rw [Shows, ofText_after hlex, htokens, List.append_nil]
  obtain ⟨-, -, hread, -⟩ := Parser.type_reads ht hs (by simp [EndsType]) (ofText_good _)
  obtain ⟨herr, x, hok, hx, hafter⟩ := hread ⟨⟩
  exact ⟨⟨x, hok, hx⟩, List.map_eq_nil_iff.1 hafter, herr⟩

/-- `global :: Demo . Map < int , ( Item ? , string @class ) [ , ] > *`, without places. -/
def sampleType : TypeSyntax :=
  let ident (w : String) : Ident := ⟨w, default⟩
  let plain (shape : TypeShape) : TypeSyntax := ⟨shape, "", default⟩
  let item := plain (.nullable (plain (.named ⟨none, [⟨ident "Item", []⟩], "", default⟩)))
  let pair := plain (.tuple [⟨item, none⟩, ⟨plain (.predefined "string"), some (ident "@class")⟩])
  let args := [plain (.predefined "int"), plain (.array pair 2)]
  plain (.pointer (plain (.named
    ⟨some (ident "global"), [⟨ident "Demo", []⟩, ⟨ident "Map", args⟩], "", default⟩)))

theorem type_spaced_sample : sampleType.IsPrintable ∧
    ∃ x, (Parser.type.run.run (ofText (spaced sampleType.tokens))).1 = .ok x ∧
      erase x = erase sampleType := by
  have hnames : ∀ w ∈ ["global", "Demo", "Map", "Item"], IsWord w .identifier := by
    have h : ["global", "Demo", "Map", "Item"].all isName = true := by decide +kernel
    exact fun w hw => .of_isName (List.all_eq_true.1 h w hw)
  have hescaped : IsWord "@class" .identifier := by
    have h : ['l', 'a', 's', 's'].all isIdentContinue = true := by decide +kernel
    exact @IsWord.escaped 'c' ['l', 'a', 's', 's'] rfl (List.all_eq_true.1 h)
  have hint : (wordKind "int").isPredefinedType = true := by decide +kernel
  have hstring : (wordKind "string").isPredefinedType = true := by decide +kernel
  have h : sampleType.IsPrintable := by
    simp [sampleType, TypeSyntax.IsPrintable, TypeShape.IsPrintable, Name.IsPrintable,
      NameSegment.IsPrintable, TupleElement.IsPrintable, Ident.IsName, hnames, hescaped, hint,
      hstring]
  exact ⟨h, (type_spaced sampleType h).1⟩

/-! ## Whole texts -/

/-- **A text that is written out is read back**: the tokens of its using directives,
    namespaces, classes and methods, written with blanks between them, are read without an
    error as the same text, up to places and verbatim texts. -/
theorem unit_spaced (id : Nat) (path : String) (u : SourceUnit) (hu : u.IsPrintable) :
    (SyntaxTree.parse id path (spaced u.tokens)).errors = [] ∧
      erase (SyntaxTree.parse id path (spaced u.tokens)).root = erase u := by
  obtain ⟨htokens, hlex⟩ := tokenize_spaced hu.isSpelt
  obtain ⟨herr, hroot⟩ := parse_passes (C := True) id path hlex htokens fun _ _ hs =>
    Parser.sourceUnit_reads hu hs
  exact ⟨herr.2 ⟨⟩, hroot ⟨⟩⟩

/-- Two using directives; then, in a namespace with one more, a class with an attribute,
    type parameters and base types, which holds a method and another class:
    `[Module ( "tools" , Order = 3 )] public partial class Tools < T > : Base < T > , IDisposable`. -/
def sampleUnit : SourceUnit :=
  let ident (w : String) : Ident := ⟨w, default⟩
  let name (ws : List String) : Name := ⟨none, ws.map fun w => ⟨ident w, []⟩, "", default⟩
  let named (n : Name) : TypeSyntax := ⟨.named n, "", default⟩
  let modifiers (ws : List String) : WrittenModifiers := ⟨.ofList (modifierFlags ws), ws.map ident⟩
  let value (text : String) : Option ExprSyntax := some ⟨text, default⟩
  let arguments : AttributeArguments := ⟨[⟨none, none, value "\"tools\"", default⟩,
    ⟨some (ident "Order"), none, value "3", default⟩], default⟩
  let base : Name := ⟨none, [⟨ident "Base", [named (name ["T"])]⟩], "", default⟩
  let run : Method := ⟨[⟨none, [⟨name ["Demo", "Command"], none, default⟩], default⟩],
    modifiers ["static"], ⟨.nullable ⟨.predefined "int", "", default⟩, "", default⟩, none,
    ident "Run", [⟨[], none, ident "U", default⟩],
    [⟨[], ⟨.none, []⟩, ⟨.array (named (name ["U"])) 1, "", default⟩, ident "items", none, default⟩],
    [], .block default, default⟩
  let inner : TypeDeclaration := ⟨[], modifiers ["private"], .class_, ident "Inner", [], none, [], [],
    [], default⟩
  let tools : TypeDeclaration := ⟨[⟨none, [⟨name ["Module"], some arguments, default⟩], default⟩],
    modifiers ["public", "partial"], .class_, ident "Tools", [⟨[], none, ident "T", default⟩], none,
    [named base, named (name ["IDisposable"])], [], [.method run, .type inner], default⟩
  let demo : NamespaceDeclaration := ⟨name ["Demo", "Commands"], false,
    [⟨false, false, some (ident "Text"), name ["System", "String"], default⟩],
    [.type tools], default⟩
  ⟨[⟨true, false, none, name ["System"], default⟩, ⟨false, true, none, name ["System", "Math"], default⟩],
    [], [.namespace_ demo], default⟩

theorem unit_spaced_sample : sampleUnit.IsPrintable ∧
    (SyntaxTree.parse 0 "Sample.cs" (spaced sampleUnit.tokens)).errors = [] ∧
      erase (SyntaxTree.parse 0 "Sample.cs" (spaced sampleUnit.tokens)).root = erase sampleUnit := by
  have hnames : ∀ w ∈ ["System", "Math", "Text", "String", "Demo", "Commands", "Module", "Order",
      "Tools", "T", "Base", "IDisposable", "Command", "Run", "U", "items", "Inner"],
      IsWord w .identifier ∧ w ∉ contextualWords := by
    have h : ["System", "Math", "Text", "String", "Demo", "Commands", "Module", "Order", "Tools",
        "T", "Base", "IDisposable", "Command", "Run", "U", "items", "Inner"].all
        (fun w => isName w && !contextualWords.contains w) = true := by decide +kernel
    intro w hw
    have := List.all_eq_true.1 h w hw
    simp only [Bool.and_eq_true, Bool.not_eq_true', List.contains_eq_mem, decide_eq_false_iff_not]
      at this
    exact ⟨.of_isName this.1, this.2⟩
  have hvalue {t : Token} (htokens : tokensOf t.lexeme = [t]) (hspelling : isSpelling t.lexeme = true)
      (ht : t.kind.isLiteral = true) : (⟨t.lexeme, default⟩ : ExprSyntax).IsValue := by
    have hspelt := spells_tokensOf hspelling
    rw [htokens] at hspelt
    refine ⟨t, hspelt, rfl, fun hk => ?_, .inl ht⟩
    rw [hk] at ht
    cases ht
  have htools : (⟨"\"tools\"", default⟩ : ExprSyntax).IsValue :=
    @hvalue ⟨.stringLiteral, "\"tools\"", default⟩ (by decide +kernel) (by decide +kernel) rfl
  have hthree : (⟨"3", default⟩ : ExprSyntax).IsValue :=
    @hvalue ⟨.integerLiteral, "3", default⟩ (by decide +kernel) (by decide +kernel) rfl
  have hwords : (wordKind "public").isModifier = true ∧ (wordKind "static").isModifier = true ∧
      (wordKind "private").isModifier = true ∧ (wordKind "int").isPredefinedType = true ∧
      wordKind "int" ≠ .identifier := by decide +kernel
  have h : sampleUnit.IsPrintable := by
    simp [sampleUnit, SourceUnit.isPrintable_iff, Using.isPrintable_iff, Method.isPrintable_iff,
      TypeDeclaration.opens_iff, TypeDeclaration.IsPrintable, Member.IsPrintable,
      Declaration.IsPrintable, NamespaceDeclaration.IsPrintable, AttributeSection.isPrintable_iff,
      Attribute.isPrintable_iff, AttributeArgument.isPrintable_iff, TypeParameter.isPrintable_iff,
      Parameter.isPrintable_iff, WrittenModifiers.isPrintable_iff, Body.IsPrintable,
      Name.IsPlain, TypeSyntax.IsPlain, Ident.IsPlain, Token.IsPlain, TypeSyntax.IsPrintable,
      TypeShape.IsPrintable, Name.IsPrintable,
      NameSegment.IsPrintable, Ident.IsName, hnames, htools, hthree, hwords, TypeSyntax.tokens,
      TypeShape.tokens, Name.tokens, NameSegment.tokens, separated, argumentTokens, rankTokens,
      Ident.token, wordToken, markToken]
  exact ⟨h, unit_spaced 0 "Sample.cs" sampleUnit h⟩

end CommandModules

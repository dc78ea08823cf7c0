/-
  Command modules — modules.

  A module is a public class that is not abstract and derives from the base of
  modules.  All this is asked of the type, with all its declarations merged, not
  of one declaration.

  * `Compilation.moduleOf` checks a candidate; `SkipReason` is why one is not
    taken, with its message and diagnostic;
  * `Options.matchesBase` compares one base with the base of modules.
-/
import CommandModules.Registration.Candidate

namespace CommandModules

/-! ## Candidates that are skipped -/

/-- Why nothing is generated for a candidate. -/
inductive SkipReason where
  /-- the declaration was refused, or is not of the compilation -/
  | notDeclared (name : String)
  | abstract (name : String)
  | notPublic (name : String)
  | missingBase (name baseType : String)
  | noCommands (name marker : String)
deriving DecidableEq, Repr

namespace SkipReason

/-- The reason as it is shown. -/
def message : SkipReason → String
  | notDeclared name => s!"type '{name}' was not declared in the compilation"
  | abstract name => s!"module '{name}' is abstract"
  | notPublic name => s!"module '{name}' is not public"
  | missingBase name baseType => s!"type '{name}' does not derive from '{baseType}'"
  | noCommands name marker => s!"module '{name}' has no methods marked with [{marker}]"

/-- The stable id of diagnostics about the reason. -/
def diagnosticId : SkipReason → String
  | abstract _ => "MG0001"
  | notPublic _ => "MG0002"
  | missingBase .. => "MG0003"
  | noCommands .. => "MG0004"
  | notDeclared _ => "MG0005"

/-- The reason as a diagnostic. -/
def diagnostic (r : SkipReason) (location? : Option Location) : Diagnostic :=
  ⟨r.diagnosticId, .info, r.message, location?⟩

end SkipReason

/-! ## Modules -/

/-- A candidate that is a module. -/
structure Module where
  declaration : TypeDeclaration
  symbol : TypeSymbol
  /-- the tree of the declaration -/
  tree : SyntaxTree

/-- Is a base the base of modules? -/
def Options.matchesBase (o : Options) (t : SymbolTable) (base : TypeRef) : Bool :=
  match o.baseMatch with
  | .simple => t.simpleName base == o.baseType
  | .qualified => base.id?.any fun id => t.qualifiedName id == o.baseType

namespace Compilation

variable (c : Compilation)

/-- The symbol and the tree of a candidate that is declared in the
    compilation. -/
def declared? (candidate : Candidate) : Option (TypeSymbol × SyntaxTree) := do
  let tree ← c.treeOf? candidate.key
  let symbol ← c.symbolOf? candidate.key
  some (symbol, tree)

/-- The module that a candidate is, or why it is none. -/
def moduleOf (o : Options) (candidate : Candidate) : Except SkipReason Module :=
  let name := candidate.declaration.name.value
  match c.declared? candidate with
  | none => .error (.notDeclared name)
  | some (symbol, tree) =>
    if symbol.isAbstract then .error (.abstract name)
    else if !symbol.accessibility.isPublic then .error (.notPublic name)
    else if !(c.table.baseChain symbol.id).any (o.matchesBase c.table) then
      .error (.missingBase name o.baseType)
    else .ok ⟨candidate.declaration, symbol, tree⟩

/-- The dotted name of the namespace of a module. -/
def namespaceOf (m : Module) : String :=
  c.table.namespaces.dotted m.symbol.namespace_

end Compilation

end CommandModules

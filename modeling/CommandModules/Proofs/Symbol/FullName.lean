/-
  Command modules — full names of types.

  * `FullName`: a type is named by its namespace, the types around it and its own name with
    its arity; `FullName.id` is its identity, which two full names may share;
  * `SyntaxTree.fullNames` are the full names of what a text declares, in its order;
  * `NewType.IsNamed`, `TypeSymbol.IsNamed`: a declaration and a symbol are of this name;
  * `idOf_eq`: the identity of a declared type is that of its full name.
-/
import CommandModules.Compilation.Declarations
import CommandModules.Proofs.Symbol.Namespace

namespace CommandModules

/-- The full name of a type. -/
inductive FullName where
  /-- right in the namespace with this path -/
  | top (path : List String) (part : NamePart)
  | nested (outer : FullName) (part : NamePart)
deriving DecidableEq, Repr

namespace FullName

/-- The last part. -/
def part : FullName → NamePart
  | top _ part => part
  | nested _ part => part

/-- The path of the namespace. -/
def path : FullName → List String
  | top path _ => path
  | nested outer _ => outer.path

/-- The name of the type around the type. -/
def outer? : FullName → Option FullName
  | top _ _ => none
  | nested outer _ => some outer

/-- The identity of a type with this name. -/
def id : FullName → TypeId
  | top path part => .ofName (".".intercalate (path ++ [part.metadataName]))
  | nested outer part => .nested outer.id part.metadataName

/-- The name of a type in the given one, if any, and else in the namespace. -/
def inside (path : List String) (outer? : Option FullName) (part : NamePart) : FullName :=
  match outer? with
  | some outer => nested outer part
  | none => top path part

@[simp] theorem part_inside (path : List String) (outer? : Option FullName) (part : NamePart) :
    (inside path outer? part).part = part := by
  cases outer? <;> rfl

@[simp] theorem outer?_inside (path : List String) (outer? : Option FullName) (part : NamePart) :
    (inside path outer? part).outer? = outer? := by
  cases outer? <;> rfl

theorem path_inside {path : List String} {outer? : Option FullName} {part : NamePart}
    (h : ∀ outer, outer? = some outer → outer.path = path) :
    (inside path outer? part).path = path := by
  cases outer? with
  | none => rfl
  | some outer => exact h outer rfl

end FullName

/-! ## Names in a text -/

/-- The name of a declared type with its arity. -/
def TypeDeclaration.namePart (t : TypeDeclaration) : NamePart :=
  ⟨t.name.value, t.arity⟩

/-- The name of a delegate with its arity. -/
def Delegate.namePart (d : Delegate) : NamePart :=
  ⟨d.name.value, d.typeParameters.length⟩

mutual

/-- The names of a type and of what is nested in it. -/
def TypeDeclaration.fullNames (path : List String) (outer? : Option FullName) :
    TypeDeclaration → List FullName
  | t@⟨_, _, _, _, _, _, _, _, members, _⟩ =>
    .inside path outer? t.namePart :: Member.allFullNames path (.inside path outer? t.namePart) members

/-- The names of the types and delegates of a member. -/
def Member.fullNames (path : List String) (outer : FullName) : Member → List FullName
  | .type t => t.fullNames path (some outer)
  | .delegate d => [.inside path (some outer) d.namePart]
  | _ => []

/-- The names of the types and delegates of members. -/
def Member.allFullNames (path : List String) (outer : FullName) : List Member → List FullName
  | [] => []
  | m :: ms => m.fullNames path outer ++ Member.allFullNames path outer ms

end

mutual

/-- The names of the types and delegates in a namespace. -/
def NamespaceDeclaration.fullNames (path : List String) : NamespaceDeclaration → List FullName
  | ⟨name, _, _, members, _⟩ => Declaration.allFullNames (path ++ name.path) members

/-- The names of the types and delegates of a declaration. -/
def Declaration.fullNames (path : List String) : Declaration → List FullName
  | .namespace_ n => n.fullNames path
  | .type t => t.fullNames path none
  | .delegate d => [.inside path none d.namePart]

/-- The names of the types and delegates of declarations. -/
def Declaration.allFullNames (path : List String) : List Declaration → List FullName
  | [] => []
  | d :: ds => d.fullNames path ++ Declaration.allFullNames path ds

end

/-- The full names of the types and delegates of a text, in its order. -/
def SyntaxTree.fullNames (t : SyntaxTree) : List FullName :=
  Declaration.allFullNames [] t.root.members

/-! ## What is named -/

/-- The declaration is of a type with this name. -/
structure NewType.IsNamed (d : NewType) (t : SymbolTable) (n : FullName) : Prop where
  part : NamePart.mk d.name d.arity = n.part
  path : t.namespaces.path? d.namespace_ = some n.path
  outer : d.containing? = n.outer?.map FullName.id

/-- The symbol is of a type with this name. -/
structure TypeSymbol.IsNamed (s : TypeSymbol) (t : SymbolTable) (n : FullName) : Prop where
  id : s.id = n.id
  part : NamePart.mk s.name s.arity = n.part
  path : t.namespaces.path? s.namespace_ = some n.path
  outer : s.containing? = n.outer?.map FullName.id

theorem NewType.IsNamed.metadataName_eq {d : NewType} {t : SymbolTable} {n : FullName}
    (h : d.IsNamed t n) : metadataName d.name d.arity = n.part.metadataName := by
  rw [← h.part]
  rfl

/-- **The identity of a declared type is that of its name.** -/
theorem SymbolTable.idOf_eq {d : NewType} {t : SymbolTable} {n : FullName} (h : d.IsNamed t n) :
    t.idOf d = n.id := by
  have hpath : t.namespaces.path d.namespace_ = n.path := by
    rw [Namespaces.path, h.path]
    rfl
  unfold SymbolTable.idOf
  rw [h.outer, h.metadataName_eq]
  cases n with
  | top path part =>
    show TypeId.ofName (t.namespaces.qualified _ _) = _
    rw [Namespaces.qualified, hpath]
    rfl
  | nested outer part => rfl

end CommandModules

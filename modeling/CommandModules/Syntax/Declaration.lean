/-
  Command modules — declarations as written.

  A source unit holds using directives, global attributes and declarations of
  namespaces, types and delegates; a type declaration holds members.  Bodies are
  kept as stretches of text.

  * `TypeDeclaration.methods` are the methods declared right in a type, nested
    types not included;
  * `TypeDeclaration.metadataName` is the name that tells types of different
    arity apart.
-/
import CommandModules.Modifier
import CommandModules.TypeKind
import CommandModules.Syntax.Type

namespace CommandModules

/-! ## Parts of declarations -/

/-- `using System;`, `global using System.Linq;`, `using static System.Math;`,
    `using Alias = Demo.Commands;` -/
structure Using where
  isGlobal : Bool
  isStatic : Bool
  alias? : Option Ident
  name : Name
  span : Span

/-- An argument of an attribute: positional, `Name = value` or `name: value`. -/
structure AttributeArgument where
  nameEquals? : Option Ident
  nameColon? : Option Ident
  /-- missing when no expression could be read -/
  expression? : Option ExprSyntax
  span : Span

/-- The arguments of an attribute, in parentheses. -/
structure AttributeArguments where
  items : List AttributeArgument
  span : Span

/-- An attribute: `Command("echo")`. -/
structure Attribute where
  name : Name
  arguments? : Option AttributeArguments
  span : Span

/-- The arguments, none if there are no parentheses. -/
def Attribute.arguments (a : Attribute) : List AttributeArgument :=
  match a.arguments? with
  | some list => list.items
  | none => []

/-- Attributes in brackets: `[Command("echo"), Obsolete]`, `[return: NotNull]`. -/
structure AttributeSection where
  /-- the word before the colon -/
  target? : Option Ident
  attributes : List Attribute
  span : Span

/-- The modifiers of a declaration. -/
structure WrittenModifiers where
  flags : Modifiers
  /-- the words as they are written, in order -/
  words : List Ident
deriving DecidableEq, Repr, Inhabited

/-- The modifiers, separated by blanks. -/
def WrittenModifiers.text (m : WrittenModifiers) : String :=
  " ".intercalate (m.words.map Ident.name)

/-- A type parameter: `T`, `in T`, `out TResult`. -/
structure TypeParameter where
  attributes : List AttributeSection
  variance? : Option Ident
  name : Ident
  span : Span

/-- `where T : …`, with the constraints as text. -/
structure ConstraintClause where
  parameter : Ident
  constraints : String
  span : Span

/-- A parameter. -/
structure Parameter where
  attributes : List AttributeSection
  modifiers : WrittenModifiers
  type : TypeSyntax
  name : Ident
  default? : Option ExprSyntax
  span : Span

/-- The body of a member. -/
inductive Body where
  /-- a block, known by the stretch of its braces -/
  | block (span : Span)
  /-- `=> expression;` -/
  | expression (e : ExprSyntax)
  /-- a semicolon -/
  | none

/-- A variable of a field or event: `name` or `name = value`. -/
structure Variable where
  name : Ident
  initializer? : Option ExprSyntax
  span : Span

/-- An accessor: `get;`, `private set { … }`. -/
structure Accessor where
  attributes : List AttributeSection
  modifiers : WrittenModifiers
  keyword : Ident
  body : Body
  span : Span

/-! ## Members without members of their own -/

/-- A delegate: `delegate void Handler(string text);` -/
structure Delegate where
  attributes : List AttributeSection
  modifiers : WrittenModifiers
  returnType : TypeSyntax
  name : Ident
  typeParameters : List TypeParameter
  parameters : List Parameter
  constraints : List ConstraintClause
  span : Span

/-- A method. -/
structure Method where
  attributes : List AttributeSection
  modifiers : WrittenModifiers
  returnType : TypeSyntax
  /-- `IDisposable` in `void IDisposable.Dispose()` -/
  explicitInterface? : Option Name
  name : Ident
  typeParameters : List TypeParameter
  parameters : List Parameter
  constraints : List ConstraintClause
  body : Body
  span : Span

/-- The attributes of a method, of every section, in order. -/
def Method.allAttributes (m : Method) : List Attribute :=
  m.attributes.flatMap AttributeSection.attributes

/-- A constructor. -/
structure Constructor where
  attributes : List AttributeSection
  modifiers : WrittenModifiers
  name : Ident
  parameters : List Parameter
  /-- `base(…)` or `this(…)` -/
  initializer? : Option ExprSyntax
  body : Body
  span : Span

/-- A field, possibly of several variables. -/
structure Field where
  attributes : List AttributeSection
  modifiers : WrittenModifiers
  type : TypeSyntax
  declarators : List Variable
  span : Span

/-- A property. -/
structure Property where
  attributes : List AttributeSection
  modifiers : WrittenModifiers
  type : TypeSyntax
  explicitInterface? : Option Name
  name : Ident
  accessors : List Accessor
  /-- the expression of `int Count => items.Count;` -/
  expressionBody? : Option ExprSyntax
  initializer? : Option ExprSyntax
  span : Span

/-- An event, with variables like a field or with accessors. -/
structure Event where
  attributes : List AttributeSection
  modifiers : WrittenModifiers
  type : TypeSyntax
  declarators : List Variable
  accessors : List Accessor
  span : Span

/-- A member of an enum: `Ready`, `Done = 4`. -/
structure EnumMember where
  attributes : List AttributeSection
  name : Ident
  value? : Option ExprSyntax
  span : Span

/-- Members of which only attributes, modifiers and parameters are kept. -/
inductive SpecialKind where
  | destructor
  | indexer
  | operator
  | conversionOperator
deriving DecidableEq, Repr

/-- A destructor, indexer or operator. -/
structure SpecialMember where
  kind : SpecialKind
  attributes : List AttributeSection
  modifiers : WrittenModifiers
  parameters : List Parameter
  span : Span

/-! ## Types, namespaces and units -/

mutual

/-- A declaration of a type. -/
structure TypeDeclaration where
  attributes : List AttributeSection
  modifiers : WrittenModifiers
  kind : TypeKind
  name : Ident
  typeParameters : List TypeParameter
  /-- the parameters of the primary constructor -/
  parameters? : Option (List Parameter)
  /-- base class and interfaces, in order -/
  bases : List TypeSyntax
  constraints : List ConstraintClause
  members : List Member
  span : Span

/-- A member of a type. -/
inductive Member where
  | method (m : Method)
  | constructor (c : Constructor)
  | field (f : Field)
  | property (p : Property)
  | event (e : Event)
  | enumMember (m : EnumMember)
  /-- a nested type -/
  | type (t : TypeDeclaration)
  | delegate (d : Delegate)
  | special (m : SpecialMember)

end

mutual

/-- A declaration of a namespace. -/
structure NamespaceDeclaration where
  name : Name
  /-- `namespace Demo;`, which reaches to the end of the file -/
  isFileScoped : Bool
  usings : List Using
  members : List Declaration
  span : Span

/-- A declaration in a unit or a namespace. -/
inductive Declaration where
  | namespace_ (n : NamespaceDeclaration)
  | type (t : TypeDeclaration)
  | delegate (d : Delegate)

end

/-- What one text declares. -/
structure SourceUnit where
  usings : List Using
  /-- `[assembly: …]` and `[module: …]` -/
  attributes : List AttributeSection
  members : List Declaration
  span : Span

/-- The name of a type of the given arity, as metadata has it: a generic type
    carries its arity behind a grave accent. -/
def metadataName (name : String) (arity : Nat) : String :=
  if arity = 0 then name else s!"{name}\x60{arity}"

namespace TypeDeclaration

/-- The number of type parameters. -/
def arity (t : TypeDeclaration) : Nat :=
  t.typeParameters.length

/-- The name of the type with its arity. -/
def metadataName (t : TypeDeclaration) : String :=
  CommandModules.metadataName t.name.value t.arity

/-- The methods declared right in the type, in order. -/
def methods (t : TypeDeclaration) : List Method :=
  t.members.filterMap fun
    | .method m => some m
    | _ => none

/-- The types nested right in the type, in order. -/
def nestedTypes (t : TypeDeclaration) : List TypeDeclaration :=
  t.members.filterMap fun
    | .type n => some n
    | _ => none

end TypeDeclaration

/-- The stretch of a member. -/
def Member.span : Member → Span
  | .method m => m.span
  | .constructor c => c.span
  | .field f => f.span
  | .property p => p.span
  | .event e => e.span
  | .enumMember m => m.span
  | .type t => t.span
  | .delegate d => d.span
  | .special m => m.span

/-- The stretch of a declaration. -/
def Declaration.span : Declaration → Span
  | .namespace_ n => n.span
  | .type t => t.span
  | .delegate d => d.span

end CommandModules

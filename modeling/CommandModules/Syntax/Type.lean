/-
  Command modules — identifiers, names, types and expressions as written.

  Each node keeps the text it was read from, since names of commands and types
  of parameters are carried over word for word.

  * A `Name` is dotted and may have an alias before it and type arguments at
    each segment;
  * a `TypeSyntax` is a predefined type, a name, a tuple, or another type with a
    suffix;
  * an `ExprSyntax` is a run of tokens that nobody looks into.
-/
import CommandModules.Text.Position

namespace CommandModules

/-- An identifier as it is written, with the `@` of an escaped one. -/
structure Ident where
  name : String
  span : Span
deriving DecidableEq, Repr

/-- The identifier that is meant: what is written, without the `@` that escapes
    it. -/
def Ident.value (i : Ident) : String :=
  match i.name.toList with
  | '@' :: cs => String.ofList cs
  | _ => i.name

mutual

/-- A segment of a dotted name. -/
structure NameSegment where
  ident : Ident
  args : List TypeSyntax

/-- A name, possibly qualified and generic: `Demo.List<int>`,
    `global::Demo.Base`. -/
structure Name where
  /-- the alias before `::` -/
  alias? : Option Ident
  /-- at least one segment -/
  segments : List NameSegment
  text : String
  span : Span

/-- An element of a tuple type: `int Count`, `string`. -/
structure TupleElement where
  type : TypeSyntax
  name? : Option Ident

/-- The outermost form of a type. -/
inductive TypeShape where
  /-- `int`, `string`, `void` -/
  | predefined (word : String)
  | named (name : Name)
  /-- `T[]`, `T[,]` -/
  | array (element : TypeSyntax) (rank : Nat)
  /-- `T?` -/
  | nullable (element : TypeSyntax)
  /-- `T*` -/
  | pointer (element : TypeSyntax)
  /-- `(int, string name)` -/
  | tuple (elements : List TupleElement)

/-- A type as it is written. -/
structure TypeSyntax where
  shape : TypeShape
  text : String
  span : Span

end

/-- An expression as it is written. -/
structure ExprSyntax where
  text : String
  span : Span
deriving DecidableEq, Repr

/-- The number of type arguments at the segment. -/
def NameSegment.arity (s : NameSegment) : Nat :=
  s.args.length

namespace Name

/-- Does the name begin with `global::`? -/
def isGlobal (n : Name) : Bool :=
  match n.alias? with
  | some a => a.name == "global"
  | none => false

/-- The rightmost identifier. -/
def simpleName (n : Name) : String :=
  match n.segments.getLast? with
  | some s => s.ident.value
  | none => ""

/-- The number of type arguments at the rightmost segment. -/
def lastArity (n : Name) : Nat :=
  match n.segments.getLast? with
  | some s => s.arity
  | none => 0

/-- Is it a single segment without an alias? -/
def isSimple (n : Name) : Bool :=
  n.alias?.isNone && n.segments.length == 1

/-- The identifiers of the segments. -/
def path (n : Name) : List String :=
  n.segments.map fun s => s.ident.value

end Name

namespace TypeSyntax

/-- The name of a named type. -/
def name? (t : TypeSyntax) : Option Name :=
  match t.shape with
  | .named n => some n
  | _ => none

/-- Is it `void`? -/
def isVoid (t : TypeSyntax) : Bool :=
  match t.shape with
  | .predefined word => word == "void"
  | _ => false

end TypeSyntax

end CommandModules

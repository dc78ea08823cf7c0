/-
  Command modules — the kinds of declared types.
-/
namespace CommandModules

/-- The kind of a declared type. -/
inductive TypeKind where
  | class_
  | struct
  | interface
  | enum
  /-- `record` or `record class` -/
  | record
  /-- `record struct` -/
  | recordStruct
  | delegate
deriving DecidableEq, Repr, Inhabited

namespace TypeKind

/-- All kinds. -/
def all : List TypeKind :=
  [class_, struct, interface, enum, record, recordStruct, delegate]

/-- Do types of this kind have class semantics, so that they can be a base
    class and have one? -/
def isClass : TypeKind → Bool
  | class_ | record => true
  | _ => false

/-- The words that declare a type of this kind. -/
def keyword : TypeKind → String
  | class_ => "class"
  | struct => "struct"
  | interface => "interface"
  | enum => "enum"
  | record => "record"
  | recordStruct => "record struct"
  | delegate => "delegate"

/-- The kind declared by the given words. -/
def ofKeyword? (word : String) : Option TypeKind :=
  all.find? fun k => k.keyword == word

end TypeKind

end CommandModules

/-
  Command modules — commands.

  A command is a method that carries the marker attribute.  Its name and the
  types of its parameters are taken over as they are written.

  * `Command.ofMethod?` is the command that a method is;
  * `TypeDeclaration.commands` are those of one declaration; other declarations
    of the same type do not count.
-/
import CommandModules.Syntax.Declaration

namespace CommandModules

/-- A method that is a command. -/
structure Command where
  /-- the name of the method -/
  method : String
  /-- the first argument of the marker: `"echo"`, `Names.Echo` -/
  name? : Option String
  /-- the types of the parameters, in order -/
  parameterTypes : List String
deriving DecidableEq, Repr

/-- The command that a method is, if it has an attribute written like the
    marker.  Of several, the first one counts. -/
def Command.ofMethod? (marker : String) (m : Method) : Option Command := do
  let attribute_ ← m.allAttributes.find? fun a => a.name.text == marker
  let name? := do (← attribute_.arguments.head?).expression?
  some ⟨m.name.name, name?.map ExprSyntax.text, m.parameters.map fun p => p.type.text⟩

/-- The commands declared right in a type, in order. -/
def TypeDeclaration.commands (t : TypeDeclaration) (marker : String) : List Command :=
  t.methods.filterMap (Command.ofMethod? marker)

end CommandModules

/-
  Command modules — the fragment that registers commands.

  A fragment is one more part of a module.  It overrides the method by which the
  host asks for commands:

      public partial class Echo
      {
          protected override IEnumerable<CommandInfo> AutoRegister()
          {
              return new CommandInfo[]
              {
                  new CommandInfoBuilder()
                  {
                      Name = "echo",
                      ParameterTypes = new Type[]
                      {
                          typeof(string),
                      },
                  }.Build(),
              };
          }
      }

  * `TypeDeclaration.header` is the line that the part begins with;
  * `Command.registration` is the entry of one command, `TypeDeclaration.part` the
    whole part;
  * `TypeDeclaration.fragment` is its text, in a namespace if one is given.
-/
import CommandModules.Registration.Command
import CommandModules.Registration.Options
import CommandModules.Text.Layout

namespace CommandModules

/-- A group in braces, with `tail` behind the closing one. -/
def Layout.braces (body : List Layout) (tail : String) : Layout :=
  .block "\x7b" ("\x7d" ++ tail) body

/-- Modifiers, kind, name and type parameters, as they are written. -/
def TypeDeclaration.header (t : TypeDeclaration) : String :=
  let modifiers := if t.modifiers.words.isEmpty then "" else t.modifiers.text ++ " "
  let parameters :=
    if t.typeParameters.isEmpty then ""
    else "<" ++ ", ".intercalate (t.typeParameters.map fun p => p.name.name) ++ ">"
  modifiers ++ t.kind.keyword ++ " " ++ t.name.name ++ parameters

/-- The entry of a command. -/
def Command.registration (o : Options) (c : Command) : List Layout :=
  let name := c.name?.toList.map fun name => Layout.line s!"Name = {name},"
  let types := c.parameterTypes.map fun type => Layout.line s!"typeof({type}),"
  let parameters :=
    if types.isEmpty then [] else [.line "ParameterTypes = new Type[]", .braces types ","]
  [.line s!"new {o.builderType}()", .braces (name ++ parameters) ".Build(),"]

/-- One more part of a type, in which commands are registered. -/
def TypeDeclaration.part (t : TypeDeclaration) (commands : List Command) (o : Options) :
    List Layout :=
  let entries := commands.flatMap (Command.registration o)
  let body := [Layout.line s!"return new {o.collectionType}[]", .braces entries ";"]
  [.line t.header, .braces [.line s!"protected override {o.hookSignature}", .braces body ""] ""]

/-- The text of the part, in the namespace of the given name. -/
def TypeDeclaration.fragment (t : TypeDeclaration) (commands : List Command) (o : Options)
    (namespace? : Option String) : String :=
  let part := t.part commands o
  Layout.render o.indent <|
    match namespace? with
    | some name => [.line s!"namespace {name}", .braces part ""]
    | none => part

end CommandModules

/-
  Command modules — the declarations of the host.

  Modules derive from `ModuleBase` and mark commands with `[Command]`; fragments
  override `ModuleBase.AutoRegister` and build `CommandInfo`s.  A compilation that
  refers to `Host.reference` can name these types.
-/
import CommandModules.Compilation.Basic

namespace CommandModules.Host

/-- The namespace of the declarations. -/
def namespaceName : String := "Modgen.Runtime"

/-- Lines, each ended by a line feed. -/
def unlines (ls : List String) : String :=
  String.join (ls.map (· ++ "\n"))

/-- The attribute that marks commands. -/
def commandAttribute : String := unlines [
  "using System;",
  "",
  "namespace Modgen.Runtime",
  "\x7b",
  "    [AttributeUsage(AttributeTargets.Method, AllowMultiple = false, Inherited = true)]",
  "    public sealed class CommandAttribute : Attribute",
  "    \x7b",
  "        public string? Name \x7b get; \x7d",
  "",
  "        public CommandAttribute()",
  "        \x7b",
  "        \x7d",
  "",
  "        public CommandAttribute(string name)",
  "        \x7b",
  "            Name = name;",
  "        \x7d",
  "    \x7d",
  "\x7d"]

/-- The base of modules, and what is registered for a command. -/
def moduleBase : String := unlines [
  "using System;",
  "using System.Collections.Generic;",
  "",
  "namespace Modgen.Runtime",
  "\x7b",
  "    public abstract class ModuleBase",
  "    \x7b",
  "        protected internal virtual IEnumerable<CommandInfo> AutoRegister() => " ++
    "Array.Empty<CommandInfo>();",
  "    \x7d",
  "",
  "    public sealed class CommandInfo",
  "    \x7b",
  "    \x7d",
  "",
  "    public sealed class CommandInfoBuilder",
  "    \x7b",
  "        public string? Name \x7b get; set; \x7d",
  "",
  "        public IEnumerable<Type> ParameterTypes \x7b get; set; \x7d = Array.Empty<Type>();",
  "",
  "        public CommandInfo Build() => new CommandInfo();",
  "    \x7d",
  "\x7d"]

/-- The declarations as a reference; their trees have the ids from `id` on. -/
def reference (id : Nat) : Reference :=
  ⟨namespaceName,
    [.parse id "CommandAttribute.cs" commandAttribute,
      .parse (id + 1) "ModuleBase.cs" moduleBase]⟩

end CommandModules.Host

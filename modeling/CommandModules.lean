import CommandModules.Build
import CommandModules.Proofs.Text.Bytes
import CommandModules.Proofs.Token.Suffix
import CommandModules.Proofs.Token.Tiling
import CommandModules.Proofs.Safe.State
import CommandModules.Proofs.Safe.Rules
import CommandModules.Proofs.Safe.Basic
import CommandModules.Proofs.Safe.Type
import CommandModules.Proofs.Safe.Member
import CommandModules.Proofs.Safe.Lexical
import CommandModules.Proofs.Safe.Unit
import CommandModules.Proofs.Alike.Erase
import CommandModules.Proofs.Alike.Rules
import CommandModules.Proofs.Alike.Basic
import CommandModules.Proofs.Alike.Type
import CommandModules.Proofs.Alike.Member
import CommandModules.Proofs.Alike.Unit
import CommandModules.Proofs.Token.LiteralLocal
import CommandModules.Proofs.Token.Local
import CommandModules.Proofs.Token.Spelling
import CommandModules.Proofs.Token.Words
import CommandModules.Proofs.Token.Lines
import CommandModules.Proofs.Token.Nested
import CommandModules.Proofs.Taken.Rules
import CommandModules.Proofs.Taken.Basic
import CommandModules.Proofs.Taken.Type
import CommandModules.Proofs.Taken.Modifier
import CommandModules.Proofs.Taken.Member
import CommandModules.Proofs.Taken.Unit
import CommandModules.Proofs.Shown.Rules
import CommandModules.Proofs.Shown.Basic
import CommandModules.Proofs.Shown.Type
import CommandModules.Proofs.Syntax.Walk
import CommandModules.Proofs.Syntax.Read
import CommandModules.Proofs.Symbol.BaseChain
import CommandModules.Proofs.Symbol.BaseWalk
import CommandModules.Proofs.Symbol.Namespace
import CommandModules.Proofs.Symbol.Enclosing
import CommandModules.Proofs.Symbol.NamespaceGraph
import CommandModules.Proofs.Symbol.InScope
import CommandModules.Proofs.Symbol.Table
import CommandModules.Proofs.Compilation.Steps
import CommandModules.Proofs.Compilation.Accepted
import CommandModules.Proofs.Registration.Eligible
import CommandModules.Proofs.Registration.Run
import CommandModules.Proofs.Registration.Complete
import CommandModules.Proofs.Compilation.Path
import CommandModules.Proofs.Compilation.Simulation
import CommandModules.Proofs.Compilation.Reference
import CommandModules.Proofs.Registration.Fragment
import CommandModules.Proofs.Registration.Readable
import CommandModules.Proofs.Symbol.Resolve
import CommandModules.Proofs.Printed.Text
import CommandModules.Proofs.Balance.Passage
import CommandModules.Proofs.Balance.Rules
import CommandModules.Proofs.Balance.Type
import CommandModules.Proofs.Balance.Member
import CommandModules.Proofs.Balance.Unit
import CommandModules.Proofs.Symbol.Indexed
import CommandModules.Proofs.Symbol.Ledger
import CommandModules.Proofs.Symbol.Parts
import CommandModules.Proofs.Symbol.MetadataName
import CommandModules.Proofs.Compilation.Named
import CommandModules.Proofs.Compilation.Lookup
import CommandModules.Proofs.Compilation.Rebind
import CommandModules.Proofs.Compilation.Supplement
import CommandModules.Proofs.Compilation.Extended
import CommandModules.Proofs.Compilation.SourcePart
import CommandModules.Proofs.Registration.Added
import CommandModules.Proofs.Registration.Merged
import CommandModules.Proofs.Registration.Captured
import CommandModules.Proofs.Symbol.Described
import CommandModules.Proofs.Symbol.Agree
import CommandModules.Proofs.Symbol.Meaning
import CommandModules.Proofs.Symbol.Imports
import CommandModules.Proofs.Symbol.Dotted
import CommandModules.Proofs.Compilation.Paired
import CommandModules.Proofs.Compilation.Permuted
import CommandModules.Proofs.Compilation.Globals
import CommandModules.Proofs.Compilation.Agree
import CommandModules.Proofs.Compilation.Directives
import CommandModules.Proofs.Compilation.Order
import CommandModules.Proofs.Compilation.Shadow
import CommandModules.Proofs.Compilation.Silence
import CommandModules.Proofs.Registration.Policy
import CommandModules.Proofs.Token.Closed
import CommandModules.Proofs.Respelled.Rules
import CommandModules.Proofs.Respelled.Type
import CommandModules.Proofs.Respelled.Member
import CommandModules.Proofs.Respelled.Unit
import CommandModules.Proofs.Symbol.Bare
import CommandModules.Proofs.Compilation.Respelled
import CommandModules.Proofs.Compilation.Rebound
import CommandModules.Proofs.Compilation.Equivalent
import CommandModules.Proofs.Registration.Respelled
import CommandModules.Proofs.Registration.Trivia
import CommandModules.Proofs.Token.Separated
import CommandModules.Proofs.Token.Quoted
import CommandModules.Proofs.Located.Basic
import CommandModules.Proofs.Located.Rules
import CommandModules.Proofs.Located.Type
import CommandModules.Proofs.Located.Member
import CommandModules.Proofs.Located.Unit
import CommandModules.Proofs.Located.Tree
import CommandModules.Proofs.Located.Order
import CommandModules.Proofs.Located.Relexed
import CommandModules.Proofs.Located.Declared
import CommandModules.Proofs.Compilation.Bases
import CommandModules.Proofs.Registration.Template
import CommandModules.Proofs.Joined.Shift
import CommandModules.Proofs.Joined.Frame
import CommandModules.Proofs.Joined.Rules
import CommandModules.Proofs.Joined.Basic
import CommandModules.Proofs.Joined.Type
import CommandModules.Proofs.Joined.Closing
import CommandModules.Proofs.Joined.Member
import CommandModules.Proofs.Joined.Unit
import CommandModules.Proofs.Joined.Tokens
import CommandModules.Proofs.Joined.Sequence
import CommandModules.Proofs.Joined.Tree
import CommandModules.Proofs.Compilation.Moved
import CommandModules.Proofs.Compilation.Wrapped
import CommandModules.Proofs.Compilation.Restated
import CommandModules.Proofs.Joined.Finished
import CommandModules.Proofs.Joined.Namespace
import CommandModules.Proofs.Compilation.Spelled
import CommandModules.Token.Log
import CommandModules.Proofs.Token.Interpolated
import CommandModules.Proofs.Token.Errors
import CommandModules.Proofs.Symbol.Accessibility
import CommandModules.Proofs.Registration.Qualified
import CommandModules.Proofs.Generation.HintName
import CommandModules.Proofs.Compilation.Verdict
import CommandModules.Proofs.Syntax.Difference
import CommandModules.Proofs.Taken.Ahead
import CommandModules.Proofs.Balance.Group
import CommandModules.Proofs.Safe.Probing

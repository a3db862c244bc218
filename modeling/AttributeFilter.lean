import AttributeFilter.Command.Arguments
import AttributeFilter.Command.Output
import AttributeFilter.Command.Run
import AttributeFilter.Config.Expansion
import AttributeFilter.Config.Settings
import AttributeFilter.Config.Toml.Basic
import AttributeFilter.Config.Toml.Document
import AttributeFilter.Config.Toml.Scalar
import AttributeFilter.Error
import AttributeFilter.Filter.Arena
import AttributeFilter.Filter.Basic
import AttributeFilter.Filter.Builder
import AttributeFilter.Filter.Node
import AttributeFilter.Filter.NodeRef
import AttributeFilter.Filter.Walk
import AttributeFilter.Grammar.Basic
import AttributeFilter.Grammar.Production
import AttributeFilter.Log.Directive
import AttributeFilter.Log.Format
import AttributeFilter.Log.Record
import AttributeFilter.Main
import AttributeFilter.Number.Binary64
import AttributeFilter.Number.Decimal
import AttributeFilter.Number.Layout
import AttributeFilter.Number.Shortest
import AttributeFilter.Operator
import AttributeFilter.Parse
import AttributeFilter.Parser
import AttributeFilter.Path
import AttributeFilter.Position
import AttributeFilter.Proofs.Command.Nodes
import AttributeFilter.Proofs.Command.Tokens
import AttributeFilter.Proofs.Config.Comments
import AttributeFilter.Proofs.Config.Expansion
import AttributeFilter.Proofs.Config.Overrides
import AttributeFilter.Proofs.Filter.Ancestors
import AttributeFilter.Proofs.Filter.Arity
import AttributeFilter.Proofs.Filter.Beside
import AttributeFilter.Proofs.Filter.Builder
import AttributeFilter.Proofs.Filter.Descendants
import AttributeFilter.Proofs.Filter.Forest
import AttributeFilter.Proofs.Filter.Joining
import AttributeFilter.Proofs.Filter.Json
import AttributeFilter.Proofs.Filter.Layout
import AttributeFilter.Proofs.Filter.OfTree
import AttributeFilter.Proofs.Filter.Outline
import AttributeFilter.Proofs.Filter.Pending
import AttributeFilter.Proofs.Filter.Postorder
import AttributeFilter.Proofs.Filter.Qualified
import AttributeFilter.Proofs.Filter.Raising
import AttributeFilter.Proofs.Filter.Shows
import AttributeFilter.Proofs.Filter.Standing
import AttributeFilter.Proofs.Grammar.Acceptance
import AttributeFilter.Proofs.Grammar.Accepted
import AttributeFilter.Proofs.Grammar.Agreement
import AttributeFilter.Proofs.Grammar.Arrangement
import AttributeFilter.Proofs.Grammar.Bounds
import AttributeFilter.Proofs.Grammar.Building
import AttributeFilter.Proofs.Grammar.Completeness
import AttributeFilter.Proofs.Grammar.Composition
import AttributeFilter.Proofs.Grammar.Content
import AttributeFilter.Proofs.Grammar.Derivation
import AttributeFilter.Proofs.Grammar.Embedding
import AttributeFilter.Proofs.Grammar.Faults
import AttributeFilter.Proofs.Grammar.Halting
import AttributeFilter.Proofs.Grammar.Levels
import AttributeFilter.Proofs.Grammar.Limit
import AttributeFilter.Proofs.Grammar.Mirroring
import AttributeFilter.Proofs.Grammar.Nesting
import AttributeFilter.Proofs.Grammar.Phases
import AttributeFilter.Proofs.Grammar.Qualification
import AttributeFilter.Proofs.Grammar.Qualifying
import AttributeFilter.Proofs.Grammar.Reading
import AttributeFilter.Proofs.Grammar.Readmission
import AttributeFilter.Proofs.Grammar.Refusal
import AttributeFilter.Proofs.Grammar.Rendering
import AttributeFilter.Proofs.Grammar.Reparsing
import AttributeFilter.Proofs.Grammar.Rules
import AttributeFilter.Proofs.Grammar.Soundness
import AttributeFilter.Proofs.Grammar.Spelling
import AttributeFilter.Proofs.Grammar.Unambiguous
import AttributeFilter.Proofs.Grammar.Viable
import AttributeFilter.Proofs.Log.Reporting
import AttributeFilter.Proofs.Number.Nearest
import AttributeFilter.Proofs.Number.Shortest
import AttributeFilter.Proofs.Number.Written
import AttributeFilter.Proofs.Parser.Matching
import AttributeFilter.Proofs.Parser.Runs
import AttributeFilter.Proofs.Parser.Yields
import AttributeFilter.Proofs.Text.Json
import AttributeFilter.Proofs.Text.Lines
import AttributeFilter.Proofs.Text.Quoted
import AttributeFilter.Proofs.Text.Runs
import AttributeFilter.Proofs.Token.Adjoining
import AttributeFilter.Proofs.Token.Admits
import AttributeFilter.Proofs.Token.Apart
import AttributeFilter.Proofs.Token.Cuts
import AttributeFilter.Proofs.Token.Desk
import AttributeFilter.Proofs.Token.Division
import AttributeFilter.Proofs.Token.Following
import AttributeFilter.Proofs.Token.Lexing
import AttributeFilter.Proofs.Token.Literal
import AttributeFilter.Proofs.Token.Makes
import AttributeFilter.Proofs.Token.Naming
import AttributeFilter.Proofs.Token.Places
import AttributeFilter.Proofs.Token.Recognition
import AttributeFilter.Proofs.Token.Respelling
import AttributeFilter.Proofs.Token.Sight
import AttributeFilter.Proofs.Token.Spelling
import AttributeFilter.Proofs.Token.Split
import AttributeFilter.Proofs.Tree.Canonical
import AttributeFilter.Proofs.Tree.Content
import AttributeFilter.Proofs.Tree.Json
import AttributeFilter.Proofs.Tree.Levels
import AttributeFilter.Proofs.Tree.Nodes
import AttributeFilter.Proofs.Tree.Parts
import AttributeFilter.Proofs.Tree.Printed
import AttributeFilter.Proofs.Tree.Settled
import AttributeFilter.Proofs.Workbench.Atomic
import AttributeFilter.Proofs.Workbench.Finished
import AttributeFilter.Proofs.Workbench.Issued
import AttributeFilter.Proofs.Workbench.Orders
import AttributeFilter.Proofs.Workbench.Reparsing
import AttributeFilter.Proofs.Workbench.Run
import AttributeFilter.Proofs.Workbench.Sound
import AttributeFilter.Proofs.Workbench.Steps
import AttributeFilter.Text.Alphanumeric
import AttributeFilter.Text.Basic
import AttributeFilter.Text.Blank
import AttributeFilter.Text.Json
import AttributeFilter.Text.Letter
import AttributeFilter.Text.Lines
import AttributeFilter.Text.Quoted
import AttributeFilter.Token.Basic
import AttributeFilter.Token.Cursor
import AttributeFilter.Token.Lexeme
import AttributeFilter.Token.Scanner
import AttributeFilter.Tree.Basic
import AttributeFilter.Tree.Json
import AttributeFilter.Tree.Text
import AttributeFilter.Value
import AttributeFilter.Workbench

import FluentShift.Config.File
import FluentShift.Config.Reading
import FluentShift.Config.Settings
import FluentShift.Config.Validation
import FluentShift.Engine.Bus
import FluentShift.Engine.Context
import FluentShift.Engine.Event
import FluentShift.Engine.Script
import FluentShift.Engine.Unit
import FluentShift.Failure
import FluentShift.Files.Access
import FluentShift.Files.Desk
import FluentShift.Files.Disk
import FluentShift.Files.FilePath
import FluentShift.Files.Glob
import FluentShift.Files.Retry
import FluentShift.Files.System
import FluentShift.Imports.Add
import FluentShift.Imports.Conflicts
import FluentShift.Imports.Edit
import FluentShift.Imports.Reconcile
import FluentShift.Imports.Remove
import FluentShift.Log
import FluentShift.Mapping
import FluentShift.Migration.Batch
import FluentShift.Migration.Candidate
import FluentShift.Migration.Discover
import FluentShift.Migration.Jobs
import FluentShift.Migration.Steps
import FluentShift.Migration.Tools
import FluentShift.Proofs.Accepted
import FluentShift.Proofs.Config.Loading
import FluentShift.Proofs.Config.Opening
import FluentShift.Proofs.Config.RoundTrip
import FluentShift.Proofs.Engine.Answers
import FluentShift.Proofs.Engine.Contexts
import FluentShift.Proofs.Engine.Delivery
import FluentShift.Proofs.Engine.Grouping
import FluentShift.Proofs.Engine.Nesting
import FluentShift.Proofs.Engine.Sequence
import FluentShift.Proofs.Engine.Twins
import FluentShift.Proofs.Engine.Unit
import FluentShift.Proofs.Files.Growth
import FluentShift.Proofs.Files.Paths
import FluentShift.Proofs.Files.Retrying
import FluentShift.Proofs.Files.Tree
import FluentShift.Proofs.Files.Twins
import FluentShift.Proofs.Files.Walk
import FluentShift.Proofs.Files.Work
import FluentShift.Proofs.Imports.Adding
import FluentShift.Proofs.Imports.Idle
import FluentShift.Proofs.Imports.LastLine
import FluentShift.Proofs.Imports.Plan
import FluentShift.Proofs.Imports.Pruning
import FluentShift.Proofs.Imports.Removal
import FluentShift.Proofs.Imports.Report
import FluentShift.Proofs.Imports.Statements
import FluentShift.Proofs.Metadata
import FluentShift.Proofs.Migration.Agreement
import FluentShift.Proofs.Migration.Backup
import FluentShift.Proofs.Migration.Batch
import FluentShift.Proofs.Migration.Candidate
import FluentShift.Proofs.Migration.Effect
import FluentShift.Proofs.Migration.File
import FluentShift.Proofs.Migration.InPlace
import FluentShift.Proofs.Migration.Order
import FluentShift.Proofs.Migration.Steps
import FluentShift.Proofs.Migration.Summary
import FluentShift.Proofs.Migration.Targets
import FluentShift.Proofs.Migration.Untouched
import FluentShift.Proofs.Result
import FluentShift.Proofs.Rewrite.Accounting
import FluentShift.Proofs.Rewrite.Binding
import FluentShift.Proofs.Rewrite.Capture
import FluentShift.Proofs.Rewrite.Comments
import FluentShift.Proofs.Rewrite.Deciding
import FluentShift.Proofs.Rewrite.Direct
import FluentShift.Proofs.Rewrite.Emission
import FluentShift.Proofs.Rewrite.Failures
import FluentShift.Proofs.Rewrite.Forms
import FluentShift.Proofs.Rewrite.Imports
import FluentShift.Proofs.Rewrite.Leftover
import FluentShift.Proofs.Rewrite.Locality
import FluentShift.Proofs.Rewrite.Placement
import FluentShift.Proofs.Rewrite.Repeat
import FluentShift.Proofs.Rewrite.Retelling
import FluentShift.Proofs.Rewrite.Settlement
import FluentShift.Proofs.Rewrite.Template
import FluentShift.Proofs.Rewrite.Verbatim
import FluentShift.Proofs.Rewrite.Walk
import FluentShift.Proofs.Runs
import FluentShift.Proofs.Scope.Bound
import FluentShift.Proofs.Scope.Grown
import FluentShift.Proofs.Scope.Meaning
import FluentShift.Proofs.Scope.Steady
import FluentShift.Proofs.Source.Calls
import FluentShift.Proofs.Source.Derivation
import FluentShift.Proofs.Source.Filled
import FluentShift.Proofs.Source.ImportLine
import FluentShift.Proofs.Source.Items
import FluentShift.Proofs.Source.Paths
import FluentShift.Proofs.Source.Quotes
import FluentShift.Proofs.Source.Reading
import FluentShift.Proofs.Source.Shapes
import FluentShift.Proofs.Source.Spacing
import FluentShift.Proofs.Source.Terms
import FluentShift.Proofs.Source.Writing
import FluentShift.Proofs.Types.Bindings
import FluentShift.Proofs.Types.Builtins
import FluentShift.Proofs.Types.Inference
import FluentShift.Proofs.Types.Literals
import FluentShift.Proofs.Types.Rebinding
import FluentShift.Proofs.Types.Walk
import FluentShift.Result
import FluentShift.Rewrite.Classification
import FluentShift.Rewrite.Emission
import FluentShift.Rewrite.Migrate
import FluentShift.Rewrite.Outcome
import FluentShift.Rewrite.Plan
import FluentShift.Rewrite.Splice
import FluentShift.Scope.Names
import FluentShift.Scope.Table
import FluentShift.Scope.Walk
import FluentShift.Source.Body
import FluentShift.Source.Fault
import FluentShift.Source.File
import FluentShift.Source.Grammar
import FluentShift.Source.Import
import FluentShift.Source.Lexeme
import FluentShift.Source.Literal
import FluentShift.Source.Parse
import FluentShift.Source.Rules
import FluentShift.Source.Shape
import FluentShift.Source.Token
import FluentShift.Source.Tree
import FluentShift.Source.View
import FluentShift.Text.Blank
import FluentShift.Text.Identifier
import FluentShift.Text.Quoted
import FluentShift.Text.Split
import FluentShift.Text.Upper
import FluentShift.Text.Utf8
import FluentShift.Types.Bindings
import FluentShift.Types.Collect
import FluentShift.Types.Descriptor
import FluentShift.Types.Infer
import FluentShift.Types.Oracle
import FluentShift.Value
import FluentShift.Value.Arithmetic
import FluentShift.Value.Text
import FluentShift.Yaml.Cursor
import FluentShift.Yaml.Document
import FluentShift.Yaml.Node
import FluentShift.Yaml.Scalar
import FluentShift.Yaml.Text
import FluentShift.Yaml.Value

import Abridge.Digest
import Abridge.Disk.Backup
import Abridge.Disk.Basic
import Abridge.Disk.Discovery
import Abridge.Disk.Error
import Abridge.Disk.Operations
import Abridge.Failure
import Abridge.Glossary
import Abridge.Json.Decode
import Abridge.Json.Reader
import Abridge.Json.Value
import Abridge.Literal.Table
import Abridge.Literal.Value
import Abridge.Manifest.Basic
import Abridge.Manifest.Json
import Abridge.Names.Classifier
import Abridge.Names.Role
import Abridge.Names.ShortNames
import Abridge.Names.Survey
import Abridge.Number.Double
import Abridge.Number.Text
import Abridge.Output
import Abridge.Path
import Abridge.Pattern.Basic
import Abridge.Pattern.Parse
import Abridge.Plan.Apply
import Abridge.Plan.Basic
import Abridge.Plan.Hoist
import Abridge.Profile.Basic
import Abridge.Profile.Compiled
import Abridge.Profile.Json
import Abridge.Proofs.Acceptance
import Abridge.Proofs.Account
import Abridge.Proofs.Ambience
import Abridge.Proofs.Artifacts
import Abridge.Proofs.Assignment
import Abridge.Proofs.Atomicity
import Abridge.Proofs.Backups
import Abridge.Proofs.Bindings
import Abridge.Proofs.Capture
import Abridge.Proofs.Chains
import Abridge.Proofs.Clashes
import Abridge.Proofs.Collisions
import Abridge.Proofs.Counters
import Abridge.Proofs.Coverage
import Abridge.Proofs.Declaration
import Abridge.Proofs.Descent
import Abridge.Proofs.Documents
import Abridge.Proofs.DynamicScope
import Abridge.Proofs.Effects
import Abridge.Proofs.Exactness
import Abridge.Proofs.Extension
import Abridge.Proofs.Faults
import Abridge.Proofs.Globals
import Abridge.Proofs.Grammar
import Abridge.Proofs.Guards
import Abridge.Proofs.Hoisting
import Abridge.Proofs.Inlining
import Abridge.Proofs.Interface
import Abridge.Proofs.KeyOrder
import Abridge.Proofs.Leftovers
import Abridge.Proofs.Lookup
import Abridge.Proofs.Merging
import Abridge.Proofs.NaturalOrder
import Abridge.Proofs.Numerals
import Abridge.Proofs.Offsets
import Abridge.Proofs.Once
import Abridge.Proofs.Outstanding
import Abridge.Proofs.Paths
import Abridge.Proofs.Placement
import Abridge.Proofs.Promotion
import Abridge.Proofs.Recognition
import Abridge.Proofs.Record
import Abridge.Proofs.Recovery
import Abridge.Proofs.Repetition
import Abridge.Proofs.Restoration
import Abridge.Proofs.Reversal
import Abridge.Proofs.Rounding
import Abridge.Proofs.Runs
import Abridge.Proofs.Scopes
import Abridge.Proofs.Settling
import Abridge.Proofs.Shape
import Abridge.Proofs.ShortNames
import Abridge.Proofs.Sorting
import Abridge.Proofs.Spans
import Abridge.Proofs.Spellings
import Abridge.Proofs.Table
import Abridge.Proofs.Tags
import Abridge.Proofs.Thrift
import Abridge.Proofs.Tokens
import Abridge.Proofs.Validity
import Abridge.Proofs.Values
import Abridge.Proofs.Visibility
import Abridge.Proofs.Ways
import Abridge.Proofs.Words
import Abridge.Review
import Abridge.Run.Basic
import Abridge.Run.OnDisk
import Abridge.Scope.Clash
import Abridge.Scope.Declared
import Abridge.Scope.Fault
import Abridge.Scope.Protected
import Abridge.Scope.Resolution
import Abridge.Syntax.Grammar.Expressions
import Abridge.Syntax.Grammar.Functions
import Abridge.Syntax.Grammar.Markup
import Abridge.Syntax.Grammar.Names
import Abridge.Syntax.Grammar.Patterns
import Abridge.Syntax.Grammar.Statements
import Abridge.Syntax.Grammar.Types
import Abridge.Syntax.Layout.Expressions
import Abridge.Syntax.Layout.Literals
import Abridge.Syntax.Layout.Out
import Abridge.Syntax.Layout.Statements
import Abridge.Syntax.Layout.Types
import Abridge.Syntax.Level
import Abridge.Syntax.Parse
import Abridge.Syntax.Print
import Abridge.Syntax.Reader
import Abridge.Syntax.Token
import Abridge.Syntax.Tree
import Abridge.Table
import Abridge.Text.Classes
import Abridge.Text.Hex
import Abridge.Text.Identifier

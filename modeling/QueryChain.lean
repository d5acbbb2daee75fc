import QueryChain.Chain.Assemble
import QueryChain.Chain.Build
import QueryChain.Chain.Collect
import QueryChain.Chain.Error
import QueryChain.Chain.Operator
import QueryChain.Chain.Parse
import QueryChain.Constant
import QueryChain.Decimal.Shortest
import QueryChain.Expr.Basic
import QueryChain.Expr.Build
import QueryChain.Expr.Equality
import QueryChain.Expr.Fold
import QueryChain.Expr.Json
import QueryChain.Expr.Text
import QueryChain.Expr.Walk
import QueryChain.Integer
import QueryChain.Json.Basic
import QueryChain.Json.Number
import QueryChain.Json.Read
import QueryChain.Json.Record
import QueryChain.Json.Text
import QueryChain.NameMap
import QueryChain.Proofs.Chain.Acceptance
import QueryChain.Proofs.Chain.Assembled
import QueryChain.Proofs.Chain.Bindings
import QueryChain.Proofs.Chain.Clauses
import QueryChain.Proofs.Chain.Comprehension
import QueryChain.Proofs.Chain.Copies
import QueryChain.Proofs.Chain.Depth
import QueryChain.Proofs.Chain.Elements
import QueryChain.Proofs.Chain.Embedded
import QueryChain.Proofs.Chain.Enclosing
import QueryChain.Proofs.Chain.Endings
import QueryChain.Proofs.Chain.Faults
import QueryChain.Proofs.Chain.Generated
import QueryChain.Proofs.Chain.Keys
import QueryChain.Proofs.Chain.Links
import QueryChain.Proofs.Chain.Located
import QueryChain.Proofs.Chain.NodeTypes
import QueryChain.Proofs.Chain.Pairing
import QueryChain.Proofs.Chain.Replaced
import QueryChain.Proofs.Chain.Scanned
import QueryChain.Proofs.Chain.Sources
import QueryChain.Proofs.Chain.Spine
import QueryChain.Proofs.Expr.Arithmetic
import QueryChain.Proofs.Expr.Calls
import QueryChain.Proofs.Expr.Changes
import QueryChain.Proofs.Expr.Comparisons
import QueryChain.Proofs.Expr.Folding
import QueryChain.Proofs.Expr.Meaning
import QueryChain.Proofs.Expr.Normal
import QueryChain.Proofs.Expr.Parts
import QueryChain.Proofs.Expr.Substitution
import QueryChain.Proofs.Expr.Subterms
import QueryChain.Proofs.Expr.Types
import QueryChain.Proofs.Expr.Walks
import QueryChain.Proofs.Json.Constants
import QueryChain.Proofs.Json.Expressions
import QueryChain.Proofs.Json.Numerals
import QueryChain.Proofs.Json.Texts
import QueryChain.Proofs.Number.Order
import QueryChain.Proofs.Query.Tree
import QueryChain.Proofs.Resolve.Aliases
import QueryChain.Proofs.Resolve.Attach
import QueryChain.Proofs.Resolve.Bundles
import QueryChain.Proofs.Resolve.Causes
import QueryChain.Proofs.Resolve.Closure
import QueryChain.Proofs.Resolve.EntityKeys
import QueryChain.Proofs.Resolve.Exec
import QueryChain.Proofs.Resolve.Filing
import QueryChain.Proofs.Resolve.Hops
import QueryChain.Proofs.Resolve.Joins
import QueryChain.Proofs.Resolve.Looks
import QueryChain.Proofs.Resolve.Naming
import QueryChain.Proofs.Resolve.Nearest
import QueryChain.Proofs.Resolve.NestedKeys
import QueryChain.Proofs.Resolve.Order
import QueryChain.Proofs.Resolve.Owner
import QueryChain.Proofs.Resolve.Parameters
import QueryChain.Proofs.Resolve.PlainAliases
import QueryChain.Proofs.Resolve.Plan
import QueryChain.Proofs.Resolve.Refusal
import QueryChain.Proofs.Resolve.Repeat
import QueryChain.Proofs.Resolve.Requests
import QueryChain.Proofs.Resolve.Routes
import QueryChain.Proofs.Resolve.Scope
import QueryChain.Proofs.Resolve.Sharing
import QueryChain.Proofs.Resolve.Shortcut
import QueryChain.Proofs.Resolve.Variables
import QueryChain.Proofs.Schema.Answers
import QueryChain.Proofs.Schema.Apart
import QueryChain.Proofs.Schema.Valid
import QueryChain.Query.Basic
import QueryChain.Query.Text
import QueryChain.Resolve.Alias
import QueryChain.Resolve.Error
import QueryChain.Resolve.Policy
import QueryChain.Resolve.Reference
import QueryChain.Resolve.Session
import QueryChain.Resolve.Table
import QueryChain.Schema.Basic
import QueryChain.Schema.Document
import QueryChain.Schema.Read
import QueryChain.Schema.School
import QueryChain.Schema.Validate
import QueryChain.Settings
import QueryChain.Text.Blank
import QueryChain.TypeName
import QueryChain.Yaml.Cursor
import QueryChain.Yaml.Node
import QueryChain.Yaml.Scalar
import QueryChain.Yaml.Token

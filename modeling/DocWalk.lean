import DocWalk.Compiler
import DocWalk.Json.Fetch
import DocWalk.Json.Plan
import DocWalk.Json.Traversal
import DocWalk.Settings.Document
import DocWalk.Proofs.Text.Literal
import DocWalk.Proofs.Expr.Fold
import DocWalk.Proofs.Fetch.Filter
import DocWalk.Proofs.Fetch.ReadBack
import DocWalk.Proofs.Traversal.Reached
import DocWalk.Proofs.Fetch.Outcome
import DocWalk.Proofs.Expr.Columns
import DocWalk.Proofs.Expr.Hoist
import DocWalk.Proofs.Fetch.Scope
import DocWalk.Proofs.Partition.Session
import DocWalk.Proofs.Fetch.Stability
import DocWalk.Proofs.Fetch.Clauses
import DocWalk.Proofs.Json.Document
import DocWalk.Proofs.Json.Nesting
import DocWalk.Proofs.Json.Decode
import DocWalk.Proofs.Json.Fetch
import DocWalk.Proofs.Json.Plan
import DocWalk.Proofs.Fetch.Shipping
import DocWalk.Proofs.Fetch.Orientation
import DocWalk.Proofs.Fetch.Acceptance
import DocWalk.Proofs.Partition.Alphabet
import DocWalk.Proofs.Partition.Narrowing
import DocWalk.Proofs.Number.ValueOrder
import DocWalk.Proofs.Partition.KeyOperand
import DocWalk.Proofs.Fetch.Agreement
import DocWalk.Proofs.Fetch.Grouping
import DocWalk.Proofs.Expr.Discovery
import DocWalk.Proofs.Expr.PathText
import DocWalk.Proofs.Fetch.Entries
import DocWalk.Proofs.Fetch.PassOrder

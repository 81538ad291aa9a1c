import PathQuery.Main
import PathQuery.Proofs.Query.Validity
import PathQuery.Proofs.Count.Scoping
import PathQuery.Proofs.Count.Capture
import PathQuery.Proofs.Count.Partition
import PathQuery.Proofs.Count.Dominance
import PathQuery.Proofs.Count.Writing
import PathQuery.Proofs.Query.Mandatory
import PathQuery.Proofs.Pattern.Separation
import PathQuery.Proofs.Labels.Query
import PathQuery.Proofs.Query.Header
import PathQuery.Proofs.Query.Denotation
import PathQuery.Proofs.Order.Query
import PathQuery.Proofs.Outline.Agreement
import PathQuery.Proofs.Query.Bound
import PathQuery.Proofs.Query.Braces
import PathQuery.Proofs.Query.Projected
import PathQuery.Proofs.Query.Stripping
import PathQuery.Proofs.Query.TripleLines
import PathQuery.Proofs.Document.Reported
import PathQuery.Proofs.Selection.Rereading
import PathQuery.Proofs.Schema.Rereading
import PathQuery.Proofs.Options.Rereading
import PathQuery.Proofs.Traversal.Ascent
import PathQuery.Proofs.Traversal.Chains
import PathQuery.Proofs.Traversal.Preorder
import PathQuery.Proofs.Traversal.Branches
import PathQuery.Proofs.Query.Openings
import PathQuery.Proofs.Traversal.Precedence
import PathQuery.Proofs.Traversal.Inheritance
import PathQuery.Proofs.Traversal.Levels
import PathQuery.Proofs.Pattern.Spelling
import PathQuery.Proofs.Pattern.Requests
import PathQuery.Proofs.Pattern.Remarks
import PathQuery.Proofs.Query.Marker
import PathQuery.Proofs.Outline.Spanning
import PathQuery.Proofs.Journal.Accounting
import PathQuery.Proofs.Query.Limiting
import PathQuery.Proofs.Tool.Bounded
import PathQuery.Proofs.Pattern.Answers
import PathQuery.Proofs.Pattern.Variables

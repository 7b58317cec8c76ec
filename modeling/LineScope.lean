import LineScope.Collapse.LogicalLines
import LineScope.Collapse.Outcome
import LineScope.Collapse.Statements
import LineScope.Collapse.Unchanged
import LineScope.Config.Discovery
import LineScope.Config.FileTree
import LineScope.Config.Path
import LineScope.Config.Settings
import LineScope.Diff.Compact
import LineScope.Diff.Matching
import LineScope.Diff.Myers
import LineScope.Diff.Patience
import LineScope.Diff.Script
import LineScope.Diff.Table
import LineScope.Parse.Construct
import LineScope.Parse.Cursor
import LineScope.Parse.Lowering
import LineScope.Parse.Report
import LineScope.Pipeline
import LineScope.Proofs.Collapse.Attachment
import LineScope.Proofs.Collapse.ClearHeaders
import LineScope.Proofs.Collapse.Failure
import LineScope.Proofs.Collapse.Fixpoint
import LineScope.Proofs.Collapse.FurthestEnd
import LineScope.Proofs.Collapse.KeptLines
import LineScope.Proofs.Collapse.LineSpans
import LineScope.Proofs.Collapse.PassChoice
import LineScope.Proofs.Collapse.Shedding
import LineScope.Proofs.Collapse.Spanless
import LineScope.Proofs.Config.NearestFile
import LineScope.Proofs.Diff.Tidying
import LineScope.Proofs.Parse.Arrangement
import LineScope.Proofs.Parse.FirstFault
import LineScope.Proofs.Parse.Numbering
import LineScope.Proofs.Parse.Programs
import LineScope.Proofs.Parse.StatementForm
import LineScope.Proofs.Parse.Typesetting
import LineScope.Proofs.Range.Reading
import LineScope.Proofs.Range.Union
import LineScope.Proofs.Relocation.Identity
import LineScope.Proofs.Relocation.Image
import LineScope.Proofs.Relocation.Order
import LineScope.Proofs.Tree.BuildOrder
import LineScope.Proofs.Tree.Insertion
import LineScope.Proofs.Tree.OuterLeaves
import LineScope.Proofs.Tree.Reachable
import LineScope.Proofs.Tree.Traversal
import LineScope.Range.Basic
import LineScope.Range.LineSet
import LineScope.Range.Parser
import LineScope.Relocation.Range
import LineScope.Relocation.Segment
import LineScope.Text.Alphabetic
import LineScope.Text.Bisect
import LineScope.Text.Bytes
import LineScope.Text.GraphemeExtend
import LineScope.Text.LineIndex
import LineScope.Text.Lines
import LineScope.Text.Printable
import LineScope.Text.Quoted
import LineScope.Toml.Document
import LineScope.Toml.Moment
import LineScope.Toml.Number
import LineScope.Toml.Reader
import LineScope.Toml.Text
import LineScope.Toml.Value
import LineScope.Tree.Basic
import LineScope.Tree.Builder
import LineScope.Tree.Edit
import LineScope.Tree.Leaf
import LineScope.Tree.Lemmas
import LineScope.Tree.Shape
import LineScope.Tree.Token
import LineScope.Tree.Walk

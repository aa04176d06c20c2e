import TreeEdit.Text.Blank
import TreeEdit.Text.Bytes
import TreeEdit.Error
import TreeEdit.Handle
import TreeEdit.Tuple.Parser
import TreeEdit.SourceMap.Basic
import TreeEdit.Engine.Walk
import TreeEdit.Decimal.Float
import TreeEdit.Json.Fault
import TreeEdit.Json.Number
import TreeEdit.Options.Reader
import TreeEdit.Outcome.Chain
import TreeEdit.Script.Steps
import TreeEdit.Proofs.Buffer.Scan
import TreeEdit.Proofs.Engine.RunBuffer
import TreeEdit.Proofs.Engine.BottomUp
import TreeEdit.Proofs.Engine.Moment
import TreeEdit.Proofs.Engine.TurnStates
import TreeEdit.Proofs.Engine.Status
import TreeEdit.Proofs.Engine.Posts
import TreeEdit.Proofs.Engine.Lifecycle
import TreeEdit.Proofs.Engine.Settlement
import TreeEdit.Proofs.Engine.Deferral
import TreeEdit.Proofs.Engine.Nesting
import TreeEdit.Proofs.Tuple.Grammar
import TreeEdit.Proofs.Engine.AtWork
import TreeEdit.Proofs.Engine.Changes
import TreeEdit.Proofs.Engine.Routes
import TreeEdit.Proofs.Engine.Beside
import TreeEdit.Proofs.Engine.Independence
import TreeEdit.Proofs.Engine.Alone
import TreeEdit.Proofs.SourceMap.Order
import TreeEdit.Proofs.SourceMap.Tracing
import TreeEdit.Proofs.Engine.Endings
import TreeEdit.Proofs.Buffer.Kept
import TreeEdit.Proofs.Engine.Grants
import TreeEdit.Proofs.Engine.Unrelated
import TreeEdit.Proofs.Buffer.Parts
import TreeEdit.Proofs.Engine.Accounting
import TreeEdit.Proofs.Json.RoundTrip
import TreeEdit.Proofs.Options.RoundTrip
import TreeEdit.Proofs.Engine.Overriding
import TreeEdit.Proofs.Tuple.Layout
import TreeEdit.Proofs.Tuple.Rewriting
import TreeEdit.Proofs.Buffer.Commuting
import TreeEdit.Proofs.SourceMap.Edited
import TreeEdit.Proofs.SourceMap.Lossless
import TreeEdit.Proofs.SourceMap.Resolutions
import TreeEdit.Proofs.Tuple.FirstFault
import TreeEdit.Proofs.Tuple.Spans
import TreeEdit.Proofs.Engine.Numbering
import TreeEdit.Proofs.Engine.Ancestry
import TreeEdit.Proofs.Handle.Identity
import TreeEdit.Proofs.Handle.Sharing
import TreeEdit.Proofs.Json.Injective
import TreeEdit.Proofs.Json.Grammar
import TreeEdit.Proofs.Json.Records
import TreeEdit.Proofs.Tree.Faithful
import TreeEdit.Proofs.Options.Loading
import TreeEdit.Proofs.Buffer.Edges
import TreeEdit.Proofs.Tuple.Dissection

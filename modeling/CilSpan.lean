import CilSpan.Body.Bench
import CilSpan.Body.Listing
import CilSpan.Draft.Desk
import CilSpan.Machine.Run
import CilSpan.Machine.Script
import CilSpan.Batch.Plan
import CilSpan.Format.Config
import CilSpan.Format.Decl
import CilSpan.Format.Report
import CilSpan.Format.Trace
import CilSpan.Proofs.Span.Edits
import CilSpan.Proofs.Machine.Embed
import CilSpan.Proofs.Machine.Width
import CilSpan.Proofs.Span.BracketForm
import CilSpan.Proofs.Span.Bracketed
import CilSpan.Proofs.Span.Around
import CilSpan.Proofs.Span.BracketBehaviour
import CilSpan.Proofs.Span.BracketOnce
import CilSpan.Proofs.Span.ConstructorOrder
import CilSpan.Proofs.Span.ConstructorBehaviour
import CilSpan.Proofs.Machine.Beats
import CilSpan.Proofs.Span.CorrelateForm
import CilSpan.Proofs.Span.Correlated
import CilSpan.Proofs.Span.CorrelateBehaviour
import CilSpan.Proofs.Span.CorrelateOnce
import CilSpan.Proofs.Batch.Isolation
import CilSpan.Proofs.Span.CorrelateCause
import CilSpan.Proofs.Machine.Confined
import CilSpan.Proofs.Span.CorrelateEntry
import CilSpan.Proofs.Span.Recoded
import CilSpan.Proofs.Span.Refusals
import CilSpan.Proofs.Batch.Numbers
import CilSpan.Proofs.Batch.SecondRun
import CilSpan.Proofs.Layout.Offsets
import CilSpan.Proofs.Layout.Tight
import CilSpan.Proofs.Span.Edited
import CilSpan.Proofs.Span.Encoded
import CilSpan.Proofs.Span.Anticipated
import CilSpan.Proofs.Json.Numbers
import CilSpan.Proofs.Json.Scan
import CilSpan.Proofs.Json.Layouts
import CilSpan.Proofs.Json.Parse
import CilSpan.Proofs.Format.Restores
import CilSpan.Proofs.Format.Bodies
import CilSpan.Proofs.Format.Declarations
import CilSpan.Proofs.Format.Traces
import CilSpan.Proofs.Format.Reports
import CilSpan.Proofs.Format.Faithful
import CilSpan.Proofs.Layout.Picks
import CilSpan.Proofs.Body.Numbered
import CilSpan.Proofs.Body.Intact
import CilSpan.Proofs.Span.Reasons
import CilSpan.Proofs.Span.BracketAnswers
import CilSpan.Proofs.Span.CorrelateAnswers
import CilSpan.Proofs.Machine.Handlers
import CilSpan.Proofs.Machine.Unwinding
import CilSpan.Proofs.Machine.Budget
import CilSpan.Proofs.Machine.Lookups
import CilSpan.Proofs.Span.Strict
import CilSpan.Proofs.Span.InRange
import CilSpan.Proofs.Body.Verdict
import CilSpan.Proofs.Body.Sides
import CilSpan.Proofs.Body.Identities
import CilSpan.Proofs.Draft.Outline
import CilSpan.Proofs.Draft.Follows
import CilSpan.Proofs.Draft.Built
import CilSpan.Proofs.Batch.Resolution
import CilSpan.Proofs.Machine.Fields
import CilSpan.Proofs.Span.OnePass
import CilSpan.Proofs.Span.BracketPass
import CilSpan.Proofs.Span.CorrelatePass
import CilSpan.Proofs.Layout.Settled

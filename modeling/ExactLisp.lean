import ExactLisp.Embedding.Sample
import ExactLisp.Layout.Characters
import ExactLisp.Layout.Format
import ExactLisp.Layout.Sample
import ExactLisp.Layout.Skeleton
import ExactLisp.Lexeme.Spelling
import ExactLisp.Session
import ExactLisp.Store.Views
import ExactLisp.Proofs.Layout.Form
import ExactLisp.Proofs.Layout.Regular
import ExactLisp.Proofs.Layout.Reading
import ExactLisp.Proofs.Layout.Spot
import ExactLisp.Proofs.Layout.Walk
import ExactLisp.Proofs.Layout.Places
import ExactLisp.Proofs.Layout.Breaks
import ExactLisp.Proofs.Layout.Rules
import ExactLisp.Proofs.Layout.LetForms
import ExactLisp.Proofs.Layout.Spacing
import ExactLisp.Proofs.Layout.Rendering
import ExactLisp.Proofs.Layout.Formatted
import ExactLisp.Proofs.Layout.Gaps
import ExactLisp.Proofs.Layout.Sites
import ExactLisp.Proofs.Layout.Kept
import ExactLisp.Proofs.Layout.SecondRun
import ExactLisp.Proofs.Layout.Rereading
import ExactLisp.Proofs.Layout.Idempotent
import ExactLisp.Proofs.Layout.BareQuotes
import ExactLisp.Proofs.Layout.StableTexts
import ExactLisp.Proofs.Lexeme.Continued
import ExactLisp.Proofs.Datum.Grammar
import ExactLisp.Proofs.Datum.Reading
import ExactLisp.Proofs.Datum.Accepting
import ExactLisp.Proofs.Datum.Faults
import ExactLisp.Proofs.Lexeme.Comments
import ExactLisp.Proofs.Layout.Meaning
import ExactLisp.Proofs.Layout.Denoting
import ExactLisp.Proofs.Layout.Nesting
import ExactLisp.Proofs.Layout.Atoms
import ExactLisp.Proofs.Store.Visible
import ExactLisp.Proofs.Store.Holding
import ExactLisp.Proofs.Binary64.Rounding
import ExactLisp.Proofs.Binary64.Bits
import ExactLisp.Proofs.Binary64.Shortest
import ExactLisp.Proofs.Binary64.Range
import ExactLisp.Proofs.Text.Integer
import ExactLisp.Proofs.Binary64.Text
import ExactLisp.Proofs.Binary64.Whole
import ExactLisp.Proofs.Datum.Printing
import ExactLisp.Proofs.Datum.Rereading
import ExactLisp.Proofs.Expr.Elements
import ExactLisp.Proofs.Expr.Printing
import ExactLisp.Proofs.Expr.Rereading
import ExactLisp.Proofs.Eval.Running
import ExactLisp.Proofs.Number.Totals
import ExactLisp.Proofs.Eval.Reductions
import ExactLisp.Proofs.Eval.Upheld
import ExactLisp.Proofs.Eval.Frame
import ExactLisp.Proofs.Eval.CallSites
import ExactLisp.Proofs.Eval.Sessions
import ExactLisp.Proofs.Eval.Reserved
import ExactLisp.Proofs.Eval.Renaming
import ExactLisp.Proofs.Eval.Simulation
import ExactLisp.Proofs.Eval.Splitting
import ExactLisp.Proofs.Number.Whole
import ExactLisp.Proofs.Number.Canonical
import ExactLisp.Proofs.Number.Settled
import ExactLisp.Proofs.Eval.Numbers
import ExactLisp.Proofs.Store.Forest
import ExactLisp.Proofs.Eval.Tracking
import ExactLisp.Proofs.Eval.TrackedSessions
import ExactLisp.Proofs.Eval.Operations
import ExactLisp.Proofs.Eval.Reachable
import ExactLisp.Proofs.Expr.Equality
import ExactLisp.Proofs.Host.Bridge
import ExactLisp.Proofs.Eval.Objects
import ExactLisp.Proofs.Eval.Identity
import ExactLisp.Proofs.Layout.Reindenting
import ExactLisp.Proofs.Layout.Pieces
import ExactLisp.Proofs.Layout.Paths
import ExactLisp.Proofs.Layout.Lines
import ExactLisp.Proofs.Layout.SpecialForms
import ExactLisp.Proofs.Layout.Continuations
import ExactLisp.Proofs.Layout.WhiteSpace
import ExactLisp.Proofs.Number.Exact
import ExactLisp.Proofs.Decimal.Stripped
import ExactLisp.Proofs.Decimal.Rereading
import ExactLisp.Proofs.Number.Reducing
import ExactLisp.Proofs.Number.Order
import ExactLisp.Proofs.Number.Faults
import ExactLisp.Proofs.Eval.Arithmetic
import ExactLisp.Proofs.Completion
import ExactLisp.Proofs.Layout.Columns
import ExactLisp.Proofs.Layout.Indexed
import ExactLisp.Proofs.Layout.Bounds
import ExactLisp.Proofs.Layout.Replacing
import ExactLisp.Proofs.Lexeme.Lossless

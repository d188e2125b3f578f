import StyleRegistry.Cache.Session
import StyleRegistry.Rule.Session
import StyleRegistry.Sheet.Session
import StyleRegistry.Proofs.Cache.Counts
import StyleRegistry.Proofs.Rule.Container
import StyleRegistry.Proofs.Rule.Reference
import StyleRegistry.Proofs.Rule.Place
import StyleRegistry.Proofs.Rule.Anchor
import StyleRegistry.Proofs.Rule.Stop
import StyleRegistry.Proofs.Rule.Effect
import StyleRegistry.Proofs.Rule.Registration
import StyleRegistry.Proofs.Rule.Removal
import StyleRegistry.Proofs.Rule.Live
import StyleRegistry.Proofs.Rule.Text
import StyleRegistry.Proofs.Rule.Share
import StyleRegistry.Proofs.Rule.Underway
import StyleRegistry.Proofs.Rule.Undo
import StyleRegistry.Proofs.Numeral
import StyleRegistry.Proofs.Rule.ClassName
import StyleRegistry.Proofs.Style.Reordering
import StyleRegistry.Proofs.Sheet.Reordering
import StyleRegistry.Proofs.Sheet.Touch
import StyleRegistry.Proofs.Cache.Trace
import StyleRegistry.Proofs.Cache.History
import StyleRegistry.Proofs.Cache.Replay
import StyleRegistry.Proofs.Sheet.Nesting
import StyleRegistry.Proofs.Style.Interpolation
import StyleRegistry.Proofs.Style.Preorder
import StyleRegistry.Proofs.Rule.Naming
import StyleRegistry.Proofs.Rule.Resolution
import StyleRegistry.Proofs.Rule.Identity
import StyleRegistry.Proofs.Rule.Access
import StyleRegistry.Proofs.Rule.Reach
import StyleRegistry.Proofs.Sheet.Reach
import StyleRegistry.Proofs.Rule.Covered
import StyleRegistry.Proofs.Rule.Clear
import StyleRegistry.Proofs.Rule.Print
import StyleRegistry.Proofs.Sheet.Observed
import StyleRegistry.Proofs.Rule.Repetition
import StyleRegistry.Proofs.Subscribers
import StyleRegistry.Proofs.Cache.Delivery
import StyleRegistry.Proofs.Sheet.Notice
import StyleRegistry.Proofs.Rule.Turnover
import StyleRegistry.Proofs.Sheet.Exception
import StyleRegistry.Proofs.Sheet.Staff
import StyleRegistry.Proofs.Sheet.Owed
import StyleRegistry.Proofs.Mass
import StyleRegistry.Proofs.Rule.Weight
import StyleRegistry.Proofs.Sheet.Price
import StyleRegistry.Proofs.Sheet.Ending
import StyleRegistry.Proofs.Sheet.Watching
import StyleRegistry.Proofs.Sheet.Looking
import StyleRegistry.Proofs.Sheet.Report
import StyleRegistry.Proofs.Rule.Subtraction
import StyleRegistry.Proofs.Cache.Enrolment
import StyleRegistry.Proofs.Cache.Ending
import StyleRegistry.Proofs.Cache.Clearing
import StyleRegistry.Proofs.Cache.Returning
import StyleRegistry.Proofs.Style.PropertyName
import StyleRegistry.Proofs.Style.Normalisation
import StyleRegistry.Proofs.Hash
import StyleRegistry.Proofs.Number.Binary64
import StyleRegistry.Proofs.Number.Rounding
import StyleRegistry.Proofs.Number.Digits
import StyleRegistry.Proofs.Number.Precision
import StyleRegistry.Proofs.Number.Notation
import StyleRegistry.Proofs.Number.Draft
import StyleRegistry.Proofs.Number.RoundTrip
import StyleRegistry.Proofs.Number.Shortest
import StyleRegistry.Proofs.Number.Closest
import StyleRegistry.Proofs.Number.Whole
import StyleRegistry.Proofs.ClassList
import StyleRegistry.Proofs.Percent
import StyleRegistry.Proofs.Style.Pruning
import StyleRegistry.Proofs.Style.Splitting
import StyleRegistry.Proofs.Style.History
import StyleRegistry.Proofs.Numeral.Canonical
import StyleRegistry.Proofs.Sheet.Journal
import StyleRegistry.Proofs.Sheet.Telling

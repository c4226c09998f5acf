import ImpuritySampler.Configuration.Document
import ImpuritySampler.Fault.Message
import ImpuritySampler.Params.Document
import ImpuritySampler.Results.Document
import ImpuritySampler.Replica
import ImpuritySampler.Time.Wrap
import ImpuritySampler.Proofs.Determinant.Border
import ImpuritySampler.Proofs.ExactScalar
import ImpuritySampler.Proofs.Grid
import ImpuritySampler.Proofs.Determinant.Exact
import ImpuritySampler.Proofs.Determinant.Run
import ImpuritySampler.Proofs.Line.Search
import ImpuritySampler.Proofs.Line.Tidy
import ImpuritySampler.Proofs.Line.Edit
import ImpuritySampler.Proofs.Segment.Occupation
import ImpuritySampler.Proofs.Line.Overlap
import ImpuritySampler.Proofs.MeshFunction
import ImpuritySampler.Proofs.Params
import ImpuritySampler.Proofs.Line.Valid
import ImpuritySampler.Proofs.LocalRatio.Weight
import ImpuritySampler.Proofs.LocalRatio.Formula
import ImpuritySampler.Proofs.Configuration.Edit
import ImpuritySampler.Proofs.LocalRatio.Ratio
import ImpuritySampler.Proofs.Line.Check
import ImpuritySampler.Proofs.State.Keys
import ImpuritySampler.Proofs.State.Consistent
import ImpuritySampler.Proofs.State.Edit
import ImpuritySampler.Proofs.LocalRatio.Defined
import ImpuritySampler.Proofs.Move.Decision
import ImpuritySampler.Proofs.Move.Regroup
import ImpuritySampler.Proofs.Hybridization
import ImpuritySampler.Proofs.Move.Window
import ImpuritySampler.Proofs.Move.Preserve
import ImpuritySampler.Proofs.Determinant.Undo
import ImpuritySampler.Proofs.Line.Neighbours
import ImpuritySampler.Proofs.Move.Form
import ImpuritySampler.Proofs.State.Undo
import ImpuritySampler.Proofs.LocalRatio.Undo
import ImpuritySampler.Proofs.Move.Undo
import ImpuritySampler.Proofs.Move.Chance
import ImpuritySampler.Proofs.Shift.Weight
import ImpuritySampler.Proofs.Shift.Determinant
import ImpuritySampler.Proofs.Shift.Ratio
import ImpuritySampler.Proofs.Fault
import ImpuritySampler.Proofs.Move.Draw
import ImpuritySampler.Proofs.Move.Edit
import ImpuritySampler.Proofs.Move.Trial
import ImpuritySampler.Proofs.Chain.Step
import ImpuritySampler.Proofs.Chain.Transaction
import ImpuritySampler.Proofs.Chain.Calls
import ImpuritySampler.Proofs.Chain.Sign
import ImpuritySampler.Proofs.Line.Alternate
import ImpuritySampler.Proofs.Line.Refill
import ImpuritySampler.Proofs.Move.Partner
import ImpuritySampler.Proofs.Level.Stairs
import ImpuritySampler.Proofs.Level.Weight
import ImpuritySampler.Proofs.Level.Alarm
import ImpuritySampler.Proofs.Move.Attempt
import ImpuritySampler.Proofs.Move.Assemble
import ImpuritySampler.Proofs.Move.Reach
import ImpuritySampler.Proofs.Results.Entry
import ImpuritySampler.Proofs.Results.Merge
import ImpuritySampler.Proofs.Results.Mean
import ImpuritySampler.Proofs.Measure.Green
import ImpuritySampler.Proofs.Measure.Sum
import ImpuritySampler.Proofs.Measure.Collect
import ImpuritySampler.Proofs.Measure.Pool
import ImpuritySampler.Proofs.Measure.Defined
import ImpuritySampler.Proofs.Measure.Replica
import ImpuritySampler.Proofs.Params.Values
import ImpuritySampler.Proofs.State.Interleaved
import ImpuritySampler.Proofs.Configuration.TimeOrder
import ImpuritySampler.Proofs.Configuration.Inverse
import ImpuritySampler.Proofs.Line.Occupation
import ImpuritySampler.Proofs.Move.Tiling
import ImpuritySampler.Proofs.Measure.Deposit
import ImpuritySampler.Proofs.Shift.Green
import ImpuritySampler.Proofs.Shift.Inverse
import ImpuritySampler.Proofs.Measure.Bins
import ImpuritySampler.Proofs.Measure.Integral
import ImpuritySampler.Proofs.Hybridization.Bath
import ImpuritySampler.Proofs.Time.Cycle
import ImpuritySampler.Proofs.Measure.Orders
import ImpuritySampler.Proofs.Binary64
import ImpuritySampler.Proofs.Chain.Singular
import ImpuritySampler.Proofs.Line.LowerBound
import ImpuritySampler.Proofs.MeshFunction.Interpolation
import ImpuritySampler.Proofs.Decimal
import ImpuritySampler.Proofs.Binary64.Range
import ImpuritySampler.Proofs.Json.Number
import ImpuritySampler.Proofs.Json.Text
import ImpuritySampler.Proofs.Json.Float
import ImpuritySampler.Proofs.Json.Layout
import ImpuritySampler.Proofs.Json.Record
import ImpuritySampler.Proofs.Document

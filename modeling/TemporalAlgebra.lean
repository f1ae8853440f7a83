import TemporalAlgebra.Aggregate.Basic
import TemporalAlgebra.Aggregate.Catalog
import TemporalAlgebra.Aggregate.Extent
import TemporalAlgebra.Aggregate.Functions
import TemporalAlgebra.Binary.Hex
import TemporalAlgebra.Binary.Reader
import TemporalAlgebra.Binary.Utf8
import TemporalAlgebra.Binary.Word
import TemporalAlgebra.Binary.Writer
import TemporalAlgebra.Box.Basic
import TemporalAlgebra.Box.Form
import TemporalAlgebra.Box.STBox
import TemporalAlgebra.Box.TBox
import TemporalAlgebra.Catalog
import TemporalAlgebra.Channel
import TemporalAlgebra.Config.Basic
import TemporalAlgebra.Config.Json
import TemporalAlgebra.Error
import TemporalAlgebra.Index
import TemporalAlgebra.Number.Binary64
import TemporalAlgebra.Number.Decimal
import TemporalAlgebra.Number.Signed
import TemporalAlgebra.Point
import TemporalAlgebra.Proofs.Aggregate.Folding
import TemporalAlgebra.Proofs.Aggregate.Merging
import TemporalAlgebra.Proofs.Aggregate.Pointwise
import TemporalAlgebra.Proofs.Aggregate.Refusal
import TemporalAlgebra.Proofs.Aggregate.Splicing
import TemporalAlgebra.Proofs.Aggregate.Stepping
import TemporalAlgebra.Proofs.Aggregate.Windows
import TemporalAlgebra.Proofs.Number.Binary64
import TemporalAlgebra.Proofs.Outcome
import TemporalAlgebra.Proofs.Number.Integral
import TemporalAlgebra.Proofs.SkipList
import TemporalAlgebra.Proofs.SkipList.Refinement
import TemporalAlgebra.Proofs.Span.Building
import TemporalAlgebra.Proofs.Span.Position
import TemporalAlgebra.Proofs.SpanSet.Algebra
import TemporalAlgebra.Proofs.SpanSet.Decoding
import TemporalAlgebra.Proofs.SpanSet.NormalForm
import TemporalAlgebra.Proofs.SpanSet.Operations
import TemporalAlgebra.Proofs.Temporal.Accumulation
import TemporalAlgebra.Proofs.Temporal.Assembly
import TemporalAlgebra.Proofs.Temporal.Constant
import TemporalAlgebra.Proofs.Temporal.Cutting
import TemporalAlgebra.Proofs.Temporal.Decoding
import TemporalAlgebra.Proofs.Temporal.Held
import TemporalAlgebra.Proofs.Temporal.Joining
import TemporalAlgebra.Proofs.Temporal.Lifting
import TemporalAlgebra.Proofs.Temporal.Merging
import TemporalAlgebra.Proofs.Temporal.Order
import TemporalAlgebra.Proofs.Temporal.Rebuilding
import TemporalAlgebra.Proofs.Temporal.Settling
import TemporalAlgebra.Proofs.Temporal.Synchronization
import TemporalAlgebra.Proofs.Temporal.TimeRestriction
import TemporalAlgebra.Proofs.Temporal.ValueRestriction
import TemporalAlgebra.Proofs.Temporal.WellFormed
import TemporalAlgebra.Proofs.Value.Lawful
import TemporalAlgebra.Proofs.ValueSet
import TemporalAlgebra.SkipList
import TemporalAlgebra.SkipList.Arena
import TemporalAlgebra.Span.Basic
import TemporalAlgebra.Span.Bound
import TemporalAlgebra.Span.Domain
import TemporalAlgebra.Span.Relation
import TemporalAlgebra.Span.Transform
import TemporalAlgebra.SpanSet.Basic
import TemporalAlgebra.SpanSet.Form
import TemporalAlgebra.Temporal.Append
import TemporalAlgebra.Temporal.Arithmetic
import TemporalAlgebra.Temporal.Basic
import TemporalAlgebra.Temporal.Bins
import TemporalAlgebra.Temporal.Comparison
import TemporalAlgebra.Temporal.Constant
import TemporalAlgebra.Temporal.Delete
import TemporalAlgebra.Temporal.Filter
import TemporalAlgebra.Temporal.Form
import TemporalAlgebra.Temporal.InPlace
import TemporalAlgebra.Temporal.Interpolation
import TemporalAlgebra.Temporal.Letters
import TemporalAlgebra.Temporal.Lift
import TemporalAlgebra.Temporal.Logic
import TemporalAlgebra.Temporal.Measure
import TemporalAlgebra.Temporal.Merge
import TemporalAlgebra.Temporal.Restrict
import TemporalAlgebra.Temporal.Sequence
import TemporalAlgebra.Temporal.SequenceSet
import TemporalAlgebra.Temporal.Simplify
import TemporalAlgebra.Temporal.Text
import TemporalAlgebra.Temporal.Transform
import TemporalAlgebra.Text.Blank
import TemporalAlgebra.Text.LetterCase
import TemporalAlgebra.Text.Split
import TemporalAlgebra.Time.Calendar
import TemporalAlgebra.Time.Date
import TemporalAlgebra.Time.Field
import TemporalAlgebra.Time.Interval
import TemporalAlgebra.Time.Timestamp
import TemporalAlgebra.Value.Basic
import TemporalAlgebra.Value.Compound
import TemporalAlgebra.Value.Scalar
import TemporalAlgebra.ValueSet
import TemporalAlgebra.Proofs.Temporal.Updating
import TemporalAlgebra.Proofs.Box.Lawful
import TemporalAlgebra.Proofs.Temporal.Soundness
import TemporalAlgebra.Proofs.Temporal.Appending
import TemporalAlgebra.Proofs.Temporal.Derivation
import TemporalAlgebra.Proofs.Temporal.Preservation
import TemporalAlgebra.Proofs.Binary.Decoding
import TemporalAlgebra.Proofs.Binary.Reading
import TemporalAlgebra.Proofs.Binary.Texts
import TemporalAlgebra.Proofs.Temporal.RoundTrip
import TemporalAlgebra.Proofs.Temporal.TextRoundTrip
import TemporalAlgebra.Proofs.Binary.Consuming
import TemporalAlgebra.Proofs.Number.Rounding
import TemporalAlgebra.Proofs.Number.Comparison
import TemporalAlgebra.Proofs.SpanSet.RoundTrip
import TemporalAlgebra.Proofs.Index.Envelopes
import TemporalAlgebra.Proofs.Index.Searching
import TemporalAlgebra.Proofs.Index.Spatial
import TemporalAlgebra.Proofs.Completion
import TemporalAlgebra.Proofs.Text.Pieces
import TemporalAlgebra.Proofs.Time.Completion
import TemporalAlgebra.Proofs.SpanSet.Completion
import TemporalAlgebra.Proofs.Box.Completion
import TemporalAlgebra.Proofs.Temporal.Completion
import TemporalAlgebra.Proofs.Parsing
import TemporalAlgebra.Proofs.SpanSet.Identities
import TemporalAlgebra.Proofs.Time.Shifting
import TemporalAlgebra.Proofs.Temporal.Splitting
import TemporalAlgebra.Proofs.Temporal.InPlace
import TemporalAlgebra.Proofs.Temporal.Extending
import TemporalAlgebra.Proofs.Temporal.Deleting
import TemporalAlgebra.Proofs.Span.Relations
import TemporalAlgebra.Proofs.Span.Points
import TemporalAlgebra.Proofs.Number.Bits
import TemporalAlgebra.Proofs.Box.RoundTrip
import TemporalAlgebra.Proofs.Number.Conversion
import TemporalAlgebra.Proofs.Temporal.Retiming
import TemporalAlgebra.Proofs.Temporal.Moving
import TemporalAlgebra.Proofs.Span.Canonical
import TemporalAlgebra.Proofs.Span.Shifting
import TemporalAlgebra.Proofs.SpanSet.Predicates
import TemporalAlgebra.Proofs.SpanSet.Shifting
import TemporalAlgebra.Proofs.Time.RoundTrip
import TemporalAlgebra.Proofs.Partition
import TemporalAlgebra.Proofs.Temporal.Normalization
import TemporalAlgebra.Proofs.Temporal.Lookup
import TemporalAlgebra.Proofs.Temporal.Broadcasting
import TemporalAlgebra.Proofs.Temporal.EverAlways
import TemporalAlgebra.Proofs.Temporal.Dividing
import TemporalAlgebra.Proofs.Temporal.Sampling
import TemporalAlgebra.Proofs.Number.Order
import TemporalAlgebra.Proofs.Number.Quotient
import TemporalAlgebra.Proofs.Temporal.Simplification
import TemporalAlgebra.Proofs.Temporal.Likeness
import TemporalAlgebra.Proofs.Temporal.Reinterpolation
import TemporalAlgebra.Proofs.Box.Lattice
import TemporalAlgebra.Proofs.SkipList.Overlapping
import TemporalAlgebra.Proofs.Temporal.Thinning
import TemporalAlgebra.Proofs.Temporal.ValueBins
import TemporalAlgebra.Proofs.Span.Days
import TemporalAlgebra.Proofs.ValueSet.Members
import TemporalAlgebra.Proofs.Temporal.Drift
import TemporalAlgebra.Proofs.Text.Joining
import TemporalAlgebra.Proofs.SpanSet.Scaling
import TemporalAlgebra.Proofs.Temporal.ConstantSegments
import TemporalAlgebra.Proofs.Temporal.FloatBins
import TemporalAlgebra.Proofs.Number.Written
import TemporalAlgebra.Proofs.Number.Printing

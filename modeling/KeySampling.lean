import KeySampling.Parameters
import KeySampling.Fault
import KeySampling.Binary64.Basic
import KeySampling.Binary64.Order
import KeySampling.Binary64.Arithmetic
import KeySampling.Binary64.Bits
import KeySampling.Decimal.Shortest
import KeySampling.Decimal.Layout
import KeySampling.Decimal.Reading
import KeySampling.Text.Printable
import KeySampling.Text.DecimalDigit
import KeySampling.Text.Blank
import KeySampling.Text.Utf8
import KeySampling.Text.Quoted
import KeySampling.Datum.Basic
import KeySampling.Datum.Equality
import KeySampling.Datum.Printer
import KeySampling.Datum.Number
import KeySampling.Datum.Encoding
import KeySampling.Hash.Murmur
import KeySampling.SamplingKey
import KeySampling.KeyTable.Probe
import KeySampling.KeyTable.Sizing
import KeySampling.KeyTable.Entries
import KeySampling.Summary.Basic
import KeySampling.Summary.Operations
import KeySampling.Summary.Store
import KeySampling.Census
import KeySampling.Sketch.Sample
import KeySampling.Sketch.Stats
import KeySampling.Sketch.Compact
import KeySampling.Sketch.QuickSelect
import KeySampling.Intersection
import KeySampling.Proofs.PowersOfTwo
import KeySampling.Proofs.KeyTable.Orbit
import KeySampling.Proofs.KeyTable.Probing
import KeySampling.Proofs.KeyTable.Entries
import KeySampling.Proofs.KeyTable.Filling
import KeySampling.Proofs.KeyTable.History
import KeySampling.Proofs.KeyTable.Mapping
import KeySampling.Proofs.KeyTable.Layout
import KeySampling.Proofs.Sketch.Stream
import KeySampling.Proofs.Sketch.Step
import KeySampling.Proofs.Sketch.Retention
import KeySampling.Proofs.Sketch.Threshold
import KeySampling.Proofs.Summary.Sharing
import KeySampling.Proofs.Sketch.Ownership
import KeySampling.Proofs.Binary64.Rounding
import KeySampling.Proofs.Binary64.Exactness
import KeySampling.Proofs.KeyTable.Sizing
import KeySampling.Proofs.Sketch.InitialTheta
import KeySampling.Proofs.Sketch.Failure
import KeySampling.Proofs.Sketch.Reached
import KeySampling.Proofs.Sketch.Selection
import KeySampling.Proofs.Sketch.ExactCount
import KeySampling.Proofs.Sketch.Stranding
import KeySampling.Proofs.Sketch.Outline
import KeySampling.Proofs.Sketch.Repetition
import KeySampling.Proofs.Sketch.Representation
import KeySampling.Proofs.Summary.Contents
import KeySampling.Proofs.Summary.Effects
import KeySampling.Proofs.Binary64.Extremes
import KeySampling.Proofs.Summary.OrderFree
import KeySampling.Proofs.Intersection.Matching
import KeySampling.Proofs.Intersection.Reference
import KeySampling.Proofs.Intersection.Run
import KeySampling.Proofs.Intersection.Attempts
import KeySampling.Proofs.Intersection.Result
import KeySampling.Proofs.Intersection.Emptiness
import KeySampling.Proofs.Intersection.Nesting
import KeySampling.Proofs.Intersection.Order
import KeySampling.Proofs.Intersection.Absence
import KeySampling.Proofs.Intersection.Failure
import KeySampling.Proofs.Intersection.Storage
import KeySampling.Proofs.Intersection.Bound
import KeySampling.Proofs.Intersection.Snapshot
import KeySampling.Proofs.Sketch.Custody
import KeySampling.Proofs.Sketch.Interleaving
import KeySampling.Proofs.SamplingLaw
import KeySampling.Proofs.Isolation.Scene
import KeySampling.Proofs.Isolation.Run
import KeySampling.Proofs.KeyTable.Coverage
import KeySampling.Proofs.KeyTable.Moving
import KeySampling.Proofs.Hash.Words
import KeySampling.Proofs.Hash.Injectivity
import KeySampling.Proofs.Sketch.Equality
import KeySampling.Proofs.Intersection.Lifetime
import KeySampling.Proofs.Intersection.Consulting
import KeySampling.Proofs.Intersection.Interchange
import KeySampling.Proofs.Binary64.Spacing
import KeySampling.Proofs.Binary64.Operations
import KeySampling.Proofs.Summary.Extremes
import KeySampling.Proofs.Census.Evaluation
import KeySampling.Proofs.Census.Bracketing
import KeySampling.Proofs.Census.Reporting
import KeySampling.Proofs.Sketch.OpenBound
import KeySampling.Proofs.Sketch.ErrorRate
import KeySampling.Proofs.Sketch.Moving
import KeySampling.Proofs.Sketch.Reporting
import KeySampling.Proofs.Intersection.Reporting

import CircuitSketch.Fraction.Shortest
import CircuitSketch.Arrangement
import CircuitSketch.Bits.Primitive
import CircuitSketch.Bits.Word
import CircuitSketch.Datum.Json
import CircuitSketch.Evaluation.Solve
import CircuitSketch.Expr.Alike
import CircuitSketch.Expr.Checked
import CircuitSketch.Expr.Substitute
import CircuitSketch.Interface.Construct
import CircuitSketch.Platform.Load
import CircuitSketch.Template.Basic
import CircuitSketch.TruthFunction
import CircuitSketch.Proofs.Expr.Occurrence
import CircuitSketch.Proofs.Expr.WellFormed
import CircuitSketch.Proofs.Evaluation.Shape
import CircuitSketch.Proofs.Evaluation.Locality
import CircuitSketch.Proofs.Expr.Substitution
import CircuitSketch.Proofs.Evaluation.Reading
import CircuitSketch.Proofs.Evaluation.HoleBits
import CircuitSketch.Proofs.Evaluation.Agreement
import CircuitSketch.Proofs.Bits.Primitive
import CircuitSketch.Proofs.Evaluation.Denotation
import CircuitSketch.Proofs.Condition.Canonical
import CircuitSketch.Proofs.Condition.Laws
import CircuitSketch.Proofs.Evaluation.Search
import CircuitSketch.Proofs.Evaluation.Solve
import CircuitSketch.Proofs.Expr.Traversal
import CircuitSketch.Proofs.Evaluation.Widths
import CircuitSketch.Proofs.Evaluation.Demand
import CircuitSketch.Proofs.Evaluation.Passes
import CircuitSketch.Proofs.Expr.Construction
import CircuitSketch.Proofs.Expr.Accepting
import CircuitSketch.Proofs.Expr.Constructed
import CircuitSketch.Proofs.Expr.Filling
import CircuitSketch.Proofs.Expr.Live
import CircuitSketch.Proofs.Expr.Composition
import CircuitSketch.Proofs.Arrangement.Picking
import CircuitSketch.Proofs.Arrangement.Reordering
import CircuitSketch.Proofs.Arrangement.Transparency
import CircuitSketch.Proofs.Bits.Moving
import CircuitSketch.Proofs.Interface.Carry
import CircuitSketch.Proofs.Interface.Chained
import CircuitSketch.Proofs.Interface.Handed
import CircuitSketch.Proofs.Interface.Issued
import CircuitSketch.Proofs.Interface.Lut
import CircuitSketch.Proofs.Interface.Mux
import CircuitSketch.Proofs.Interface.Programmed
import CircuitSketch.Proofs.Interface.Styles
import CircuitSketch.Proofs.Platform.Validation
import CircuitSketch.Proofs.Reduction.Depth
import CircuitSketch.Proofs.Reduction.LutRow
import CircuitSketch.Proofs.Reduction.Pack
import CircuitSketch.Proofs.Reduction.Partition
import CircuitSketch.Proofs.Reduction.Pooled
import CircuitSketch.Proofs.Reduction.Resumed
import CircuitSketch.Proofs.Reduction.Total
import CircuitSketch.Proofs.Reduction.Tree
import CircuitSketch.Proofs.Template.Arithmetic
import CircuitSketch.Proofs.Template.Bitwise
import CircuitSketch.Proofs.Template.Carry
import CircuitSketch.Proofs.Template.Computed
import CircuitSketch.Proofs.Template.Equality
import CircuitSketch.Proofs.Template.Evaluated
import CircuitSketch.Proofs.Template.Inputs
import CircuitSketch.Proofs.Template.Product
import CircuitSketch.Proofs.Template.Requested
import CircuitSketch.Proofs.Template.Sharing

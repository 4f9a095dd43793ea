import TensorCalculus.Main
import TensorCalculus.Proofs.Session.Metric
import TensorCalculus.Proofs.Session.Kept
import TensorCalculus.Proofs.Scalar.Overflow
import TensorCalculus.Proofs.Formula.RoundTrip
import TensorCalculus.Proofs.Session.Composition
import TensorCalculus.Proofs.Session.FormalDerivative
import TensorCalculus.Proofs.Session.SymmetryInvariant

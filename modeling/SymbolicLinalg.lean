import SymbolicLinalg.Datum
import SymbolicLinalg.Declaration
import SymbolicLinalg.Dual
import SymbolicLinalg.Main
import SymbolicLinalg.Node.Tree
import SymbolicLinalg.Node.Typing
import SymbolicLinalg.Substitution
import SymbolicLinalg.Value
import SymbolicLinalg.Proofs.Derivation
import SymbolicLinalg.Proofs.Lowered
import SymbolicLinalg.Proofs.Soundness
import SymbolicLinalg.Proofs.Sweep
import SymbolicLinalg.Proofs.NormalForm
import SymbolicLinalg.Proofs.Rendering
import SymbolicLinalg.Proofs.Emission
import SymbolicLinalg.Proofs.Emittable
import SymbolicLinalg.Proofs.Delivery
import SymbolicLinalg.Proofs.Issue
import SymbolicLinalg.Proofs.Thrift
import SymbolicLinalg.Proofs.Summation
import SymbolicLinalg.Proofs.Recognition
import SymbolicLinalg.Proofs.Conservation
import SymbolicLinalg.Proofs.Replacement
import SymbolicLinalg.Proofs.History
import SymbolicLinalg.Proofs.Scoping
import SymbolicLinalg.Proofs.Unambiguous
import SymbolicLinalg.Proofs.Source
import SymbolicLinalg.Proofs.Computation
import SymbolicLinalg.Proofs.Reuse
import SymbolicLinalg.Proofs.Separation
import SymbolicLinalg.Proofs.AxisAngle
import SymbolicLinalg.Proofs.Variables
import SymbolicLinalg.Proofs.Pruning
import SymbolicLinalg.Proofs.Verbatim
import SymbolicLinalg.Proofs.Entries
import SymbolicLinalg.Proofs.Encoding
import SymbolicLinalg.Proofs.DepthFirst
import SymbolicLinalg.Proofs.Report

import Detachment.Formula.Traversal
import Detachment.Main
import Detachment.Proofs.Soundness
import Detachment.Proofs.Termination
import Detachment.Proofs.Progress
import Detachment.Proofs.SolvedForm
import Detachment.Proofs.Generality
import Detachment.Proofs.Saturation
import Detachment.Proofs.Exhaustion
import Detachment.Proofs.RoundTrip
import Detachment.Proofs.Keys
import Detachment.Proofs.Verdict
import Detachment.Proofs.Conclusions
import Detachment.Proofs.Condensed
import Detachment.Proofs.Variants
import Detachment.Proofs.DoubleNegation
import Detachment.Proofs.Standardization
import Detachment.Proofs.Replay
import Detachment.Proofs.Symmetry
import Detachment.Proofs.NormalForm
import Detachment.Proofs.Replacement
import Detachment.Proofs.Copying
import Detachment.Proofs.Layout
import Detachment.Proofs.ReadErrors
import Detachment.Proofs.Resolution
import Detachment.Proofs.Bookkeeping
import Detachment.Proofs.Settling
import Detachment.Proofs.Specialization
import Detachment.Proofs.Scanning
import Detachment.Proofs.Construction
import Detachment.Proofs.Overflow

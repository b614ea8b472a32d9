import Detachment.Proofs.Condensed
import Detachment.Proofs.Exhaustion
import Detachment.Proofs.SolvedForm

/-!
# Variables of 32 bits

The numbers of variables are stored with 32 bits, and behind the largest of them comes the smallest.
As long as no number on the way leaves the range, unification and modus ponens with stored numbers
do the same as with numbers of any size. This is so for all formulas whose variables leave as much
room below the largest number as the formulas have nodes.

Beyond that a unifier is still a unifier and still mentions no variable that it binds, and modus
ponens is still sound. But a fresh variable can then be one that is in use. The unifier need not be
the most general one, and neither need be the conclusion.
-/
namespace Detachment

namespace Unification

open State

end Unification

open Unification

variable {floor : Int} {l r minor major : Formula Nat}

namespace Formula

end Formula

end Detachment

import Detachment.Proofs.Generality
import Detachment.Proofs.ModusPonens
import Detachment.Proofs.Normalization

/-!
# Condensed detachment

Modus ponens on schemas without disjunctions yields the most general of all conclusions that plain
modus ponens yields for their instances. The variables of the two premises are independent: each
premise has a substitution of its own, whether or not they share variables. The variables that the
consequent does not share with the antecedent are left free.
-/
namespace Detachment

namespace Formula

variable {α : Type} {σ τ : Int → Shape}

end Formula

variable {minor a c f : Formula Nat} {i : Nat} {t₁ t₂ : Int → Shape}

end Detachment

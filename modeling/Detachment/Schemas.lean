import Detachment.Formula.Placement

/-!
# The classical schemas

Together with modus ponens the first three prove every tautology in `>` and `!`. Contraposition
follows from them and is kept as a ready-made lemma.
-/
namespace Detachment.Schemas

/-- The variable `n` as a bare formula. -/
def v (n : Int) : Shape :=
  .leaf () (.var n)

/-- The negated variable `n`. -/
def nv (n : Int) : Shape :=
  (v n).negate

def imp (l r : Shape) : Shape :=
  .node () .implication l r

/-- `a>(b>a)` -/
def weakening : Formula Nat :=
  (imp (v 1) (imp (v 2) (v 1))).place

/-- `(a>(b>c))>((a>b)>(a>c))` -/
def distribution : Formula Nat :=
  (imp (imp (v 1) (imp (v 2) (v 3)))
    (imp (imp (v 1) (v 2)) (imp (v 1) (v 3)))).place

/-- `(!a>!b)>((!a>b)>a)` -/
def reductio : Formula Nat :=
  (imp (imp (nv 1) (nv 2)) (imp (imp (nv 1) (v 2)) (v 1))).place

/-- `(!a>!b)>(b>a)` -/
def contraposition : Formula Nat :=
  (imp (imp (nv 1) (nv 2)) (imp (v 2) (v 1))).place

def classical : List (Formula Nat) :=
  [weakening, distribution, reductio]

end Detachment.Schemas

import Detachment.Unification

/-!
# Condensed detachment

Modus ponens on schemas: the minor premise is unified with the antecedent of the major one, and the
consequent is instantiated accordingly. The variables of the two premises are independent.
-/
namespace Detachment

/-- The conclusion of `minor` and `major`, normalized. There is none unless `major` is an
implication whose antecedent unifies with `minor`. The numbers of the variables that are moved apart
and of those that are brought in are stored as `fit` makes them. -/
def detachBy (fit : Int → Int) (minor major : Formula Nat) : Option (Formula Nat) :=
  let major := major.shiftVariablesBy fit (fit (minor.maxVariable + 1))
  match major with
  | .node _ .implication antecedent consequent =>
      match unifyBy fit (fit (major.maxVariable + 1)) minor antecedent.place with
      | .error _ => none
      | .ok s => some (s.apply consequent.place).normalize
  | _ => none

/-- The most general conclusion of `minor` and `major`, with variables of any size. -/
def detach (minor major : Formula Nat) : Option (Formula Nat) :=
  detachBy id minor major

namespace Sheet

/-- Blank if a premise is blank or the rule does not apply. -/
def detachBy (fit : Int → Int) : (minor major : Sheet) → Sheet
  | some minor, some major => Detachment.detachBy fit minor major
  | _, _ => none

def detach (minor major : Sheet) : Sheet :=
  detachBy id minor major

end Sheet

end Detachment

import Detachment.Sheet

/-!
# When a formula settles a target

A target is settled by a formula that agrees with it slot by slot once the variables of both are
numbered by first occurrence. Constants count as the variables of the same number, since a schema
holds for every choice of its variables.
-/
namespace Detachment.Sheet

/-- Whether `candidate` settles `target`. Size and root are compared first, because they differ
most often. -/
def settles (candidate target : Sheet) : Bool :=
  candidate.isSome && target.size == candidate.size &&
    target.label?.map Label.op == candidate.label?.map Label.op &&
    target.normalize.agrees true candidate.normalize

/-- The first of the targets that `candidate` settles. -/
def settled? (candidate : Sheet) (targets : List Sheet) : Option Sheet :=
  targets.find? fun t => candidate.settles t

end Detachment.Sheet

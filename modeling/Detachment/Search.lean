import Std.Data.HashSet
import Detachment.Derivation
import Detachment.Matching
import Detachment.ModusPonens

/-!
# Proof search

The search works in generations. The formulas of a generation are promoted one at a time, shortest
first. A promoted formula is combined by modus ponens with every formula promoted before it and
with itself, in both roles, and the conclusions that pass the filter and are new make up the next
generation. The search ends when a formula settles a target, when a generation is empty, or when
time is up.

Time is looked at before each generation and before each promotion, and each look is one `step`.
So a search depends on the clock only through the number of looks before time is up: see `run`.
-/
namespace Detachment

/-- How a search ended. -/
inductive Outcome where
  | found
  | timedOut
  | exhausted
  deriving DecidableEq, Repr

structure Search where
  /-- Formulas with more nodes are discarded. -/
  limit : Nat
  targets : List Sheet
  /-- The formulas promoted so far. -/
  promoted : List Sheet
  /-- What remains of the current generation. -/
  waiting : List Sheet
  /-- The next generation as far as it is known, latest first. -/
  fresh : List Sheet
  /-- Whether the current generation has been begun. -/
  midway : Bool
  /-- The texts of all conclusions accepted so far. -/
  known : Std.HashSet String
  journal : Journal

inductive Progress where
  | running (s : Search)
  | ended (outcome : Outcome) (s : Search)

namespace Sheet

/-- The filter for conclusions. A conjunction is of no use at the root, and more than one anywhere
is taken as a sign of a detour. -/
def isGood (limit : Nat) (s : Sheet) : Bool :=
  s.isSome && s.size ≤ limit && !s.isRootedAt (.binary .conjunction) &&
    s.operations (.binary .conjunction) ≤ 1

end Sheet

namespace Search

/-- A search that has the first generation before it. -/
def start (limit : Nat) (targets generation : List Sheet) (journal : Journal) : Search :=
  { limit, targets, promoted := [], waiting := generation, fresh := [], midway := false,
    known := ∅, journal }

def settlesTarget (s : Search) (candidate : Sheet) : Bool :=
  (candidate.settled? s.targets).isSome

/-- Keep a conclusion that is good and new, and tell whether it settles a target. -/
def accept (s : Search) (minor major conclusion : Sheet) : Bool × Search :=
  if conclusion.isGood s.limit && !s.known.contains conclusion.text then
    let settles := s.settlesTarget conclusion
    (settles,
      { s with
        known := s.known.insert conclusion.text
        journal := s.journal.record ⟨conclusion.text, .modusPonens minor.text major.text⟩
        promoted := if settles then s.promoted ++ [conclusion] else s.promoted
        fresh := conclusion :: s.fresh })
  else (false, s)

/-- Apply modus ponens to pairs of minor and major premises until a target is settled. -/
def combine : List (Sheet × Sheet) → Search → Bool × Search
  | [], s => (false, s)
  | (minor, major) :: rest, s =>
      match s.accept minor major (minor.detach major) with
      | (true, s) => (true, s)
      | (false, s) => combine rest s

/-- The pairs to try for a newly promoted formula: with each earlier one in both roles, and with
itself. -/
def pairings (earlier : List Sheet) (newest : Sheet) : List (Sheet × Sheet) :=
  earlier.flatMap (fun old => [(old, newest), (newest, old)]) ++ [(newest, newest)]

/-- Promote a candidate, and tell whether a target is settled. -/
def promote (s : Search) (candidate : Sheet) : Bool × Search :=
  if candidate.size ≤ s.limit then
    let newest := candidate.normalize
    let earlier := s.promoted
    let s := { s with promoted := earlier ++ [newest] }
    if s.settlesTarget newest then (true, s) else s.combine (pairings earlier newest)
  else (false, s)

/-- Turn to the next generation, shortest formulas first. -/
def endGeneration (s : Search) : Search :=
  { s with
    waiting := s.fresh.reverse.mergeSort fun a b => a.size ≤ b.size
    fresh := []
    midway := false }

/-- Go on by one look at the clock, which showed that time is up if `expired`. -/
def step (s : Search) (expired : Bool) : Progress :=
  if s.midway then
    if expired then .running s.endGeneration
    else
      match s.waiting with
      | [] => .running s.endGeneration
      | candidate :: rest =>
          match { s with waiting := rest }.promote candidate with
          | (true, s) => .ended .found s
          | (false, s) => .running (if s.waiting.isEmpty then s.endGeneration else s)
  else if expired then .ended .timedOut s
  else if s.waiting.isEmpty then .ended .exhausted s
  else .running { s with midway := true }

/-- The search when `looks` looks at the clock find time left and all later ones find it up. -/
def run : (looks : Nat) → Search → Outcome × Search
  | 0, s => (.timedOut, if s.midway then s.endGeneration else s)
  | looks + 1, s =>
      match s.step false with
      | .ended outcome s => (outcome, s)
      | .running s => run looks s

end Search

end Detachment

/-!
# Deadlines

A clock shows the nanoseconds since it was started, up to a limit of 2^63 seconds. A deadline is a
reading of the clock. A budget that ends beyond the limit gives a deadline that never comes.
-/
namespace Detachment

/-- The nanoseconds of a second. -/
def second : Nat := 1000000000

/-- The nanoseconds of a millisecond. -/
def millisecond : Nat := 1000000

/-- The first reading that the clock cannot show. -/
def clockLimit : Nat := 0x8000000000000000 * second

structure Deadline where
  /-- The reading from which on the deadline has passed. -/
  reading? : Option Nat
  deriving DecidableEq, Repr

namespace Deadline

def never : Deadline := ⟨none⟩

/-- The deadline `budget` nanoseconds after the reading `now`. -/
def after (now budget : Nat) : Deadline :=
  if now + budget < clockLimit then ⟨some (now + budget)⟩ else never

def afterMillis (now budget : Nat) : Deadline :=
  after now (budget * millisecond)

def expired (d : Deadline) (now : Nat) : Bool :=
  d.reading?.any (· ≤ now)

/-- The time that is left, if the deadline ever comes. -/
def remaining? (d : Deadline) (now : Nat) : Option Nat :=
  d.reading?.map (· - now)

end Deadline

end Detachment

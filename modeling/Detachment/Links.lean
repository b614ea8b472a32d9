/-!
# Links between slots

A slot of a stored formula knows its own number and those of its left part, its right part and its
parent. A missing link is `none`. Slot numbers have 64 bits, and the largest of them is reserved: it
means that the link is missing.
-/
namespace Detachment

/-- The reserved slot number. -/
def noSlot : Nat := 0xffffffffffffffff

/-- The link to a slot, given by the low 64 bits of a number. -/
def link (n : Nat) : Option Nat :=
  let slot := n % (noSlot + 1)
  if slot = noSlot then none else some slot

structure Links where
  self : Option Nat := none
  left : Option Nat := none
  right : Option Nat := none
  parent : Option Nat := none
  deriving DecidableEq, Repr, Inhabited

namespace Links

/-- The links of a formula that is a single leaf in slot `i`. -/
def leaf (i : Nat) : Links :=
  { self := link i }

def isValid (l : Links) : Bool :=
  l.self.isSome

def hasChildren (l : Links) : Bool :=
  l.left.isSome && l.right.isSome

/-- Renumber every link that is present. -/
def map (f : Nat → Nat) (l : Links) : Links :=
  ⟨l.self.map f, l.left.map f, l.right.map f, l.parent.map f⟩

def shift (n : Nat) (l : Links) : Links :=
  l.map (· + n)

/-- The links as they are stored. Those of a formula are, as long as it has fewer slots than can be
numbered. -/
def stored (l : Links) : Links :=
  ⟨l.self.bind link, l.left.bind link, l.right.bind link, l.parent.bind link⟩

end Links

end Detachment

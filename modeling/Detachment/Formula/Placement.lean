import Detachment.Formula.Basic
import Detachment.Links

/-!
# Formulas in numbered slots

A `Formula Nat` says for each node in which slot it is stored. The root is in slot 0, and a formula
of `n` nodes fills the slots below `n`: `WellPlaced`. Slots are usually filled in the order of
`Formula.slots`, parents before children and left before right: this is the canonical placement.
Only `Formula.replace` departs from it. It leaves what is already placed where it is and appends
the new nodes.

`Formula.table` lists the slots in order, with their labels and links.
-/
namespace Detachment

/-- One slot of a stored formula. -/
structure Entry where
  slot : Nat
  label : Label
  left : Option Nat
  right : Option Nat
  parent : Option Nat
  deriving DecidableEq, Repr

namespace Entry

def links (e : Entry) : Links :=
  ⟨some e.slot, e.left, e.right, e.parent⟩

/-- Whether two slots hold the same: connectives by operation, leaves by number, sign and, unless
`ignoreKinds`, kind. Both must point to the same children. -/
def agrees (ignoreKinds : Bool) (a b : Entry) : Bool :=
  a.left == b.left && a.right == b.right &&
    match a.label.isFunction, b.label.isFunction with
    | true, true => a.label.op == b.label.op
    | false, false =>
        a.label.value == b.label.value && a.label.op == b.label.op &&
          (ignoreKinds || a.label.kind == b.label.kind)
    | _, _ => false

end Entry

namespace Formula

variable {α : Type}

/-- Every slot below the size is used once, and the root is in slot 0. -/
def WellPlaced (t : Formula Nat) : Prop :=
  t.slot = 0 ∧ t.slots.Perm (List.range t.size)

/-- Fill the slots from `n` on, parents before children and left before right. -/
def placeFrom (n : Nat) : Formula α → Formula Nat
  | leaf _ a => leaf n a
  | node _ c l r => node n c (l.placeFrom (n + 1)) (r.placeFrom (n + 1 + l.size))

/-- `placeFrom` in one pass, together with the first slot that is left free. -/
def placeCounting (n : Nat) : Formula α → Formula Nat × Nat
  | leaf _ a => (leaf n a, n + 1)
  | node _ c l r =>
      let (l', m) := l.placeCounting (n + 1)
      let (r', k) := r.placeCounting m
      (node n c l' r', k)

/-- The canonical placement. -/
def place (t : Formula α) : Formula Nat :=
  (t.placeCounting 0).1

/-- Join two stored formulas under a new root. The left operand keeps its arrangement from slot 1
on, and the right one follows it. -/
def join (c : Connective) (l r : Formula Nat) : Formula Nat :=
  node 0 c (l.map (· + 1)) (r.map (· + (1 + l.size)))

/-- The part of the formula whose root is in slot `i`. -/
def at? (i : Nat) : Formula Nat → Option (Formula Nat)
  | leaf s a => if s = i then some (leaf s a) else none
  | node s c l r => if s = i then some (node s c l r) else (l.at? i).or (r.at? i)

/-- Change the part whose root is in slot `i`. -/
def modifyAt (i : Nat) (f : Formula Nat → Formula Nat) : Formula Nat → Formula Nat
  | leaf s a => if s = i then f (leaf s a) else leaf s a
  | node s c l r =>
      if s = i then f (node s c l r) else node s c (l.modifyAt i f) (r.modifyAt i f)

/-- Negate the part in slot `i`, if there is one. -/
def negateAt (i : Nat) : Formula Nat → Formula Nat :=
  modifyAt i negate

/-- The part in slot `i`, canonically placed. -/
def subformula? (i : Nat) (t : Formula Nat) : Option (Formula Nat) :=
  (t.at? i).map place

/-- The slots in the order of `Formula.slots`, below the given parent. -/
def entries (parent : Option Nat) : Formula Nat → List Entry
  | leaf s a => [⟨s, a.label, none, none, parent⟩]
  | node s c l r =>
      ⟨s, .function (.binary c), some l.slot, some r.slot, parent⟩ ::
        (l.entries (some s) ++ r.entries (some s))

/-- The slots in ascending order. -/
def table (t : Formula Nat) : List Entry :=
  (t.entries none).mergeSort fun a b => a.slot ≤ b.slot

/-- The links of slot `i`, all of them missing if there is no such slot. -/
def linksAt (i : Nat) (t : Formula Nat) : Links :=
  ((t.entries none).find? (·.slot == i)).elim {} Entry.links

/-- The variables in the order of their slots. -/
def slotVariables (t : Formula Nat) : List Int :=
  t.table.filterMap fun e => if e.label.isVariable then some e.label.value else none

/-- Slot by slot comparison of two stored formulas. -/
def agrees (ignoreKinds : Bool) (a b : Formula Nat) : Bool :=
  a.size == b.size && (a.table.zip b.table).all fun p => p.1.agrees ignoreKinds p.2

/-- The slots that hold the variable `v`. -/
def slotsOf (v : Int) (t : Formula Nat) : List Nat :=
  t.leaves.filterMap fun p => if p.2.varNumber? = some v then some p.1 else none

/-- Where the nodes of an inserted formula go: its root takes over slot `s`, and its other slots
are appended from `base` on. -/
def splice (s base : Nat) (i : Nat) : Nat :=
  if i = 0 then s else base + (i - 1)

/-- Put `w` in the place of every leaf with variable `v`, negated where the leaf is negated. The
copies are appended in the order of the slots they replace. -/
def replace (t : Formula Nat) (v : Int) (w : Formula Nat) : Formula Nat :=
  let targets := t.slotsOf v
  let start := t.size
  let appended := w.size - 1
  t.bindLeaves fun s a =>
    if a.varNumber? = some v then
      let earlier := (targets.filter (· < s)).length
      (w.signed a.negated).map (splice s (start + earlier * appended))
    else
      leaf s a

@[simp] theorem size_placeFrom (n : Nat) (t : Formula α) : (t.placeFrom n).size = t.size := by
  induction t generalizing n with
  | leaf s a => rfl
  | node s c l r ihl ihr => simp [placeFrom, size, ihl, ihr]

theorem placeCounting_eq (n : Nat) (t : Formula α) :
    t.placeCounting n = (t.placeFrom n, n + t.size) := by
  induction t generalizing n with
  | leaf s a => rfl
  | node s c l r ihl ihr =>
      simp only [placeCounting, placeFrom, size, ihl, ihr]
      congr 1
      omega

theorem place_eq (t : Formula α) : t.place = t.placeFrom 0 := by
  rw [place, placeCounting_eq]

@[simp] theorem size_place (t : Formula α) : t.place.size = t.size := by
  rw [place_eq, size_placeFrom]

theorem slots_placeFrom (n : Nat) (t : Formula α) :
    (t.placeFrom n).slots = List.range' n t.size := by
  induction t generalizing n with
  | leaf s a => rfl
  | node s c l r ihl ihr =>
      have hs : 1 + l.size + r.size = (l.size + r.size) + 1 := by omega
      rw [placeFrom, slots, ihl, ihr, List.range'_append_1, size, hs, List.range'_succ]

@[simp] theorem slot_placeFrom (n : Nat) (t : Formula α) : (t.placeFrom n).slot = n := by
  cases t <;> rfl

/-- The canonical placement uses each slot once, in order. -/
theorem wellPlaced_place (t : Formula α) : t.place.WellPlaced := by
  rw [place_eq]
  refine ⟨slot_placeFrom 0 t, ?_⟩
  rw [slots_placeFrom, size_placeFrom, List.range_eq_range']

end Formula

end Detachment

import Detachment.Label

/-!
# Formulas

A `Formula α` is a binary tree of connectives over possibly negated letters, with a mark of type
`α` on every node. `Formula Nat` is a formula kept in numbered slots, and `Formula Unit` is the
bare formula. Whatever concerns the letters and connectives only is defined here for every `α` and
leaves the marks alone.

There is no negation node: a negation is pushed inward by `Formula.negate` until it meets a letter
or a connective that absorbs it.
-/
namespace Detachment

inductive Formula (α : Type) where
  | leaf (slot : α) (letter : Leaf)
  | node (slot : α) (op : Connective) (left right : Formula α)
  deriving DecidableEq, Repr

/-- A formula without marks. Two formulas with the same shape are the same formula. -/
abbrev Shape := Formula Unit

namespace Formula

variable {α β : Type}

/-- The mark of the root. -/
def slot : Formula α → α
  | leaf s _ => s
  | node s _ _ _ => s

/-- The number of nodes. -/
def size : Formula α → Nat
  | leaf _ _ => 1
  | node _ _ l r => 1 + l.size + r.size

def map (f : α → β) : Formula α → Formula β
  | leaf s a => leaf (f s) a
  | node s c l r => node (f s) c (l.map f) (r.map f)

def shape : Formula α → Shape :=
  map fun _ => ()

/-- The leaves from left to right. -/
def leaves : Formula α → List (α × Leaf)
  | leaf s a => [(s, a)]
  | node _ _ l r => l.leaves ++ r.leaves

/-- The marks of all nodes, each node before its left and its left before its right part. -/
def slots : Formula α → List α
  | leaf s _ => [s]
  | node s _ l r => s :: (l.slots ++ r.slots)

/-- The label of the root. -/
def label : Formula α → Label
  | leaf _ a => a.label
  | node _ c _ _ => .function (.binary c)

def isRootedAt (op : Operation) : Formula α → Bool
  | leaf _ _ => false
  | node _ c _ _ => .binary c == op

/-- The number of nodes whose label carries `op`. Leaves carry `negation` or `nop`. -/
def operations (op : Operation) : Formula α → Nat
  | leaf _ a => if a.label.op = op then 1 else 0
  | node _ c l r => (if .binary c = op then 1 else 0) + l.operations op + r.operations op

/-- The numbers of the variables from left to right, repetitions kept. -/
def vars (t : Formula α) : List Int :=
  t.leaves.filterMap fun p => p.2.varNumber?

/-- The largest variable, or zero if there is none. -/
def maxVariable (t : Formula α) : Int :=
  t.vars.max?.getD 0

def minVariable? (t : Formula α) : Option Int :=
  t.vars.min?

def hasVariable (v : Int) (t : Formula α) : Bool :=
  t.vars.contains v

/-- Whether a variable or a constant has the number `v`. -/
def hasValue (v : Int) (t : Formula α) : Bool :=
  t.leaves.any fun p => p.2.label.isLeaf && p.2.value == v

def mapLeaves (f : Leaf → Leaf) : Formula α → Formula α
  | leaf s a => leaf s (f a)
  | node s c l r => node s c (l.mapLeaves f) (r.mapLeaves f)

/-- Renumber the variables. -/
def rename (f : Int → Int) : Formula α → Formula α :=
  mapLeaves (Leaf.rename f)

/-- Turn every variable into a constant. -/
def freeze : Formula α → Formula α :=
  mapLeaves Leaf.freeze

/-- The distinct variables in the order of their first occurrence. -/
def variableOrder (t : Formula α) : List Int :=
  t.vars.eraseDups

/-- Number the variables from one by first occurrence. -/
def normalize (t : Formula α) : Formula α :=
  let order := t.variableOrder
  t.rename fun v => (order.idxOf v : Int) + 1

/-- Shift the variables so that the smallest becomes `bound`. All numbers are stored as `fit` makes
them. -/
def shiftVariablesBy (fit : Int → Int) (bound : Int) (t : Formula α) : Formula α :=
  match t.minVariable? with
  | none => t
  | some m => t.rename fun v => fit (v + fit (bound - m))

/-- Shift the variables, with numbers of any size, so that the smallest becomes `bound`. -/
def shiftVariables (bound : Int) (t : Formula α) : Formula α :=
  t.shiftVariablesBy id bound

/-- The negation of a formula. An implication becomes a conjunction with the negated conclusion and
the other way round, a disjunction becomes a conjunction of negations, and of `xor` and equivalence
each becomes the other. -/
def negate : Formula α → Formula α
  | leaf s a => leaf s a.negate
  | node s .implication l r => node s .conjunction l r.negate
  | node s .conjunction l r => node s .implication l r.negate
  | node s .disjunction l r => node s .conjunction l.negate r.negate
  | node s .xor l r => node s .equivalence l r
  | node s .equivalence l r => node s .xor l r

/-- The formula, or its negation if `negated`. -/
def signed (negated : Bool) (t : Formula α) : Formula α :=
  if negated then t.negate else t

/-- The signed formula with every disjunction `a|b` written as `!a>b`. The sign is carried inward on
the way down, so a disjunction that a negation turns into a conjunction is no longer met. -/
def standardizeSigned : Bool → Formula α → Formula α
  | false, leaf s a => leaf s a
  | true, leaf s a => leaf s a.negate
  | false, node s .disjunction l r =>
      node s .implication (l.standardizeSigned true) (r.standardizeSigned false)
  | false, node s c l r => node s c (l.standardizeSigned false) (r.standardizeSigned false)
  | true, node s .implication l r =>
      node s .conjunction (l.standardizeSigned false) (r.standardizeSigned true)
  | true, node s .conjunction l r =>
      node s .implication (l.standardizeSigned false) (r.standardizeSigned true)
  | true, node s .disjunction l r =>
      node s .conjunction (l.standardizeSigned true) (r.standardizeSigned true)
  | true, node s .xor l r =>
      node s .equivalence (l.standardizeSigned false) (r.standardizeSigned false)
  | true, node s .equivalence l r =>
      node s .xor (l.standardizeSigned false) (r.standardizeSigned false)

/-- Write every disjunction `a|b` as `!a>b`, from the root down. -/
def standardize : Formula α → Formula α :=
  standardizeSigned false

/-- The form in which a formula is put to the prover: no disjunctions, and its letters held
fixed. -/
def asTarget (t : Formula α) : Formula α :=
  t.standardize.freeze

/-- Put a formula in the place of every leaf. -/
def bindLeaves (f : α → Leaf → Formula α) : Formula α → Formula α
  | leaf s a => f s a
  | node s c l r => node s c (l.bindLeaves f) (r.bindLeaves f)

theorem size_pos (t : Formula α) : 0 < t.size := by
  cases t <;> simp only [size] <;> omega

@[simp] theorem size_map (f : α → β) (t : Formula α) : (t.map f).size = t.size := by
  induction t with
  | leaf s a => rfl
  | node s c l r ihl ihr => simp [map, size, ihl, ihr]

@[simp] theorem size_mapLeaves (f : Leaf → Leaf) (t : Formula α) :
    (t.mapLeaves f).size = t.size := by
  induction t with
  | leaf s a => rfl
  | node s c l r ihl ihr => simp [mapLeaves, size, ihl, ihr]

@[simp] theorem size_negate (t : Formula α) : t.negate.size = t.size := by
  induction t with
  | leaf s a => rfl
  | node s c l r ihl ihr => cases c <;> simp [negate, size, ihl, ihr]

@[simp] theorem size_signed (b : Bool) (t : Formula α) : (t.signed b).size = t.size := by
  cases b <;> simp [signed]

@[simp] theorem length_slots (t : Formula α) : t.slots.length = t.size := by
  induction t with
  | leaf s a => rfl
  | node s c l r ihl ihr => simp [slots, size, ihl, ihr]; omega

/-- Standardizing the signed formula in one pass is negating first and standardizing after. -/
theorem standardizeSigned_eq (b : Bool) (t : Formula α) :
    t.standardizeSigned b = (t.signed b).standardize := by
  cases b with
  | false => rfl
  | true =>
      induction t with
      | leaf s a => rfl
      | node s c l r ihl ihr =>
          cases c <;> simp_all [standardizeSigned, standardize, signed, negate]

end Formula

end Detachment

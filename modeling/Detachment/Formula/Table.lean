import Detachment.Formula.Placement

/-!
# Operations on tables

What the operations on stored formulas do to the table of slots. A slot is found by its number, and
its links are numbers of other slots. Joining and replacing move slots and have to renumber the
links that lead to them. Copying makes new links. Negating and standardizing follow the links, with
a queue of the slots that are still to be looked at, and change labels only.
-/
namespace Detachment

namespace Label

/-- The label after a negation has come to it. -/
def invert (l : Label) : Label :=
  match l.kind with
  | .unknown => l
  | .const => l.toggle
  | .var => l.toggle
  | .function => { l with op := l.op.opposite }

/-- Change the number of a variable. -/
def rename (f : Int → Int) (l : Label) : Label :=
  if l.isVariable then { l with value := f l.value } else l

/-- Turn a variable into the constant of the same number. -/
def freeze (l : Label) : Label :=
  if l.isVariable then { l with kind := .const } else l

end Label

namespace Entry

def relabel (f : Label → Label) (e : Entry) : Entry :=
  { e with label := f e.label }

/-- The same label with other links. -/
def withLinks (e : Entry) (l : Links) : Entry :=
  ⟨l.self.getD noSlot, e.label, l.left, l.right, l.parent⟩

/-- The slots of the children, left before right. -/
def children (e : Entry) : List Nat :=
  e.left.toList ++ e.right.toList

/-- The slots of the operands that a negation of this slot goes on to. -/
def negatedChildren (e : Entry) : List Nat :=
  match e.label.op with
  | .binary .implication => e.right.toList
  | .binary .conjunction => e.right.toList
  | .binary .disjunction => e.left.toList ++ e.right.toList
  | _ => []

/-- Link a child, to the left if nothing is there and to the right otherwise. -/
def adopt (child : Nat) (e : Entry) : Entry :=
  if e.left = none then { e with left := some child } else { e with right := some child }

end Entry

/-! ### Negating -/

/-- A table in which a part is being negated, with the slots that the negation is still to come
to. -/
structure Inverting where
  table : List Entry
  queue : List Nat

namespace Inverting

/-- The negation comes to the slot at the front of the queue. If this is a connective, then the
operands that it goes on to join the queue at the back. -/
def turn (s : Inverting) : Inverting :=
  match s.queue with
  | [] => s
  | i :: queue =>
      match s.table[i]? with
      | none => ⟨s.table, queue⟩
      | some e =>
          ⟨s.table.set i (e.relabel Label.invert),
            queue ++ if e.label.isFunction then e.negatedChildren else []⟩

end Inverting

namespace Table

/-- Negate the part in slot `i`. The negation comes to no slot twice. -/
def negateAt (i : Nat) (es : List Entry) : List Entry :=
  (Nat.repeat Inverting.turn es.length ⟨es, [i]⟩).table

end Table

/-! ### Standardizing -/

/-- A table whose disjunctions are being rewritten, with the slots to be looked at. -/
structure Rewriting where
  table : List Entry
  queue : List Nat

namespace Rewriting

/-- The slot at the front of the queue is looked at. If it is a disjunction, it becomes an
implication and its left part is negated. Its children join the queue at the back. -/
def turn (s : Rewriting) : Rewriting :=
  match s.queue with
  | [] => s
  | i :: queue =>
      match s.table[i]? with
      | none => ⟨s.table, queue⟩
      | some e =>
          if e.label.isFunction && e.label.op == .binary .disjunction then
            let es := s.table.set i (e.relabel fun l => { l with op := .binary .implication })
            ⟨e.left.elim es fun l => Table.negateAt l es, queue ++ e.children⟩
          else ⟨s.table, queue ++ e.children⟩

end Rewriting

/-! ### Copying -/

/-- Let a parent, if there is one, link a child. -/
def adoptBy (parent : Option Nat) (child : Nat) (es : List Entry) : List Entry :=
  parent.elim es fun p => es.modify p (Entry.adopt child)

/-- A copy that is being made: what has been copied, and the slots that are still to be copied, each
with its parent in the copy. -/
structure Copying where
  copied : List Entry
  pending : List (Nat × Option Nat)

namespace Copying

/-- The first pending slot is copied to the end. Its parent links it, and its children are to be
copied before everything else. -/
def turn (es : List Entry) (s : Copying) : Copying :=
  match s.pending with
  | [] => s
  | (i, parent) :: pending =>
      match es[i]? with
      | none => ⟨s.copied, pending⟩
      | some e =>
          let n := s.copied.length
          ⟨adoptBy parent n (s.copied ++ [⟨n, e.label, none, none, parent⟩]),
            e.children.map (·, some n) ++ pending⟩

end Copying

namespace Table

/-- Write every disjunction as an implication, from the root down. -/
def standardize (es : List Entry) : List Entry :=
  (Nat.repeat Rewriting.turn es.length ⟨es, [0]⟩).table

/-- Copy the part in slot `i`. -/
def copy (i : Nat) (es : List Entry) : List Entry :=
  (Nat.repeat (Copying.turn es) es.length ⟨[], [(i, none)]⟩).copied

/-- Renumber the variables. -/
def rename (f : Int → Int) (es : List Entry) : List Entry :=
  es.map (Entry.relabel (Label.rename f))

/-- Turn every variable into a constant. -/
def freeze (es : List Entry) : List Entry :=
  es.map (Entry.relabel Label.freeze)

/-! ### Joining -/

/-- An operand that is moved to the slots from `offset` on, with its root below slot 0. -/
def operand (offset : Nat) (es : List Entry) : List Entry :=
  es.map fun e =>
    let links := e.links.shift offset
    e.withLinks (if links.self = some offset then { links with parent := some 0 } else links)

/-- Join two tables under a new root. -/
def join (c : Connective) (l r : List Entry) : List Entry :=
  ⟨0, .function (.binary c), some 1, some (1 + l.length), none⟩ ::
    (operand 1 l ++ operand (1 + l.length) r)

/-! ### Replacing -/

/-- The slots that hold the variable `v`. -/
def slotsOf (v : Int) (es : List Entry) : List Nat :=
  (List.range es.length).filter fun i =>
    es[i]?.any fun e => e.label.isVariable && e.label.value == v

/-- Put `w` in the place of the leaf in slot `target`, negated if the leaf is negated. The root
takes over the slot and the parent of the leaf, and the other slots are appended. -/
def splice (w es : List Entry) (target : Nat) : List Entry :=
  match es[target]? with
  | none => es
  | some e =>
      match if e.label.isNegated then negateAt 0 w else w with
      | [] => es
      | root :: rest =>
          let place := Formula.splice target es.length
          es.set target (root.withLinks { root.links.map place with parent := e.parent }) ++
            rest.map fun x => x.withLinks (x.links.map place)

/-- Put `w` in the place of every leaf with variable `v`, one after the other. -/
def replace (v : Int) (w es : List Entry) : List Entry :=
  (slotsOf v es).foldl (splice w) es

end Table

end Detachment

import Detachment.Formula.Placement

/-!
# Traversals

Every traversal here keeps a list of the parts of the formula that are still to be visited and
takes its next step from the front of it, so none of them nests calls. `inorder` and `preorder`
yield the slots in a fixed order. `walk` asks a `Plan` at each node what becomes of the two parts:
they can be visited at once, after everything that is already pending, or not at all.
-/
namespace Detachment

/-- When to visit a part. -/
inductive Timing where
  | skip
  | now
  | later
  deriving DecidableEq, Repr

/-- What a walk does with the two parts of a node. -/
structure Plan where
  left : Timing
  right : Timing
  deriving DecidableEq, Repr

namespace Plan

def depthFirst : Plan := ⟨.now, .now⟩

def breadthFirst : Plan := ⟨.later, .later⟩

/-- The parts with the given timing, left before right. -/
def pick {α : Type} (p : Plan) (timing : Timing) (l r : Formula α) : List (Formula α) :=
  (if p.left = timing then [l] else []) ++ (if p.right = timing then [r] else [])

end Plan

/-- One step of a walk. -/
structure Visit where
  slot : Nat
  /-- The distance from where the walk began. -/
  depth : Nat
  label : Label
  isRoot : Bool
  deriving DecidableEq, Repr

namespace Formula

variable {α : Type}

/-- The pending nodes of an in-order traversal after going left as far as possible. The left part
of every pending node is done. -/
def descend : Formula α → List (Formula α) → List (Formula α)
  | leaf s a, pending => leaf s a :: pending
  | node s c l r, pending => l.descend (node s c l r :: pending)

/-- Take `fuel` steps of an in-order traversal. -/
def inorderLoop : Nat → List (Formula α) → List α
  | 0, _ => []
  | _, [] => []
  | fuel + 1, leaf s _ :: pending => s :: inorderLoop fuel pending
  | fuel + 1, node s _ _ r :: pending => s :: inorderLoop fuel (r.descend pending)

/-- The slots in order: left part, node, right part. -/
def inorder (t : Formula α) : List α :=
  inorderLoop t.size (t.descend [])

/-- Take `fuel` steps of a pre-order traversal. -/
def preorderLoop : Nat → List (Formula α) → List α
  | 0, _ => []
  | _, [] => []
  | fuel + 1, leaf s _ :: pending => s :: preorderLoop fuel pending
  | fuel + 1, node s _ l r :: pending => s :: preorderLoop fuel (l :: r :: pending)

/-- The slots in order: node, left part, right part. -/
def preorder (t : Formula α) : List α :=
  preorderLoop t.size [t]

/-- What is pending after a visit of `t` at depth `d`. -/
def schedule (plan : Plan) (d : Nat) (pending : List (Formula α × Nat)) :
    Formula α → List (Formula α × Nat)
  | leaf _ _ => pending
  | node _ _ l r =>
      (plan.pick .now l r).map (·, d + 1) ++ pending ++ (plan.pick .later l r).map (·, d + 1)

/-- Take `fuel` steps of a walk. Whatever is pending is dropped after the slot `stop`. -/
def walkLoop (plan : Plan) (stop : Option Nat) :
    Nat → List (Formula Nat × Nat) → List (Formula Nat × Nat)
  | 0, _ => []
  | _, [] => []
  | fuel + 1, (t, d) :: pending =>
      let pending := if stop = some t.slot then [] else t.schedule plan d pending
      (t, d) :: walkLoop plan stop fuel pending

/-- The parts met by a walk that begins in slot `i`, with their depths. -/
def walkFrom (plan : Plan) (stop : Option Nat) (i : Nat) (t : Formula Nat) :
    List (Formula Nat × Nat) :=
  match t.at? i with
  | none => []
  | some part => walkLoop plan stop part.size [(part, 0)]

def walk (plan : Plan) (stop : Option Nat) (i : Nat) (t : Formula Nat) : List Visit :=
  (t.walkFrom plan stop i).map fun p => ⟨p.1.slot, p.2, p.1.label, p.1.slot == t.slot⟩

/-- Change the sign of the leaves in the given slots. -/
def toggleAt (slots : List Nat) (t : Formula Nat) : Formula Nat :=
  t.bindLeaves fun s a => leaf s (if slots.contains s then a.negate else a)

/-- A walk that changes the sign of each leaf it meets, with the formula it leaves behind. -/
def walkToggling (plan : Plan) (stop : Option Nat) (i : Nat) (t : Formula Nat) :
    Formula Nat × List Visit :=
  let t' := t.toggleAt ((t.walkFrom plan stop i).map (·.1.slot))
  (t', t'.walk plan stop i)

end Formula

end Detachment

import Detachment.Formula.Traversal
import Detachment.Proofs.Tables

/-!
# Traversals of stored formulas

An in-order traversal takes its steps from a list of pending nodes. It yields the slots of the left
part, then that of the node, then those of the right part, so it comes to the variables from left to
right, in whichever order the slots are filled. A pre-order traversal yields the slot of each node
before those of its parts.
-/
namespace Detachment

namespace Formula

variable {α : Type}

/-- The slots in order: left part, node, right part. -/
def inorderSlots : Formula α → List α
  | leaf s _ => [s]
  | node s _ l r => l.inorderSlots ++ s :: r.inorderSlots

/-- A pending formula is traversed before everything that was pending already. -/
theorem inorderLoop_descend (t : Formula α) (pending : List (Formula α)) (fuel : Nat) :
    inorderLoop (t.size + fuel) (t.descend pending) =
      t.inorderSlots ++ inorderLoop fuel pending := by
  induction t generalizing pending fuel with
  | leaf s a =>
      rw [size, Nat.add_comm]
      rfl
  | node s c l r ihl ihr =>
      have hsize : (node s c l r).size + fuel = l.size + (r.size + fuel + 1) := by
        rw [size]
        omega
      rw [hsize, descend, ihl, inorderLoop, ihr, inorderSlots, List.append_assoc, List.cons_append]

theorem inorder_eq (t : Formula α) : t.inorder = t.inorderSlots := by
  have h := inorderLoop_descend t [] 0
  rwa [Nat.add_zero, inorderLoop, List.append_nil] at h

theorem inorderSlots_perm (t : Formula α) : t.inorderSlots.Perm t.slots := by
  induction t with
  | leaf s a => exact .refl _
  | node s c l r ihl ihr =>
      rw [inorderSlots, slots]
      exact List.perm_middle.trans ((ihl.append ihr).cons s)

theorem preorderLoop_cons (t : Formula α) (pending : List (Formula α)) (fuel : Nat) :
    preorderLoop (t.size + fuel) (t :: pending) = t.slots ++ preorderLoop fuel pending := by
  induction t generalizing pending fuel with
  | leaf s a =>
      rw [size, Nat.add_comm]
      rfl
  | node s c l r ihl ihr =>
      have hsize : (node s c l r).size + fuel = l.size + (r.size + fuel) + 1 := by
        rw [size]
        omega
      rw [hsize, preorderLoop, ihl, ihr, slots, List.cons_append, List.append_assoc]

theorem preorder_eq (t : Formula α) : t.preorder = t.slots := by
  have h := preorderLoop_cons t [] 0
  rwa [Nat.add_zero, preorderLoop, List.append_nil] at h

end Formula

/-- The number of the variable in a slot. -/
def Entry.varNumber? (e : Entry) : Option Int :=
  if e.label.isVariable then some e.label.value else none

namespace Formula

/-- The variables that an in-order traversal comes to, read off the table. -/
def inorderVariables (t : Formula Nat) : List Int :=
  t.inorder.filterMap fun i => t.table[i]?.bind Entry.varNumber?

theorem varNumber?_rootEntry_leaf (s : Nat) (a : Leaf) (parent : Option Nat) :
    ((leaf s a).rootEntry parent).varNumber? = a.varNumber? := by
  obtain ⟨k, op, v⟩ := a
  cases k <;> rfl

theorem varNumber?_rootEntry_node (s : Nat) (c : Connective) (l r : Formula Nat)
    (parent : Option Nat) : ((node s c l r).rootEntry parent).varNumber? = none := rfl

theorem WellPlaced.inorderVariables_eq {t : Formula Nat} (h : t.WellPlaced) :
    t.inorderVariables = t.vars := by
  have hpart (u : Formula Nat) (q : Option Nat) (hsub : (u.entries q).Sublist (t.entries none)) :
      u.inorderSlots.filterMap (fun i => t.table[i]?.bind Entry.varNumber?) = u.vars := by
    induction u generalizing q with
    | leaf s a =>
        have hentry : t.table[s]? = some ((leaf s a).rootEntry q) := h.getElem?_of_sublist hsub
        rw [inorderSlots, List.filterMap_cons, hentry, Option.bind_some,
          varNumber?_rootEntry_leaf, vars_leaf]
        cases a.varNumber? <;> rfl
    | node s c l r ihl ihr =>
        have hentry : t.table[s]? = some ((node s c l r).rootEntry q) :=
          h.getElem?_of_sublist hsub
        have hl := ihl _ ((entries_left_sublist ..).trans hsub)
        have hr := ihr _ ((entries_right_sublist ..).trans hsub)
        rw [inorderSlots, List.filterMap_append, hl, List.filterMap_cons, hentry, Option.bind_some,
          varNumber?_rootEntry_node, hr, vars_node]
  rw [inorderVariables, inorder_eq]
  exact hpart t none (.refl _)

end Formula

end Detachment

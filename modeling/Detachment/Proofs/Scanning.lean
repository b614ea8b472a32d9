import Detachment.Proofs.Copying
import Detachment.Proofs.Walks

/-!
# Traversals of a table

The slots of a stored formula are traversed by their links, with a stack or a queue of the slots
that are still to come. `InorderScan`, `PreorderScan` and `Walking` read the table and nothing else.
An in-order scan goes down to the left, keeping the slots it passes on its stack, and turns to the
right of each slot that it takes from there. A walk puts the children of the slot it visits before
or behind everything that is pending, as its plan says.

All of them end and come to the slots in the orders of the recursive definitions. For the two scans
this is an induction on the part in the slot where they begin. A walk on the table keeps step with
`Formula.walkLoop`, which has the parts themselves pending instead of their slots.
-/
namespace Detachment

/-! ### What lies below a slot -/

/-- The slots on the first `n` levels below slot `i`, with their depths: one level after the other,
and each of them from left to right. -/
def levels (es : List Entry) (i n : Nat) : List (Nat × Nat) :=
  (List.range n).flatMap fun d => ((paths d).filterMap (follow es · i)).map (·, d)

/-- The list has the slots that the links lead to from slot `i`, each of them once. -/
structure ListsBelow (es : List Entry) (i : Nat) (order : List Nat) : Prop where
  nodup : order.Nodup
  mem_iff : ∀ j, j ∈ order ↔ ∃ path, follow es path i = some j

/-- One path leads from slot `i` to slot `j`, and it takes `d` turns. -/
def LiesBelow (es : List Entry) (i j d : Nat) : Prop :=
  ∃ path, (∀ p, follow es p i = some j ↔ p = path) ∧ path.length = d

theorem pairwise_levels (es : List Entry) (i n : Nat) :
    (levels es i n).Pairwise fun p q => p.2 ≤ q.2 := by
  rw [levels, List.pairwise_flatMap]
  constructor
  · intro d _
    rw [List.pairwise_map]
    exact List.pairwise_of_forall fun _ _ => Nat.le_refl d
  · refine List.pairwise_lt_range.imp fun hlt p hp q hq => ?_
    obtain ⟨_, -, rfl⟩ := List.mem_map.mp hp
    obtain ⟨_, -, rfl⟩ := List.mem_map.mp hq
    exact Nat.le_of_lt hlt

/-! ### Scans and walks -/

/-- An in-order traversal: the slots it has yielded, the slots whose left parts it has gone into, and
the slot it goes to next, if any. -/
structure InorderScan where
  yielded : List Nat
  stack : List Nat
  current : Option Nat

/-- Go to the next slot and on to its left. If there is none, yield the slot on top of the stack and
turn to its right. -/
def InorderScan.turn (es : List Entry) (s : InorderScan) : InorderScan :=
  match s.current, s.stack with
  | some i, stack => ⟨s.yielded, i :: stack, es[i]?.bind Entry.left⟩
  | none, i :: stack => ⟨s.yielded ++ [i], stack, es[i]?.bind Entry.right⟩
  | none, [] => s

/-- A pre-order traversal: the slots it has yielded, and those it goes to next. -/
structure PreorderScan where
  yielded : List Nat
  stack : List Nat

def PreorderScan.turn (es : List Entry) (s : PreorderScan) : PreorderScan :=
  match s.stack with
  | [] => s
  | i :: stack => ⟨s.yielded ++ [i], es[i]?.elim [] Entry.children ++ stack⟩

/-- The children with the given timing, left before right. -/
def Entry.pick (plan : Plan) (timing : Timing) (e : Entry) : List Nat :=
  (if plan.left = timing then e.left.toList else []) ++
    (if plan.right = timing then e.right.toList else [])

/-- A walk: the visits it has made, and the slots that are still to be visited, with their depths. -/
structure Walking where
  visits : List Visit
  pending : List (Nat × Nat)

/-- The first pending slot is visited, and its children are scheduled. Everything pending is dropped
after the slot `stop`. -/
def Walking.turn (plan : Plan) (stop : Option Nat) (es : List Entry) (s : Walking) : Walking :=
  match s.pending with
  | [] => s
  | (i, d) :: pending =>
      match es[i]? with
      | none => ⟨s.visits, pending⟩
      | some e =>
          ⟨s.visits ++ [⟨i, d, e.label, e.parent.isNone⟩],
            if stop = some i then []
            else (e.pick plan .now).map (·, d + 1) ++ pending ++ (e.pick plan .later).map (·, d + 1)⟩

namespace Formula

variable {t u : Formula Nat}

/-! ### Parts in a table -/

/-- The entries of the part are among those of the formula. -/
def IsPartOf (u t : Formula Nat) : Prop :=
  ∃ q, (u.entries q).Sublist (t.entries none)

theorem IsPartOf.operand {w : Formula Nat} (h : u.IsPartOf t) (hw : w ∈ u.operands) :
    w.IsPartOf t := by
  obtain ⟨q, hsub⟩ := h
  cases u with
  | leaf s a => exact absurd hw List.not_mem_nil
  | node s c l r =>
      obtain rfl | rfl : w = l ∨ w = r := by simpa [operands] using hw
      · exact ⟨some s, (entries_left_sublist ..).trans hsub⟩
      · exact ⟨some s, (entries_right_sublist ..).trans hsub⟩

/-- Every entry but that of the root has a parent. -/
theorem mem_entries_cases {q : Option Nat} {e : Entry} (h : e ∈ t.entries q) :
    e = t.rootEntry q ∨ e.parent ≠ none := by
  induction t generalizing q with
  | leaf s a => exact .inl (List.mem_singleton.mp h)
  | node s c l r ihl ihr =>
      rw [entries, List.mem_cons, List.mem_append] at h
      obtain he | hl | hr := h
      · exact .inl he
      · obtain rfl | hparent := ihl hl
        · exact .inr (by simp [parent_rootEntry])
        · exact .inr hparent
      · obtain rfl | hparent := ihr hr
        · exact .inr (by simp [parent_rootEntry])
        · exact .inr hparent

/-- The visit of a part of `t`, at the given depth. -/
def visit (t : Formula Nat) (p : Formula Nat × Nat) : Visit :=
  ⟨p.1.slot, p.2, p.1.label, p.1.slot == t.slot⟩

theorem walk_of_at? {i : Nat} (hu : t.at? i = some u) (plan : Plan) (stop : Option Nat) :
    t.walk plan stop i = (walkLoop plan stop u.size [(u, 0)]).map t.visit := by
  rw [walk, walkFrom, hu]
  rfl

theorem map_slot_walk {i : Nat} (hu : t.at? i = some u) (plan : Plan) (stop : Option Nat) :
    (t.walk plan stop i).map Visit.slot =
      (walkLoop plan stop u.size [(u, 0)]).map (·.1.slot) := by
  rw [walk_of_at? hu, List.map_map]
  rfl

namespace WellPlaced

variable (h : t.WellPlaced)
include h

/-- Only the root has no parent. -/
theorem isNone_parent {q : Option Nat} (hsub : (u.entries q).Sublist (t.entries none)) :
    q.isNone = (u.slot == t.slot) := by
  rw [Bool.eq_iff_iff, Option.isNone_iff_eq_none, beq_iff_eq]
  constructor
  · rintro rfl
    obtain hroot | hparent := mem_entries_cases (hsub.subset (u.rootEntry_mem none))
    · have hslot := congrArg Entry.slot hroot
      rwa [slot_rootEntry, slot_rootEntry] at hslot
    · exact absurd (parent_rootEntry u none) hparent
  · intro hslot
    have hentry := h.getElem?_of_sublist hsub
    rw [hslot, h.getElem?_of_sublist (.refl (t.entries none))] at hentry
    have hparent := congrArg Entry.parent (Option.some.inj hentry)
    rw [parent_rootEntry, parent_rootEntry] at hparent
    exact hparent.symm

section

variable {i : Nat} (hu : t.at? i = some u)
include hu

theorem follow_of_at? (path : List Turn) : follow t.table path i = (u.along path).map slot := by
  obtain ⟨q, hsub⟩ := exists_sublist_of_at? hu none
  rw [← (slot_of_at? hu).1]
  exact h.follow_table hsub path

theorem nodup_of_at? : u.slots.Nodup := by
  obtain ⟨q, hsub⟩ := exists_sublist_of_at? hu none
  exact h.nodup_slots.sublist (slots_sublist hsub)

/-- The slots of a part are those that the links lead to from its root. -/
theorem listsBelow {order : List Nat} (hperm : order.Perm u.slots) :
    ListsBelow t.table i order where
  nodup := hperm.nodup_iff.mpr (h.nodup_of_at? hu)
  mem_iff j := by
    rw [hperm.mem_iff]
    simp only [h.follow_of_at? hu]
    constructor
    · exact fun hj => (existsUnique_along (h.nodup_of_at? hu) hj).exists
    · rintro ⟨path, hpath⟩
      obtain ⟨w, hw, rfl⟩ := Option.map_eq_some_iff.mp hpath
      exact slot_mem_of_along hw

theorem liesBelow {w : Formula Nat} {path : List Turn} (hpath : u.along path = some w) :
    LiesBelow t.table i w.slot path.length := by
  have hw : (u.along path).map slot = some w.slot := by rw [hpath, Option.map_some]
  refine ⟨path, fun p => ?_, rfl⟩
  rw [h.follow_of_at? hu]
  constructor
  · intro hp
    exact (existsUnique_along (h.nodup_of_at? hu) (slot_mem_of_along hpath)).unique hp hw
  · rintro rfl
    exact hw

/-- A breadth-first walk comes to one level after the other. -/
theorem walk_breadthFirst :
    (t.walk .breadthFirst none i).map (fun v => (v.slot, v.depth)) = levels t.table i u.size := by
  have hsize : backlog ([u].map (·, 0)) ≤ u.size := Nat.le_refl _
  have hloop : walkLoop .breadthFirst none u.size [(u, 0)] = _ := walkLoop_levels [u] hsize hsize
  have hlevel (d : Nat) : (u.level d).map slot = (paths d).filterMap (follow t.table · i) := by
    rw [level, List.map_filterMap]
    exact List.filterMap_congr fun path _ => (h.follow_of_at? hu path).symm
  rw [walk_of_at? hu, levels, hloop, List.map_map, List.map_flatMap]
  refine List.flatMap_congr fun d _ => ?_
  rw [← hlevel, List.flatMap_singleton, List.map_map, List.map_map, Nat.zero_add]
  rfl

end

end WellPlaced

end Formula

open Formula

variable {t u : Formula Nat}

/-! ### The scans -/

namespace InorderScan

/-- The slots of a part are yielded in order, and the stack is then as it was before. Each slot is
put on the stack once and taken from it once. -/
theorem iterate_turn (h : t.WellPlaced) {q : Option Nat}
    (hsub : (u.entries q).Sublist (t.entries none)) (yielded stack : List Nat) :
    (turn t.table)^[2 * u.size] ⟨yielded, stack, some u.slot⟩ =
      ⟨yielded ++ u.inorderSlots, stack, none⟩ := by
  induction u generalizing q yielded stack with
  | leaf s a =>
      have hentry : t.table[s]? = some ((leaf s a).rootEntry q) := h.getElem?_of_sublist hsub
      have hdown : turn t.table ⟨yielded, stack, some s⟩ = ⟨yielded, s :: stack, none⟩ := by
        simp only [turn, hentry, Option.bind_some, rootEntry]
      have hup : turn t.table ⟨yielded, s :: stack, none⟩ = ⟨yielded ++ [s], stack, none⟩ := by
        simp only [turn, hentry, Option.bind_some, rootEntry]
      exact (congrArg (turn t.table) hdown).trans hup
  | node s c l r ihl ihr =>
      have hentry : t.table[s]? = some ((node s c l r).rootEntry q) := h.getElem?_of_sublist hsub
      have hdown : turn t.table ⟨yielded, stack, some s⟩ =
          ⟨yielded, s :: stack, some l.slot⟩ := by
        simp only [turn, hentry, Option.bind_some, rootEntry]
      have hup (yielded : List Nat) : turn t.table ⟨yielded, s :: stack, none⟩ =
          ⟨yielded ++ [s], stack, some r.slot⟩ := by
        simp only [turn, hentry, Option.bind_some, rootEntry]
      have hsize : 2 * (node s c l r).size = (2 * r.size + 1) + 2 * l.size + 1 := by
        rw [size]
        omega
      rw [hsize, Function.iterate_succ_apply, slot, hdown, Function.iterate_add_apply,
        ihl ((entries_left_sublist ..).trans hsub), Function.iterate_succ_apply, hup,
        ihr ((entries_right_sublist ..).trans hsub), inorderSlots, List.append_assoc,
        List.append_assoc, List.singleton_append]

end InorderScan

namespace PreorderScan

theorem turn_eq (h : t.WellPlaced) {q : Option Nat}
    (hsub : (u.entries q).Sublist (t.entries none)) (yielded stack : List Nat) :
    turn t.table ⟨yielded, u.slot :: stack⟩ =
      ⟨yielded ++ [u.slot], (u.rootEntry q).children ++ stack⟩ := by
  simp only [turn, h.getElem?_of_sublist hsub, Option.elim_some]

/-- The slots of a part are yielded in pre-order, before everything else on the stack. -/
theorem iterate_turn (h : t.WellPlaced) {q : Option Nat}
    (hsub : (u.entries q).Sublist (t.entries none)) (yielded stack : List Nat) :
    (turn t.table)^[u.size] ⟨yielded, u.slot :: stack⟩ = ⟨yielded ++ u.slots, stack⟩ := by
  induction u generalizing q yielded stack with
  | leaf s a => exact turn_eq h hsub yielded stack
  | node s c l r ihl ihr =>
      have hroot : turn t.table ⟨yielded, s :: stack⟩ =
          ⟨yielded ++ [s], l.slot :: r.slot :: stack⟩ := turn_eq h hsub yielded stack
      have hsize : (node s c l r).size = r.size + (l.size + 1) := by
        rw [size]
        omega
      rw [hsize, Function.iterate_add_apply, Function.iterate_succ_apply, slot, hroot,
        ihl ((entries_left_sublist ..).trans hsub), ihr ((entries_right_sublist ..).trans hsub),
        slots, List.append_assoc, List.append_assoc, List.singleton_append]

end PreorderScan

/-! ### Walks on the table -/

namespace Walking

/-- The slots of pending parts. -/
def stored (pending : List (Formula Nat × Nat)) : List (Nat × Nat) :=
  pending.map fun p => (p.1.slot, p.2)

theorem pick_rootEntry (plan : Plan) (timing : Timing) (s : Nat) (c : Connective)
    (l r : Formula Nat) (q : Option Nat) :
    ((node s c l r).rootEntry q).pick plan timing = (plan.pick timing l r).map slot := by
  rw [Entry.pick, Plan.pick, List.map_append]
  congr 1 <;> split <;> rfl

theorem stored_schedule (plan : Plan) (d : Nat) (pending : List (Formula Nat × Nat))
    (u : Formula Nat) (q : Option Nat) :
    stored (u.schedule plan d pending) =
      ((u.rootEntry q).pick plan .now).map (·, d + 1) ++ stored pending ++
        ((u.rootEntry q).pick plan .later).map (·, d + 1) := by
  cases u with
  | leaf s a => simp [schedule, Entry.pick, rootEntry]
  | node s c l r => simp [schedule, pick_rootEntry, stored, Function.comp_def]

/-- A turn on the table visits the first of the pending parts. -/
theorem turn_eq (h : t.WellPlaced) (hu : u.IsPartOf t) (plan : Plan) (stop : Option Nat) (d : Nat)
    (pending : List (Formula Nat × Nat)) (visits : List Visit) :
    turn plan stop t.table ⟨visits, stored ((u, d) :: pending)⟩ =
      ⟨visits ++ [t.visit (u, d)],
        stored (if stop = some u.slot then [] else u.schedule plan d pending)⟩ := by
  obtain ⟨q, hsub⟩ := hu
  have hpending : stored ((u, d) :: pending) = (u.slot, d) :: stored pending := rfl
  rw [hpending]
  simp only [turn, h.getElem?_of_sublist hsub, label_rootEntry, parent_rootEntry,
    h.isNone_parent hsub, visit]
  split
  · rfl
  · rw [stored_schedule plan d pending u q]

/-- A walk on the table makes the visits of the walk through the parts. There are at most as many as
the pending parts have nodes, and then nothing is pending any more. -/
theorem iterate_turn (h : t.WellPlaced) (plan : Plan) (stop : Option Nat) {n : Nat}
    (pending : List (Formula Nat × Nat)) (hparts : ∀ p ∈ pending, p.1.IsPartOf t)
    (hn : backlog pending ≤ n) (visits : List Visit) :
    (turn plan stop t.table)^[n] ⟨visits, stored pending⟩ =
      ⟨visits ++ (walkLoop plan stop n pending).map t.visit, []⟩ := by
  induction n generalizing pending visits with
  | zero =>
      rw [pending_eq_nil (Nat.le_zero.mp hn), walkLoop_nil, List.map_nil, List.append_nil]
      rfl
  | succ n ih =>
      cases pending with
      | nil =>
          rw [walkLoop_nil, List.map_nil, List.append_nil]
          exact Function.iterate_fixed rfl (n + 1)
      | cons p pending =>
          obtain ⟨u, d⟩ := p
          have hu : u.IsPartOf t := hparts (u, d) (by simp)
          have hn : u.size + backlog pending ≤ n + 1 := hn
          have hless := backlog_schedule_lt plan u d pending
          rw [Function.iterate_succ_apply, turn_eq h hu, ih, walkLoop_cons, List.map_cons,
            List.append_assoc, List.singleton_append]
          · intro p hp
            split at hp
            · exact absurd hp List.not_mem_nil
            · obtain hp | ⟨w, hw, rfl⟩ := mem_schedule hp
              · exact hparts p (by simp [hp])
              · exact hu.operand hw
          · split
            · exact Nat.zero_le n
            · omega

/-- A walk from the slot of a part ends after as many turns as the part has slots. -/
theorem iterate_turn_part (h : t.WellPlaced) {i : Nat} (hu : t.at? i = some u) (plan : Plan)
    (stop : Option Nat) :
    (turn plan stop t.table)^[u.size] ⟨[], [(i, 0)]⟩ = ⟨t.walk plan stop i, []⟩ := by
  have hparts : ∀ p ∈ [(u, 0)], p.1.IsPartOf t := by
    intro p hp
    obtain rfl := List.mem_singleton.mp hp
    exact exists_sublist_of_at? hu none
  have hrun := iterate_turn h plan stop [(u, 0)] hparts (Nat.le_refl u.size) []
  have hstart : stored [(u, 0)] = [(i, 0)] := by rw [← (slot_of_at? hu).1]; rfl
  rwa [hstart, List.nil_append, ← walk_of_at? hu] at hrun

end Walking

/-- Traversals come to the slots in the orders of the recursive definitions. In whichever way a
formula is stored, there is a part in each of its slots. The in-order traversal from there yields
the slots below it, each of them once: the left part, the node, the right part. So does the
pre-order traversal, with the node before both. A depth-first walk visits in pre-order, and a
breadth-first walk visits one level after the other, each level from left to right. Every walk,
whatever its plan, carries the number of links from where it began to the slot it visits. On the
table all of them come to an end, with nothing pending. -/
theorem traversals_follow_recursion (h : t.WellPlaced) {i : Nat} (hi : i < t.size) :
    ∃ u, t.at? i = some u ∧
      (u.inorder = u.inorderSlots ∧ ListsBelow t.table i u.inorder ∧
        (InorderScan.turn t.table)^[2 * u.size] ⟨[], [], some i⟩ = ⟨u.inorder, [], none⟩) ∧
      (u.preorder = u.slots ∧ ListsBelow t.table i u.preorder ∧
        (PreorderScan.turn t.table)^[u.size] ⟨[], [i]⟩ = ⟨u.preorder, []⟩) ∧
      (t.walk .depthFirst none i).map Visit.slot = u.preorder ∧
      ((t.walk .breadthFirst none i).map (fun v => (v.slot, v.depth)) = levels t.table i u.size ∧
        ListsBelow t.table i ((t.walk .breadthFirst none i).map Visit.slot) ∧
        (t.walk .breadthFirst none i).Pairwise fun v w => v.depth ≤ w.depth) ∧
      ∀ plan stop,
        (Walking.turn plan stop t.table)^[u.size] ⟨[], [(i, 0)]⟩ = ⟨t.walk plan stop i, []⟩ ∧
        ∀ v ∈ t.walk plan stop i, LiesBelow t.table i v.slot v.depth := by
  obtain ⟨u, hu⟩ := exists_at? (h.2.mem_iff.mpr (List.mem_range.mpr hi))
  obtain ⟨q, hsub⟩ := exists_sublist_of_at? hu none
  have hslot : u.slot = i := (slot_of_at? hu).1
  have hlevels := h.walk_breadthFirst hu
  refine ⟨u, hu, ⟨u.inorder_eq, ?_, ?_⟩, ⟨u.preorder_eq, ?_, ?_⟩, ?_, ⟨hlevels, ?_, ?_⟩,
    fun plan stop => ⟨Walking.iterate_turn_part h hu plan stop, fun v hv => ?_⟩⟩
  · rw [u.inorder_eq]
    exact h.listsBelow hu u.inorderSlots_perm
  · rw [← hslot, InorderScan.iterate_turn h hsub, u.inorder_eq, List.nil_append]
  · rw [u.preorder_eq]
    exact h.listsBelow hu (.refl _)
  · rw [← hslot, PreorderScan.iterate_turn h hsub, u.preorder_eq, List.nil_append]
  · rw [map_slot_walk hu]
    exact map_slot_depthFirst u.size [(u, 0)]
  · have hperm := walkLoop_perm [(u, 0)] (Nat.le_refl u.size)
    rw [List.flatMap_singleton] at hperm
    rw [map_slot_walk hu]
    exact h.listsBelow hu hperm
  · have hpairwise := pairwise_levels t.table i u.size
    rwa [← hlevels, List.pairwise_map] at hpairwise
  · rw [walk_of_at? hu] at hv
    obtain ⟨p, hp, rfl⟩ := List.mem_map.mp hv
    obtain ⟨path, hpath, hlength⟩ := exists_path_of_mem_walkLoop hp
    have hbelow := h.liesBelow hu hpath
    rwa [hlength] at hbelow

/-- `a>(b>a)` with contraposition put in the place of `a`. The second copy has its root in slot 4 and
its other slots from 11 on. -/
def twiceContraposed : Formula Nat :=
  Schemas.weakening.replace 1 Schemas.contraposition

/-- From slot 4 the three orders are all different. -/
theorem traversals_follow_contraposed :
    twiceContraposed.WellPlaced ∧ 4 < twiceContraposed.size ∧
    (InorderScan.turn twiceContraposed.table)^[14] ⟨[], [], some 4⟩ =
      ⟨[12, 11, 13, 4, 15, 14, 16], [], none⟩ ∧
    (PreorderScan.turn twiceContraposed.table)^[7] ⟨[], [4]⟩ =
      ⟨[4, 11, 12, 13, 14, 15, 16], []⟩ ∧
    (twiceContraposed.walk .depthFirst none 4).map Visit.slot = [4, 11, 12, 13, 14, 15, 16] ∧
    levels twiceContraposed.table 4 7 =
      [(4, 0), (11, 1), (14, 1), (12, 2), (13, 2), (15, 2), (16, 2)] ∧
    (Walking.turn .breadthFirst none twiceContraposed.table)^[7] ⟨[], [(4, 0)]⟩ =
      ⟨twiceContraposed.walk .breadthFirst none 4, []⟩ ∧
    LiesBelow twiceContraposed.table 4 14 1 := by
  have hwell : twiceContraposed.WellFormed :=
    (Obtained.replace 1 (.schema (by simp [Schemas.classical])) (.schema (by simp))).wellFormed rfl
  have hrange : 4 < twiceContraposed.size := by decide
  obtain ⟨u, hu, ⟨-, -, hin⟩, ⟨-, -, hpre⟩, hdepth, ⟨hbreadth, -, -⟩, hwalk⟩ :=
    traversals_follow_recursion hwell.1 hrange
  have hpart : (twiceContraposed.at? 4).map (fun u => (u.size, u.inorder, u.preorder)) =
      some (7, [12, 11, 13, 4, 15, 14, 16], [4, 11, 12, 13, 14, 15, 16]) := by decide
  rw [hu, Option.map_some, Option.some.injEq, Prod.mk.injEq, Prod.mk.injEq] at hpart
  obtain ⟨hsize, hinorder, hpreorder⟩ := hpart
  rw [hsize, hinorder] at hin
  rw [hsize, hpreorder] at hpre
  rw [hpreorder] at hdepth
  rw [hsize] at hbreadth hwalk
  obtain ⟨hrun, hlies⟩ := hwalk .breadthFirst none
  have hvisit : ⟨14, 1, .function (.binary .implication), false⟩ ∈
      twiceContraposed.walk .breadthFirst none 4 := by decide
  exact ⟨hwell.1, hrange, hin, hpre, hdepth, hbreadth ▸ by decide, hrun, hlies _ hvisit⟩

end Detachment

import Detachment.Proofs.Heredity
import Mathlib.Data.List.Perm.Subperm

/-!
# Slots without gaps

A stored formula fills the slots from zero on, each of them once, and has its root in slot 0. Every
operation on stored formulas leaves it so. Most of them do not touch the slots or place the result
anew. Joining moves the slots of both operands, and replacing a variable appends the copies one
after the other, in the order of the leaves that they replace, so that each copy fills a block of
its own.
-/
namespace Detachment

open scoped List

/-! ### Ranks -/

/-- The number of members of `l` that are smaller. -/
def rank (l : List Nat) (n : Nat) : Nat :=
  (l.filter (· < n)).length

theorem rank_lt {l : List Nat} {n : Nat} (h : n ∈ l) : rank l n < l.length :=
  List.length_filter_lt_length_iff_exists.mpr ⟨n, h, by simp⟩

theorem rank_lt_rank {l : List Nat} {m n : Nat} (hm : m ∈ l) (h : m < n) : rank l m < rank l n := by
  have hfilter : l.filter (· < m) = (l.filter (· < n)).filter (· < m) := by
    rw [List.filter_filter]
    refine List.filter_congr fun k _ => ?_
    by_cases hk : k < m
    · simp [hk, hk.trans h]
    · simp [hk]
  unfold rank
  rw [hfilter]
  exact List.length_filter_lt_length_iff_exists.mpr ⟨m, by simpa using ⟨hm, h⟩, by simp⟩

/-- The ranks of distinct numbers are the numbers below their count. -/
theorem map_rank_perm {l : List Nat} (h : l.Nodup) : (l.map (rank l)).Perm (List.range l.length) := by
  have hnodup : (l.map (rank l)).Nodup := by
    refine h.map_on fun m hm n hn hrank => ?_
    obtain hlt | heq | hlt := Nat.lt_trichotomy m n
    · have := rank_lt_rank hm hlt
      omega
    · exact heq
    · have := rank_lt_rank hn hlt
      omega
  have hsub : l.map (rank l) ⊆ List.range l.length := by
    intro k hk
    obtain ⟨n, hn, rfl⟩ := List.mem_map.mp hk
    exact List.mem_range.mpr (rank_lt hn)
  exact (hnodup.subperm hsub).perm_of_length_le (by simp)

/-- Consecutive blocks of the same length make up one block. -/
theorem flatMap_range_range' (start length count : Nat) :
    (List.range count).flatMap (fun k => List.range' (start + k * length) length) =
      List.range' start (count * length) := by
  induction count with
  | zero => simp
  | succ count ih =>
      rw [List.range_succ, List.flatMap_append, ih, Nat.succ_mul]
      simp [List.range'_append_1]

/-- Zero, a block after it and another block after that make up one block. -/
theorem cons_range_append (m n : Nat) :
    0 :: ((List.range m).map (· + 1) ++ (List.range n).map (· + (1 + m))) =
      List.range (1 + m + n) := by
  have hshift (n k : Nat) : (List.range n).map (· + k) = List.range' k n := by
    rw [List.range'_eq_map_range]
    exact List.map_congr_left fun i _ => Nat.add_comm i k
  rw [hshift, hshift, List.range'_append_1, show 1 + m + n = (m + n) + 1 by omega,
    List.range_eq_range', List.range'_succ]

namespace Formula

variable {α β : Type}

@[simp] theorem slots_map (f : α → β) (t : Formula α) : (t.map f).slots = t.slots.map f := by
  induction t with
  | leaf s a => rfl
  | node s c l r ihl ihr => simp [map, slots, ihl, ihr]

@[simp] theorem slots_negate (t : Formula α) : t.negate.slots = t.slots := by
  induction t with
  | leaf s a => rfl
  | node s c l r ihl ihr => cases c <;> simp [negate, slots, ihl, ihr]

@[simp] theorem slots_signed (b : Bool) (t : Formula α) : (t.signed b).slots = t.slots := by
  cases b <;> simp [signed]

theorem slots_modifyAt (i : Nat) {f : Formula Nat → Formula Nat} (hf : ∀ t, (f t).slots = t.slots)
    (t : Formula Nat) : (t.modifyAt i f).slots = t.slots := by
  induction t with
  | leaf s a =>
      rw [modifyAt]
      split
      · exact hf _
      · rfl
  | node s c l r ihl ihr =>
      rw [modifyAt]
      split
      · exact hf _
      · rw [slots, slots, ihl, ihr]

theorem WellPlaced.negateAt {t : Formula Nat} (h : t.WellPlaced) (i : Nat) :
    (t.negateAt i).WellPlaced :=
  h.of_slots (slots_modifyAt i slots_negate t)

theorem size_join (c : Connective) (l r : Formula Nat) :
    (Formula.join c l r).size = 1 + l.size + r.size := by
  simp only [Formula.join, size, size_map]

theorem WellPlaced.join {l r : Formula Nat} (hl : l.WellPlaced) (hr : r.WellPlaced)
    (c : Connective) : (Formula.join c l r).WellPlaced := by
  refine ⟨rfl, ?_⟩
  calc (Formula.join c l r).slots
      = 0 :: (l.slots.map (· + 1) ++ r.slots.map (· + (1 + l.size))) := by
        simp [Formula.join, slots]
    _ ~ 0 :: ((List.range l.size).map (· + 1) ++ (List.range r.size).map (· + (1 + l.size))) :=
        ((hl.2.map _).append (hr.2.map _)).cons 0
    _ = List.range (Formula.join c l r).size := by
        rw [cons_range_append, size_join]

/-! ### Replacing a variable -/

/-- What is put in the place of leaves keeps their slots and adds slots of its own. -/
theorem slots_bindLeaves_perm {f : Nat → Leaf → Formula Nat} (added : Nat → Leaf → List Nat)
    (h : ∀ s a, (f s a).slots.Perm (s :: added s a)) (t : Formula Nat) :
    (t.bindLeaves f).slots.Perm (t.slots ++ t.leaves.flatMap fun p => added p.1 p.2) := by
  induction t with
  | leaf s a => simpa [bindLeaves, slots, leaves] using h s a
  | node s c l r ihl ihr =>
      rw [bindLeaves, slots, slots, leaves, List.flatMap_append, List.cons_append]
      refine ((ihl.append ihr).trans ?_).cons s
      rw [List.append_assoc, List.append_assoc]
      refine List.Perm.append_left _ ?_
      rw [← List.append_assoc, ← List.append_assoc]
      exact List.perm_append_comm.append_right _

/-- A copy takes over the slot of its leaf and fills a block from `base` on. -/
theorem WellPlaced.slots_splice {w : Formula Nat} (hw : w.WellPlaced) (b : Bool) (s base : Nat) :
    ((w.signed b).map (splice s base)).slots.Perm (s :: List.range' base (w.size - 1)) := by
  rw [slots_map, slots_signed]
  refine (hw.2.map _).trans (.of_eq ?_)
  obtain ⟨n, hn⟩ : ∃ n, w.size = n + 1 := ⟨w.size - 1, by have := w.size_pos; omega⟩
  rw [hn, List.range_succ_eq_map, List.map_cons, List.map_map, List.range'_eq_map_range]
  refine congrArg₂ List.cons (by simp [splice]) (List.map_congr_left fun i _ => ?_)
  simp [splice]

theorem slot_replace {t w : Formula Nat} (hw : w.slot = 0) (v : Int) :
    (t.replace v w).slot = t.slot := by
  cases t with
  | node s c l r => rfl
  | leaf s a =>
      rw [replace, bindLeaves]
      dsimp only
      split
      · have hroot (f : Nat → Nat) (u : Formula Nat) : (u.map f).slot = f u.slot := by
          cases u <;> rfl
        rw [hroot, slot_of_slots (slots_signed ..), hw]
        rfl
      · rfl

theorem slotsOf_sublist (v : Int) (t : Formula Nat) : (t.slotsOf v).Sublist t.slots := by
  unfold slotsOf
  induction t with
  | leaf s a =>
      rw [leaves, List.filterMap_cons]
      split
      · exact List.nil_sublist _
      · rename_i h
        split at h
        · obtain rfl := Option.some.inj h
          exact .refl _
        · cases h
  | node s c l r ihl ihr =>
      rw [leaves, List.filterMap_append, slots]
      exact (ihl.append ihr).cons s

theorem slots_replace_perm {t w : Formula Nat} (ht : t.WellPlaced) (hw : w.WellPlaced) (v : Int) :
    (t.replace v w).slots.Perm
      (List.range (t.size + (t.slotsOf v).length * (w.size - 1))) := by
  let block (s : Nat) : List Nat :=
    List.range' (t.size + rank (t.slotsOf v) s * (w.size - 1)) (w.size - 1)
  have hbind : (t.replace v w).slots.Perm (t.slots ++ t.leaves.flatMap fun p =>
      if p.2.varNumber? = some v then block p.1 else []) := by
    refine slots_bindLeaves_perm (fun s a => if a.varNumber? = some v then block s else [])
      (fun s a => ?_) t
    dsimp only
    split
    · exact hw.slots_splice ..
    · exact .refl _
  have htargets : (t.leaves.flatMap fun p => if p.2.varNumber? = some v then block p.1 else []) =
      (t.slotsOf v).flatMap block := by
    unfold slotsOf
    induction t.leaves with
    | nil => rfl
    | cons p ps ih =>
        rw [List.flatMap_cons, List.filterMap_cons, ih]
        split <;> simp
  have hnodup : (t.slotsOf v).Nodup := ht.nodup_slots.sublist (t.slotsOf_sublist v)
  calc (t.replace v w).slots
      ~ t.slots ++ (t.slotsOf v).flatMap block := htargets ▸ hbind
    _ ~ List.range t.size ++ List.range' t.size ((t.slotsOf v).length * (w.size - 1)) := by
        have hblocks := (map_rank_perm hnodup).flatMap_right fun k =>
          List.range' (t.size + k * (w.size - 1)) (w.size - 1)
        rw [List.flatMap_map, flatMap_range_range'] at hblocks
        exact ht.2.append hblocks
    _ = List.range (t.size + (t.slotsOf v).length * (w.size - 1)) := by
        rw [List.range_eq_range', List.range_eq_range', ← List.range'_append_1, Nat.zero_add]

theorem WellPlaced.replace {t w : Formula Nat} (ht : t.WellPlaced) (hw : w.WellPlaced) (v : Int) :
    (t.replace v w).WellPlaced := by
  have hperm := slots_replace_perm ht hw v
  refine ⟨(slot_replace hw.1 v).trans ht.1, ?_⟩
  rwa [← length_slots, hperm.length_eq, List.length_range]

end Formula

theorem hereditary_wellPlaced : Hereditary Formula.WellPlaced where
  var _ := ⟨rfl, .refl _⟩
  negate h := h.of_slots (Formula.slots_negate _)
  parts _ := ⟨Formula.wellPlaced_place _, Formula.wellPlaced_place _⟩
  apply := by
    intro s t _ h
    obtain ⟨-, he⟩ | he := s.apply_cases t
    · rwa [he]
    · rw [he]
      exact Formula.wellPlaced_place _

end Detachment

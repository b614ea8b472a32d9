import Detachment.Proofs.Tables

/-!
# Parts in slots

The part of a stored formula in a slot, and what becomes of the formula when that part is changed.
As no two nodes share a slot, a part lies in one of the two operands of every node above it, and
whatever surrounds it stays as it is.
-/
namespace Detachment

namespace Formula

variable {i j : Nat} {t u w : Formula Nat} {f : Formula Nat → Formula Nat}

theorem at?_slot (t : Formula Nat) : t.at? t.slot = some t := by
  cases t <;> simp [at?, slot]

theorem at?_leaf {s : Nat} {a : Leaf} : (leaf s a).at? i = some u ↔ s = i ∧ leaf s a = u := by
  rw [at?]
  split <;> simp_all

theorem slot_of_at? (h : t.at? i = some u) : u.slot = i ∧ i ∈ t.slots := by
  induction t with
  | leaf s a =>
      obtain ⟨rfl, rfl⟩ := at?_leaf.mp h
      exact ⟨rfl, by simp [slots]⟩
  | node s c l r ihl ihr =>
      rw [at?] at h
      split at h
      · cases h
        simp_all [slot, slots]
      · rw [slots, List.mem_cons, List.mem_append]
        obtain hl | ⟨-, hr⟩ := Option.or_eq_some_iff.mp h
        · exact ⟨(ihl hl).1, .inr (.inl (ihl hl).2)⟩
        · exact ⟨(ihr hr).1, .inr (.inr (ihr hr).2)⟩

theorem exists_at? (h : i ∈ t.slots) : ∃ u, t.at? i = some u := by
  induction t with
  | leaf s a =>
      obtain rfl : i = s := by simpa [slots] using h
      exact ⟨leaf i a, at?_slot (leaf i a)⟩
  | node s c l r ihl ihr =>
      by_cases hs : s = i
      · subst hs
        exact ⟨node s c l r, at?_slot (node s c l r)⟩
      · rw [at?, if_neg hs]
        rw [slots, List.mem_cons, List.mem_append] at h
        obtain h | h | h := h
        · exact absurd h.symm hs
        · obtain ⟨u, hu⟩ := ihl h
          exact ⟨u, by rw [hu]; rfl⟩
        · obtain ⟨u, hu⟩ := ihr h
          cases hl : l.at? i with
          | none => exact ⟨u, by rw [hu]; rfl⟩
          | some w => exact ⟨w, rfl⟩

theorem not_mem_of_at? (h : t.at? i = none) : i ∉ t.slots := by
  intro hmem
  obtain ⟨u, hu⟩ := exists_at? hmem
  rw [h] at hu
  cases hu

/-- No two nodes share a slot if this is so in both operands, and neither the root nor the other
operand has a slot of an operand. -/
theorem nodup_slots_node {s : Nat} {c : Connective} {l r : Formula Nat} :
    (node s c l r).slots.Nodup ↔ (s ∉ l.slots ∧ s ∉ r.slots) ∧ l.slots.Nodup ∧ r.slots.Nodup ∧
      List.Disjoint l.slots r.slots := by
  rw [slots, List.nodup_cons, List.nodup_append', List.mem_append, not_or]

/-- The part in a slot is the whole formula or lies in one of the two operands. -/
theorem at?_node_cases {s : Nat} {c : Connective} {l r : Formula Nat}
    (hnd : (node s c l r).slots.Nodup) (h : (node s c l r).at? i = some u) :
    (s = i ∧ u = node s c l r) ∨
      s ≠ i ∧ (l.at? i = some u ∧ i ∉ r.slots ∨ r.at? i = some u ∧ i ∉ l.slots) := by
  rw [slots, List.nodup_cons, List.nodup_append] at hnd
  obtain ⟨-, -, -, hdisjoint⟩ := hnd
  rw [at?] at h
  split at h
  · rename_i hs
    exact .inl ⟨hs, (Option.some.inj h).symm⟩
  · rename_i hs
    refine .inr ⟨hs, ?_⟩
    obtain hl | ⟨-, hr⟩ := Option.or_eq_some_iff.mp h
    · exact .inl ⟨hl, fun hmem => hdisjoint i (slot_of_at? hl).2 i hmem rfl⟩
    · exact .inr ⟨hr, fun hmem => hdisjoint i hmem i (slot_of_at? hr).2 rfl⟩

section

variable {s : Nat} {c : Connective} {l r : Formula Nat} (hnd : (node s c l r).slots.Nodup)
include hnd

theorem at?_node_of_left (h : l.at? i = some u) : (node s c l r).at? i = some u := by
  rw [slots, List.nodup_cons] at hnd
  have hs : s ≠ i := by
    rintro rfl
    exact hnd.1 (List.mem_append_left _ (slot_of_at? h).2)
  rw [at?, if_neg hs, h, Option.some_or]

theorem at?_node_of_right (h : r.at? i = some u) : (node s c l r).at? i = some u := by
  rw [slots, List.nodup_cons, List.nodup_append] at hnd
  have hs : s ≠ i := by
    rintro rfl
    exact hnd.1 (List.mem_append_right _ (slot_of_at? h).2)
  have hl : l.at? i = none := by
    refine Option.eq_none_iff_forall_ne_some.mpr fun w hw => ?_
    exact hnd.2.2.2 i (slot_of_at? hw).2 i (slot_of_at? h).2 rfl
  rw [at?, if_neg hs, hl, Option.none_or, h]

theorem nodup_left : l.slots.Nodup :=
  (nodup_slots_node.mp hnd).2.1

theorem nodup_right : r.slots.Nodup :=
  (nodup_slots_node.mp hnd).2.2.1

end

/-- A part of a part is a part. -/
theorem at?_trans (hnd : t.slots.Nodup) (hu : t.at? i = some u) (hw : u.at? j = some w) :
    t.at? j = some w := by
  induction t with
  | leaf s a =>
      obtain ⟨-, rfl⟩ := at?_leaf.mp hu
      exact hw
  | node s c l r ihl ihr =>
      obtain ⟨-, rfl⟩ | ⟨-, ⟨hl, -⟩ | ⟨hr, -⟩⟩ := at?_node_cases hnd hu
      · exact hw
      · exact at?_node_of_left hnd (ihl (nodup_left hnd) hl)
      · exact at?_node_of_right hnd (ihr (nodup_right hnd) hr)

/-- The part in a slot has its entries in the table. -/
theorem exists_sublist_of_at? (h : t.at? i = some u) (parent : Option Nat) :
    ∃ q, (u.entries q).Sublist (t.entries parent) := by
  induction t generalizing parent with
  | leaf s a =>
      obtain ⟨-, rfl⟩ := at?_leaf.mp h
      exact ⟨parent, .refl _⟩
  | node s c l r ihl ihr =>
      rw [at?] at h
      split at h
      · obtain rfl := Option.some.inj h
        exact ⟨parent, .refl _⟩
      · obtain hl | ⟨-, hr⟩ := Option.or_eq_some_iff.mp h
        · obtain ⟨q, hq⟩ := ihl hl (some s)
          exact ⟨q, hq.trans (entries_left_sublist ..)⟩
        · obtain ⟨q, hq⟩ := ihr hr (some s)
          exact ⟨q, hq.trans (entries_right_sublist ..)⟩

theorem nodup_of_at? (hnd : t.slots.Nodup) (h : t.at? i = some u) : u.slots.Nodup := by
  obtain ⟨q, hsub⟩ := exists_sublist_of_at? h none
  exact hnd.sublist (slots_sublist hsub)

theorem slots_subset_of_at? (h : t.at? i = some u) : u.slots ⊆ t.slots := by
  obtain ⟨q, hsub⟩ := exists_sublist_of_at? h none
  exact (slots_sublist hsub).subset

/-! ### Changing a part -/

theorem modifyAt_of_not_mem (h : i ∉ t.slots) : t.modifyAt i f = t := by
  induction t with
  | leaf s a =>
      have hs : s ≠ i := fun he => h (by simp [slots, he])
      rw [modifyAt, if_neg hs]
  | node s c l r ihl ihr =>
      rw [slots, List.mem_cons, List.mem_append, not_or, not_or] at h
      rw [modifyAt, if_neg (Ne.symm h.1), ihl h.2.1, ihr h.2.2]

theorem modifyAt_slot (f : Formula Nat → Formula Nat) (t : Formula Nat) :
    t.modifyAt t.slot f = f t := by
  cases t <;> simp [modifyAt, slot]

theorem modifyAt_modifyAt {g : Formula Nat → Formula Nat} (hg : ∀ u, (g u).slot = u.slot) (i : Nat)
    (t : Formula Nat) : (t.modifyAt i g).modifyAt i f = t.modifyAt i fun u => f (g u) := by
  have hroot (u : Formula Nat) (h : u.slot = i) : (g u).modifyAt i f = f (g u) := by
    rw [← h, ← hg u]
    exact modifyAt_slot f (g u)
  induction t with
  | leaf s a =>
      by_cases hs : s = i
      · rw [modifyAt, modifyAt, if_pos hs, if_pos hs]
        exact hroot _ hs
      · simp [modifyAt, hs]
  | node s c l r ihl ihr =>
      by_cases hs : s = i
      · rw [modifyAt, modifyAt, if_pos hs, if_pos hs]
        exact hroot _ hs
      · simp [modifyAt, hs, ihl, ihr]

theorem slot_modifyAt (hf : ∀ u, u.slot = i → (f u).slot = i) (t : Formula Nat) :
    (t.modifyAt i f).slot = t.slot := by
  cases t with
  | leaf s a =>
      rw [modifyAt]
      split
      · rename_i hs
        exact (hf (leaf s a) hs).trans hs.symm
      · rfl
  | node s c l r =>
      rw [modifyAt]
      split
      · rename_i hs
        exact (hf (node s c l r) hs).trans hs.symm
      · rfl

/-- A change within a part is a change of that part. -/
theorem modifyAt_inside (hnd : t.slots.Nodup) (hu : t.at? i = some u) (hj : j ∈ u.slots) :
    t.modifyAt j f = t.modifyAt i fun w => w.modifyAt j f := by
  induction t with
  | leaf s a =>
      obtain ⟨rfl, rfl⟩ := at?_leaf.mp hu
      exact (modifyAt_slot _ (leaf s a)).symm
  | node s c l r ihl ihr =>
      obtain ⟨rfl, rfl⟩ | ⟨hs, hlr⟩ := at?_node_cases hnd hu
      · exact (modifyAt_slot _ (node s c l r)).symm
      · obtain ⟨⟨hsl, hsr⟩, -, -, hdisjoint⟩ := nodup_slots_node.mp hnd
        obtain ⟨hl, hr⟩ | ⟨hr, hl⟩ := hlr
        · have hjl : j ∈ l.slots := slots_subset_of_at? hl hj
          have hsj : s ≠ j := fun he => hsl (he ▸ hjl)
          rw [modifyAt, if_neg hsj, modifyAt, if_neg hs, ihl (nodup_left hnd) hl,
            modifyAt_of_not_mem fun hjr => hdisjoint hjl hjr, modifyAt_of_not_mem hr]
        · have hjr : j ∈ r.slots := slots_subset_of_at? hr hj
          have hsj : s ≠ j := fun he => hsr (he ▸ hjr)
          rw [modifyAt, if_neg hsj, modifyAt, if_neg hs, ihr (nodup_right hnd) hr,
            modifyAt_of_not_mem fun hjl => hdisjoint hjl hjr, modifyAt_of_not_mem hl]

/-- The part that has been changed stands where it was. -/
theorem at?_modifyAt (hf : ∀ u, (f u).slot = u.slot) (i : Nat) (t : Formula Nat) :
    (t.modifyAt i f).at? i = (t.at? i).map f := by
  have hroot (u : Formula Nat) (h : u.slot = i) : (f u).at? i = some (f u) := by
    rw [← h, ← hf u]
    exact at?_slot _
  induction t with
  | leaf s a =>
      by_cases hs : s = i
      · rw [modifyAt, at?, if_pos hs, if_pos hs]
        exact hroot _ hs
      · simp [modifyAt, at?, hs]
  | node s c l r ihl ihr =>
      by_cases hs : s = i
      · rw [modifyAt, at?, if_pos hs, if_pos hs]
        exact hroot _ hs
      · rw [modifyAt, at?, if_neg hs, if_neg hs, at?, if_neg hs, ihl, ihr, Option.map_or]

/-- What surrounds the part in a slot. -/
theorem exists_context (hnd : t.slots.Nodup) (hu : t.at? i = some u) :
    ∃ C : Formula Nat → Formula Nat, Function.Injective C ∧ C u = t ∧
      ∀ f, t.modifyAt i f = C (f u) := by
  induction t with
  | leaf s a =>
      obtain ⟨hs, rfl⟩ := at?_leaf.mp hu
      exact ⟨id, Function.injective_id, rfl, fun f => by rw [modifyAt, if_pos hs, id]⟩
  | node s c l r ihl ihr =>
      obtain ⟨hs, rfl⟩ | ⟨hs, ⟨hl, hr⟩ | ⟨hr, hl⟩⟩ := at?_node_cases hnd hu
      · exact ⟨id, Function.injective_id, rfl, fun f => by rw [modifyAt, if_pos hs, id]⟩
      · obtain ⟨C, hinj, hC, hmodify⟩ := ihl (nodup_left hnd) hl
        refine ⟨fun x => node s c (C x) r, fun x y hxy => hinj (by simpa using hxy), ?_,
          fun f => ?_⟩
        · simp only [hC]
        · rw [modifyAt, if_neg hs, hmodify, modifyAt_of_not_mem hr]
      · obtain ⟨C, hinj, hC, hmodify⟩ := ihr (nodup_right hnd) hr
        refine ⟨fun x => node s c l (C x), fun x y hxy => hinj (by simpa using hxy), ?_,
          fun f => ?_⟩
        · simp only [hC]
        · rw [modifyAt, if_neg hs, hmodify, modifyAt_of_not_mem hl]

/-- A change of one part leaves the parts alone that have no slot in common with it. -/
theorem at?_modifyAt_of_disjoint (hf : ∀ w, (f w).slots = w.slots) (hnd : t.slots.Nodup)
    (hu : t.at? i = some u) (hw : t.at? j = some w) (hdisjoint : List.Disjoint u.slots w.slots) :
    (t.modifyAt i f).at? j = some w := by
  have hi : i ∉ w.slots := fun hmem => hdisjoint ((slot_of_at? hu).1 ▸ u.slot_mem_slots) hmem
  have hj : j ∉ u.slots := fun hmem => hdisjoint hmem ((slot_of_at? hw).1 ▸ w.slot_mem_slots)
  induction t with
  | leaf s a =>
      obtain ⟨rfl, rfl⟩ := at?_leaf.mp hw
      rwa [modifyAt_of_not_mem hi]
  | node s c l r ihl ihr =>
      have hnd' : ((node s c l r).modifyAt i f).slots.Nodup := by rwa [slots_modifyAt i hf]
      obtain ⟨rfl, rfl⟩ | ⟨-, hw'⟩ := at?_node_cases hnd hw
      · rwa [modifyAt_of_not_mem hi]
      · obtain ⟨-, rfl⟩ | ⟨hs, ⟨hl, hr⟩ | ⟨hr, hl⟩⟩ := at?_node_cases hnd hu
        · exact absurd (slot_of_at? hw).2 hj
        · rw [modifyAt, if_neg hs] at hnd' ⊢
          obtain ⟨hwl, -⟩ | ⟨hwr, -⟩ := hw'
          · exact at?_node_of_left hnd' (ihl (nodup_left hnd) hl hwl)
          · refine at?_node_of_right hnd' ?_
            rwa [modifyAt_of_not_mem hr]
        · rw [modifyAt, if_neg hs] at hnd' ⊢
          obtain ⟨hwl, -⟩ | ⟨hwr, -⟩ := hw'
          · refine at?_node_of_left hnd' ?_
            rwa [modifyAt_of_not_mem hl]
          · exact at?_node_of_right hnd' (ihr (nodup_right hnd) hr hwr)

end Formula

end Detachment

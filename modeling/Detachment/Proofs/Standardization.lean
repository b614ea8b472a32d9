import Detachment.Proofs.Negation
import Mathlib.Logic.Function.Iterate

/-!
# Writing disjunctions as implications

Standardizing a formula leaves no disjunction in it and keeps its truth value. In the table only
operations change.

The disjunctions can be rewritten one after the other where they stand, from the root down, with a
queue of the slots that are still to be looked at: `Sweep`. Rewriting one of them negates its left
operand and so changes parts that are still waiting. What carries a sweep is that the waiting parts
have no slot in common, and that standardizing them, as they are at that moment, completes it.
-/
namespace Detachment

namespace Formula

variable {α : Type}

/-! ### Formulas without disjunctions -/

theorem standard_of_standardizeSigned {t : Formula α} (h : t.Within .regular) (b : Bool) :
    (t.standardizeSigned b).Within .standard := by
  induction t generalizing b with
  | leaf s a =>
      cases b with
      | false => exact h
      | true => exact Leaf.regular_negate h
  | node s c l r ihl ihr =>
      have hl := ihl h.2.1
      have hr := ihr h.2.2
      cases b <;> cases c <;> exact ⟨by simp [Fragment.standard], hl _, hr _⟩

theorem operations_of_standard {t : Formula α} (h : t.Within .standard) :
    t.operations (.binary .disjunction) = 0 := by
  induction t with
  | leaf s a =>
      obtain ⟨-, ho | ho⟩ := h <;> simp [operations, Leaf.label, ho]
  | node s c l r ihl ihr =>
      obtain ⟨hc, hl, hr⟩ := h
      have hc : c ≠ .disjunction := hc
      simp [operations, ihl hl, ihr hr, hc]

theorem standardize_of_standard {t : Formula α} (h : t.Within .standard) : t.standardize = t := by
  induction t with
  | leaf s a => rfl
  | node s c l r ihl ihr =>
      obtain ⟨hc, hl, hr⟩ := h
      have hl : l.standardizeSigned false = l := ihl hl
      have hr : r.standardizeSigned false = r := ihr hr
      cases c with
      | disjunction => exact absurd rfl hc
      | _ => simp only [standardize, standardizeSigned, hl, hr]

/-! ### The table -/

end Formula

/-- The two slots differ in their operations at most. -/
structure Entry.Reoperated (e e' : Entry) : Prop where
  links_eq : e'.links = e.links
  kind_eq : e'.label.kind = e.label.kind
  value_eq : e'.label.value = e.label.value

namespace Formula

theorem reoperated_entries (t : Formula Nat) (b : Bool) (parent : Option Nat) :
    List.Forall₂ Entry.Reoperated (t.entries parent) ((t.standardizeSigned b).entries parent) := by
  induction t generalizing b parent with
  | leaf s a =>
      cases b with
      | false => exact .cons ⟨rfl, rfl, rfl⟩ .nil
      | true => exact .cons ⟨rfl, congrArg LeafKind.toKind a.kind_negate, a.value_negate⟩ .nil
  | node s c l r ihl ihr =>
      have hroot (c' : Connective) (x y : Bool) :
          ((node s c l r).rootEntry parent).Reoperated
            ((node s c' (l.standardizeSigned x) (r.standardizeSigned y)).rootEntry parent) := by
        refine ⟨?_, rfl, rfl⟩
        have hl := slot_of_slots (slots_standardizeSigned x l)
        have hr := slot_of_slots (slots_standardizeSigned y r)
        simp [rootEntry, Entry.links, hl, hr]
      cases b <;> cases c <;>
        exact .cons (hroot ..) (List.rel_append (ihl _ _) (ihr _ _))

/-! ### Sweeping through the slots -/

/-- Write the root as an implication if it is a disjunction. -/
def rewriteRoot : Formula Nat → Formula Nat
  | node s .disjunction l r => node s .implication l.negate r
  | t => t

def operands {α : Type} : Formula α → List (Formula α)
  | leaf _ _ => []
  | node _ _ l r => [l, r]

theorem slots_eq_cons {α : Type} (t : Formula α) :
    t.slots = t.slot :: t.operands.flatMap slots := by
  cases t <;> simp [slots, slot, operands]

end Formula

/-- A stored formula whose disjunctions are being rewritten, with the slots to be looked at. -/
structure Sweep where
  formula : Formula Nat
  queue : List Nat

/-- The slot at the front of the queue is looked at, and its operands join the queue at the back. -/
def Sweep.turn (s : Sweep) : Sweep :=
  match s.queue with
  | [] => s
  | i :: queue =>
      let t := s.formula.modifyAt i Formula.rewriteRoot
      ⟨t, queue ++ (t.at? i).elim [] fun u => u.operands.map Formula.slot⟩

namespace Formula

variable {i : Nat} {t u : Formula Nat} {queue queue' : List Nat}

@[simp] theorem slots_rewriteRoot (t : Formula Nat) : t.rewriteRoot.slots = t.slots := by
  unfold rewriteRoot
  split <;> simp [slots]

theorem exists_rewriteRoot_eq (s : Nat) (c : Connective) (l r : Formula Nat) :
    ∃ c' l' r', (node s c l r).rewriteRoot = node s c' l' r' := by
  cases c <;> exact ⟨_, _, _, rfl⟩

/-- Standardizing goes on in the operands once the root has been rewritten. -/
theorem standardize_eq_of_rewriteRoot {s : Nat} {c : Connective} {l r : Formula Nat}
    (h : t.rewriteRoot = node s c l r) : t.standardize = node s c l.standardize r.standardize := by
  cases t with
  | leaf s' a => cases h
  | node s' c' l' r' =>
      cases c' with
      | disjunction =>
          obtain ⟨rfl, rfl, rfl, rfl⟩ := node.inj h
          change node s' .implication (l'.standardizeSigned true) r'.standardize = _
          rw [standardizeSigned_eq]
          rfl
      | _ =>
          obtain ⟨rfl, rfl, rfl, rfl⟩ := node.inj h
          rfl

theorem slot_mem_of_operands (t : Formula Nat) : ∀ j ∈ t.operands.map slot, j ∈ t.slots := by
  cases t with
  | leaf s a => simp [operands]
  | node s c l r => simp [operands, slots, slot_mem_slots]

theorem at?_of_operands {w : Formula Nat} (hnd : t.slots.Nodup) (hw : w ∈ t.operands) :
    t.at? w.slot = some w := by
  cases t with
  | leaf s a => simp [operands] at hw
  | node s c l r =>
      obtain rfl | rfl : w = l ∨ w = r := by simpa [operands] using hw
      · exact at?_node_of_left hnd (at?_slot w)
      · exact at?_node_of_right hnd (at?_slot w)

/-- Standardize the parts in the given slots, and nothing above them. -/
def standardizeAt (queue : List Nat) : Formula Nat → Formula Nat
  | leaf s a => leaf s a
  | node s c l r =>
      if s ∈ queue then (node s c l r).standardize
      else node s c (l.standardizeAt queue) (r.standardizeAt queue)

theorem standardizeAt_of_mem (h : t.slot ∈ queue) : t.standardizeAt queue = t.standardize := by
  cases t with
  | leaf s a => rfl
  | node s c l r => exact if_pos h

theorem standardizeAt_congr (h : ∀ s ∈ t.slots, s ∈ queue ↔ s ∈ queue') :
    t.standardizeAt queue = t.standardizeAt queue' := by
  induction t with
  | leaf s a => rfl
  | node s c l r ihl ihr =>
      have hs := h s (by simp [slots])
      have hl := ihl fun x hx => h x (by simp [slots, hx])
      have hr := ihr fun x hx => h x (by simp [slots, hx])
      simp only [standardizeAt, hs, hl, hr]

theorem standardizeAt_nil (t : Formula Nat) : t.standardizeAt [] = t := by
  induction t with
  | leaf s a => rfl
  | node s c l r ihl ihr => simp [standardizeAt, ihl, ihr]

/-- Rewriting the root of a waiting part and making its operands wait in its place does not change
what comes out in the end. -/
theorem standardizeAt_rewriteRoot (hnd : t.slots.Nodup) (hu : t.at? i = some u)
    (hoff : ∀ j ∈ queue, j ∉ u.slots) (hin : ∀ j ∈ queue, ∀ w, t.at? j = some w → i ∉ w.slots) :
    (t.modifyAt i rewriteRoot).standardizeAt (queue ++ u.rewriteRoot.operands.map slot) =
      t.standardizeAt (i :: queue) := by
  have hi : i ∈ u.slots := (slot_of_at? hu).1 ▸ u.slot_mem_slots
  have hiq : i ∉ queue := fun h => hoff i h hi
  have hoperands : ∀ j ∈ u.rewriteRoot.operands.map slot, j ∈ u.slots := by
    rw [← slots_rewriteRoot]
    exact slot_mem_of_operands u.rewriteRoot
  -- A formula that has no slot in common with the part is the same for both queues.
  have hother {t : Formula Nat} (h : ∀ s ∈ t.slots, s ∉ u.slots) :
      (t.modifyAt i rewriteRoot).standardizeAt (queue ++ u.rewriteRoot.operands.map slot) =
        t.standardizeAt (i :: queue) := by
    rw [modifyAt_of_not_mem fun hmem => h i hmem hi]
    refine standardizeAt_congr fun s hs => ?_
    have hne : s ≠ i := fun he => h s hs (he ▸ hi)
    have hop : s ∉ u.rewriteRoot.operands.map slot := fun hmem => h s hs (hoperands s hmem)
    simp only [List.mem_append, List.mem_cons, hne, hop, or_false, false_or]
  induction t with
  | leaf s a =>
      obtain ⟨rfl, rfl⟩ := at?_leaf.mp hu
      simp [modifyAt, rewriteRoot, standardizeAt]
  | node s c l r ihl ihr =>
      obtain ⟨rfl, rfl⟩ | ⟨hs, hlr⟩ := at?_node_cases hnd hu
      · obtain ⟨c', l', r', hroot⟩ := exists_rewriteRoot_eq s c l r
        have hnd' : (node s c' l' r').slots.Nodup := by rwa [← hroot, slots_rewriteRoot]
        rw [slots, List.nodup_cons, List.mem_append, not_or] at hnd'
        have hsl : s ≠ l'.slot := fun he => hnd'.1.1 (he ▸ l'.slot_mem_slots)
        have hsr : s ≠ r'.slot := fun he => hnd'.1.2 (he ▸ r'.slot_mem_slots)
        have hleft : l'.standardizeAt (queue ++ [l'.slot, r'.slot]) = l'.standardize :=
          standardizeAt_of_mem (by simp)
        have hright : r'.standardizeAt (queue ++ [l'.slot, r'.slot]) = r'.standardize :=
          standardizeAt_of_mem (by simp)
        have hwhole : (node s c l r).standardizeAt (s :: queue) = (node s c l r).standardize :=
          standardizeAt_of_mem (by simp [slot])
        rw [modifyAt, if_pos rfl, hwhole, standardize_eq_of_rewriteRoot hroot, hroot, operands,
          List.map_cons, List.map_singleton, standardizeAt, hleft, hright]
        simp [hiq, hsl, hsr]
      · have hsq : s ∉ queue := fun hmem =>
          hin s hmem _ (at?_slot (node s c l r)) (slot_of_at? hu).2
        have hnd' := hnd
        rw [slots, List.nodup_cons, List.nodup_append, List.mem_append, not_or] at hnd'
        obtain ⟨⟨hsl, hsr⟩, -, -, hdisjoint⟩ := hnd'
        obtain ⟨hsu, hleft, hright⟩ : s ∉ u.slots ∧
            (l.modifyAt i rewriteRoot).standardizeAt (queue ++ u.rewriteRoot.operands.map slot) =
              l.standardizeAt (i :: queue) ∧
            (r.modifyAt i rewriteRoot).standardizeAt (queue ++ u.rewriteRoot.operands.map slot) =
              r.standardizeAt (i :: queue) := by
          obtain ⟨hl, -⟩ | ⟨hr, -⟩ := hlr
          · have hsub := slots_subset_of_at? hl
            have hpart := ihl (nodup_left hnd) hl fun j hj w hw =>
              hin j hj w (at?_node_of_left hnd hw)
            exact ⟨fun h => hsl (hsub h), hpart,
              hother fun x hx hmem => hdisjoint x (hsub hmem) x hx rfl⟩
          · have hsub := slots_subset_of_at? hr
            have hpart := ihr (nodup_right hnd) hr fun j hj w hw =>
              hin j hj w (at?_node_of_right hnd hw)
            exact ⟨fun h => hsr (hsub h),
              hother fun x hx hmem => hdisjoint x hx x (hsub hmem) rfl, hpart⟩
        have hsop : s ∉ u.rewriteRoot.operands.map slot := fun h => hsu (hoperands s h)
        rw [modifyAt, if_neg hs, standardizeAt, standardizeAt, hleft, hright]
        simp [hs, hsq, hsop]

end Formula

namespace Sweep

open Formula

/-- The parts in the slots of the queue. They have no slot in common, so that none of them lies in
another one. -/
structure Waiting (s : Sweep) (parts : List (Formula Nat)) : Prop where
  nodup : s.formula.slots.Nodup
  queue_eq : s.queue = parts.map slot
  stored : ∀ w ∈ parts, s.formula.at? w.slot = some w
  apart : (parts.flatMap slots).Nodup

variable {s : Sweep} {u : Formula Nat} {parts : List (Formula Nat)}

theorem Waiting.turn_eq (h : s.Waiting (u :: parts)) :
    s.turn = ⟨s.formula.modifyAt u.slot rewriteRoot,
      parts.map slot ++ u.rewriteRoot.operands.map slot⟩ := by
  have hu := h.stored u (by simp)
  have hqueue : s.queue = u.slot :: parts.map slot := h.queue_eq
  have hat : (s.formula.modifyAt u.slot rewriteRoot).at? u.slot = some u.rewriteRoot := by
    rw [at?_modifyAt (fun w => slot_of_slots w.slots_rewriteRoot), hu, Option.map_some]
  unfold turn
  rw [hqueue]
  simp only [hat, Option.elim_some]

/-- A turn takes one slot away from the waiting parts. -/
theorem flatMap_slots_perm (u : Formula Nat) (parts : List (Formula Nat)) :
    ((u :: parts).flatMap slots).Perm
      (u.slot :: (parts ++ u.rewriteRoot.operands).flatMap slots) := by
  have hu : u.slots = u.slot :: u.rewriteRoot.operands.flatMap slots := by
    rw [← slots_rewriteRoot, ← slot_of_slots u.slots_rewriteRoot]
    exact slots_eq_cons u.rewriteRoot
  rw [List.flatMap_cons, hu, List.flatMap_append, List.cons_append]
  exact List.perm_append_comm.cons _

theorem Waiting.turn (h : s.Waiting (u :: parts)) :
    s.turn.Waiting (parts ++ u.rewriteRoot.operands) := by
  have hu := h.stored u (by simp)
  have hnodup : (s.formula.modifyAt u.slot rewriteRoot).slots.Nodup := by
    rw [slots_modifyAt _ slots_rewriteRoot]
    exact h.nodup
  rw [h.turn_eq]
  refine ⟨hnodup, by simp, fun w hw => ?_, ?_⟩
  · obtain hw | hw := List.mem_append.mp hw
    · have hapart := h.apart
      rw [List.flatMap_cons, List.nodup_append] at hapart
      refine at?_modifyAt_of_disjoint slots_rewriteRoot h.nodup hu (h.stored w (by simp [hw])) ?_
      intro x hxu hxw
      exact hapart.2.2 x hxu x (List.mem_flatMap.mpr ⟨w, hw, hxw⟩) rfl
    · have hat := at?_modifyAt (fun w => slot_of_slots w.slots_rewriteRoot) u.slot s.formula
      rw [hu, Option.map_some] at hat
      refine at?_trans hnodup hat (at?_of_operands ?_ hw)
      rw [slots_rewriteRoot]
      exact h.apart.sublist (List.sublist_append_left ..)
  · exact (List.nodup_cons.mp ((flatMap_slots_perm u parts).nodup_iff.mp h.apart)).2

/-- The waiting parts bring about the same formula before and after a turn. -/
theorem Waiting.standardizeAt_turn (h : s.Waiting (u :: parts)) :
    s.turn.formula.standardizeAt s.turn.queue = s.formula.standardizeAt s.queue := by
  have hu := h.stored u (by simp)
  have hapart := h.apart
  rw [List.flatMap_cons, List.nodup_append] at hapart
  have hdisjoint {x : Nat} {w : Formula Nat} (hw : w ∈ parts) (hxu : x ∈ u.slots) : x ∉ w.slots :=
    fun hxw => hapart.2.2 x hxu x (List.mem_flatMap.mpr ⟨w, hw, hxw⟩) rfl
  rw [h.turn_eq, h.queue_eq, List.map_cons]
  refine standardizeAt_rewriteRoot h.nodup hu ?_ ?_
  · intro j hj hmem
    obtain ⟨w, hw, rfl⟩ := List.mem_map.mp hj
    exact hdisjoint hw hmem w.slot_mem_slots
  · intro j hj w hw
    obtain ⟨w', hw', rfl⟩ := List.mem_map.mp hj
    rw [h.stored w' (by simp [hw'])] at hw
    obtain rfl := Option.some.inj hw
    exact hdisjoint hw' u.slot_mem_slots

/-- There are as many turns as the waiting parts have slots. -/
theorem Waiting.iterate_turn (h : s.Waiting parts) :
    Sweep.turn^[(parts.flatMap slots).length] s = ⟨s.formula.standardizeAt s.queue, []⟩ := by
  induction hn : (parts.flatMap slots).length generalizing s parts with
  | zero =>
      cases parts with
      | nil =>
          have hqueue : s.queue = [] := h.queue_eq
          rw [Function.iterate_zero_apply, hqueue, standardizeAt_nil, ← hqueue]
      | cons u parts =>
          have hlength := (flatMap_slots_perm u parts).length_eq
          rw [hn, List.length_cons] at hlength
          omega
  | succ n ih =>
      cases parts with
      | nil => simp at hn
      | cons u parts =>
          have hlength := (flatMap_slots_perm u parts).length_eq
          rw [hn, List.length_cons] at hlength
          rw [Function.iterate_succ_apply, ih h.turn (by omega), h.standardizeAt_turn]

theorem iterate_turn_root {t : Formula Nat} (h : t.slots.Nodup) :
    Sweep.turn^[t.size] ⟨t, [t.slot]⟩ = ⟨t.standardize, []⟩ := by
  have hwaiting : Waiting ⟨t, [t.slot]⟩ [t] :=
    ⟨h, rfl, by simp [at?_slot], by simpa using h⟩
  have hrun := hwaiting.iterate_turn
  rw [standardizeAt_of_mem (by simp)] at hrun
  simpa using hrun

end Sweep

/-- Standardizing eliminates disjunctions. Sweeping a stored formula from its root comes to an end
after as many turns as there are slots and leaves the standardized formula. No slot carries a
disjunction then, the truth value is the same under every assignment, and all slots keep their
links, kinds and numbers. A formula without disjunctions stays as it is, so standardizing again
changes nothing. -/
theorem standardize_eliminates_disjunctions {x : Sheet} (h : ∀ t, x = some t → t.WellFormed) :
    (∀ t, x = some t → Sweep.turn^[t.size] ⟨t, [0]⟩ = ⟨t.standardize, []⟩) ∧
    Sheet.operations (.binary .disjunction) (x.map Formula.standardize) = 0 ∧
    (∀ t, x = some t →
      ∀ vars consts, t.standardize.eval vars consts = t.eval vars consts) ∧
    List.Forall₂ Entry.Reoperated x.table (Sheet.table (x.map Formula.standardize)) ∧
    (x.operations (.binary .disjunction) = 0 → x.map Formula.standardize = x) ∧
    (x.map Formula.standardize).map Formula.standardize = x.map Formula.standardize := by
  cases x with
  | none => exact ⟨by simp, rfl, by simp, .nil, fun _ => rfl, rfl⟩
  | some t =>
      obtain ⟨hplaced, hregular⟩ := h t rfl
      have hstandard : t.standardize.Within .standard :=
        Formula.standard_of_standardizeSigned hregular false
      have hplaced' : t.standardize.WellPlaced :=
        hplaced.of_slots (Formula.slots_standardizeSigned false t)
      refine ⟨?_, Formula.operations_of_standard hstandard, ?_, ?_, fun hfree => ?_, ?_⟩
      · rintro _ ⟨⟩
        rw [← hplaced.1]
        exact Sweep.iterate_turn_root hplaced.nodup_slots
      · rintro _ ⟨⟩ vars consts
        exact t.value_standardize .truth vars consts (hregular.mono Fragment.regular_le)
      · exact hplaced.forall₂_table hplaced' Entry.Reoperated.links_eq
          (t.reoperated_entries false none)
      · exact congrArg some
          (Formula.standardize_of_standard (Formula.within_standard hregular hfree))
      · exact congrArg some (Formula.standardize_of_standard hstandard)

/-- `(a|(A|c))|(A|c)`, where the letters of the copies of `A|c` are in the last slots. -/
def nestedDisjunction : Formula Nat :=
  (Formula.join .disjunction (.join .disjunction (.leaf 0 (.var 1)) (.leaf 0 (.var 2)))
    (.leaf 0 (.var 2))).replace 2 (.join .disjunction (.leaf 0 (.const 1)) (.leaf 0 (.var 3)))

/-- The two disjunctions on the left turn into conjunctions while they are waiting. -/
theorem standardize_eliminates_nested :
    nestedDisjunction.place ≠ nestedDisjunction ∧
    nestedDisjunction.standardize.text = "(!a*(!A*!c))>(!A>c)" ∧
    Sweep.turn^[9] ⟨nestedDisjunction, [0]⟩ = ⟨nestedDisjunction.standardize, []⟩ ∧
    nestedDisjunction.standardize.operations (.binary .disjunction) = 0 ∧
    (∀ vars consts,
      nestedDisjunction.standardize.eval vars consts = nestedDisjunction.eval vars consts) ∧
    List.Forall₂ Entry.Reoperated nestedDisjunction.table nestedDisjunction.standardize.table := by
  have hwell : nestedDisjunction.WellFormed :=
    (Obtained.replace 2 (.join .disjunction (.join .disjunction (.var 1) (.var 2)) (.var 2))
      (.join .disjunction (.const 1) (.var 3))).wellFormed rfl
  obtain ⟨hsweep, hfree, heval, htable, -, -⟩ :=
    standardize_eliminates_disjunctions (x := some nestedDisjunction) fun t ht =>
      Option.some.inj ht ▸ hwell
  exact ⟨by decide, by decide, hsweep _ rfl, hfree, heval _ rfl, htable⟩

end Detachment

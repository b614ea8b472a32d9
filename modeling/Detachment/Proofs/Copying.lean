import Detachment.Formula.Table
import Detachment.Proofs.Arrangement
import Detachment.Proofs.Parts
import Mathlib.Logic.Function.Iterate

/-!
# Copying parts

A part of a stored formula is copied slot by slot, with a list of the slots that are still to be
copied: `Copying`. Each slot goes to the end of the copy and is linked by its parent there, to the
left if nothing is there yet. As the children of a slot come before everything else that is pending,
the copy is filled in pre-order, and the left child is linked before the right one.
-/
namespace Detachment

theorem adoptBy_append {parent : Option Nat} {es : List Entry}
    (h : ∀ p ∈ parent, p < es.length) (child : Nat) (fs : List Entry) :
    adoptBy parent child (es ++ fs) = adoptBy parent child es ++ fs := by
  cases parent with
  | none => rfl
  | some p =>
      have hp : p < es.length := h p rfl
      have hp' : p < (es ++ fs).length := by
        rw [List.length_append]
        omega
      simp only [adoptBy, Option.elim_some]
      rw [List.modify_eq_take_cons_drop hp', List.modify_eq_take_cons_drop hp,
        List.getElem_append_left hp, List.take_append_of_le_length (by omega),
        List.drop_append_of_le_length (by omega), List.append_assoc, List.cons_append]

theorem adoptBy_length (child : Nat) (e : Entry) (es fs : List Entry) :
    adoptBy (some es.length) child (es ++ e :: fs) = es ++ e.adopt child :: fs := by
  simp [adoptBy, List.modify_eq_take_drop]

@[simp] theorem length_adoptBy (parent : Option Nat) (child : Nat) (es : List Entry) :
    (adoptBy parent child es).length = es.length := by
  cases parent with
  | none => rfl
  | some p => exact List.length_modify ..

namespace Copying

open Formula

variable {t u : Formula Nat} {q parent : Option Nat} {copied : List Entry}
  {pending : List (Nat × Option Nat)}

theorem turn_eq (h : t.WellPlaced) (hsub : (u.entries q).Sublist (t.entries none))
    (hparent : ∀ p ∈ parent, p < copied.length) :
    turn t.table ⟨copied, (u.slot, parent) :: pending⟩ =
      ⟨adoptBy parent copied.length copied ++ [⟨copied.length, u.label, none, none, parent⟩],
        (u.rootEntry q).children.map (·, some copied.length) ++ pending⟩ := by
  simp only [turn, h.getElem?_of_sublist hsub, label_rootEntry, adoptBy_append hparent]

/-- A pending part is copied to its canonical placement behind what has been copied before. -/
theorem iterate_turn (h : t.WellPlaced) (hsub : (u.entries q).Sublist (t.entries none))
    (hparent : ∀ p ∈ parent, p < copied.length) :
    (turn t.table)^[u.size] ⟨copied, (u.slot, parent) :: pending⟩ =
      ⟨adoptBy parent copied.length copied ++ (u.placeFrom copied.length).entries parent,
        pending⟩ := by
  induction u generalizing q parent copied pending with
  | leaf s a => exact turn_eq h hsub hparent
  | node s c l r ihl ihr =>
      have hsize : (node s c l r).size = r.size + (l.size + 1) := by
        rw [size]
        omega
      -- The entry of the root while its children are still missing, and what precedes it.
      let root (left right : Option Nat) : Entry :=
        ⟨copied.length, (node s c l r).label, left, right, parent⟩
      let before := adoptBy parent copied.length copied
      have hbefore : before.length = copied.length := length_adoptBy ..
      have hadopt (child : Nat) (e : Entry) (es : List Entry) :
          adoptBy (some copied.length) child (before ++ e :: es) =
            before ++ e.adopt child :: es := by
        rw [← hbefore, adoptBy_length]
      have hroot : turn t.table ⟨copied, (s, parent) :: pending⟩ =
          ⟨before ++ [root none none],
            (l.slot, some copied.length) :: (r.slot, some copied.length) :: pending⟩ :=
        turn_eq h hsub hparent
      have hleft : (turn t.table)^[l.size] ⟨before ++ [root none none],
            (l.slot, some copied.length) :: (r.slot, some copied.length) :: pending⟩ =
          ⟨before ++ root (some (copied.length + 1)) none ::
              (l.placeFrom (copied.length + 1)).entries (some copied.length),
            (r.slot, some copied.length) :: pending⟩ := by
        rw [ihl ((entries_left_sublist ..).trans hsub) (by simp [hbefore]), List.length_append,
          hbefore, hadopt, List.append_assoc]
        rfl
      have hright : (turn t.table)^[r.size] ⟨before ++ root (some (copied.length + 1)) none ::
              (l.placeFrom (copied.length + 1)).entries (some copied.length),
            (r.slot, some copied.length) :: pending⟩ =
          ⟨before ++ ((node s c l r).placeFrom copied.length).entries parent, pending⟩ := by
        rw [ihr ((entries_right_sublist ..).trans hsub) (by simp [hbefore]), List.length_append,
          List.length_cons, length_entries, size_placeFrom, hbefore, hadopt, List.append_assoc,
          show copied.length + (l.size + 1) = copied.length + 1 + l.size by omega, placeFrom,
          entries, slot_placeFrom, slot_placeFrom]
        rfl
      rw [hsize, Function.iterate_add_apply, Function.iterate_succ_apply, slot, hroot, hleft,
        hright]

/-- A copy takes as many turns as the part has slots. It is the table of the canonical placement. -/
theorem iterate_turn_part (h : t.WellPlaced) {i : Nat} (hu : t.at? i = some u) :
    (turn t.table)^[u.size] ⟨[], [(i, none)]⟩ = ⟨u.place.table, []⟩ := by
  obtain ⟨q, hsub⟩ := exists_sublist_of_at? hu none
  have hrun : (turn t.table)^[u.size] ⟨[], [(u.slot, none)]⟩ =
      ⟨(u.placeFrom 0).entries none, []⟩ :=
    iterate_turn h hsub (by simp)
  rwa [(slot_of_at? hu).1, ← place_eq, ← (inPreorder_place u).table_eq] at hrun

end Copying

namespace Formula

variable {t u : Formula Nat} {i : Nat}

theorem subformula?_of_at? (h : t.at? i = some u) : t.subformula? i = some u.place := by
  rw [subformula?, h, Option.map_some]

/-- Holding letters fixed changes their kinds only. -/
theorem matches_freeze (t : Formula Nat) : t.Matches true t.freeze := by
  induction t with
  | leaf s a =>
      obtain ⟨k, op, v⟩ := a
      cases k <;> exact ⟨rfl, rfl, .inl rfl⟩
  | node s c l r ihl ihr => exact ⟨rfl, ihl, ihr⟩

theorem WellFormed.subformula?_root (h : t.WellFormed) : t.subformula? 0 = some t.place := by
  refine subformula?_of_at? ?_
  rw [← h.1.1]
  exact at?_slot t

end Formula

open Formula in
/-- Copies are canonical. In whichever way a formula is stored, there is a part in each of its
slots, and the copy of this part, made slot by slot from the table, is a table of its own that
describes the same formula and has its slots in pre-order. Copies of whole formulas agree slot by
slot exactly if the formulas are the same, and up to the kinds of letters exactly if they are the
same up to these. Joining keeps the pre-order, and what is read from a text is in pre-order. -/
theorem copies_canonical {t : Formula Nat} (h : t.WellFormed) :
    (∀ i < t.size, ∃ u w, t.at? i = some u ∧ t.subformula? i = some w ∧
      (Copying.turn t.table)^[u.size] ⟨[], [(i, none)]⟩ = ⟨w.table, []⟩ ∧
      IsTree w.table ∧ w.InPreorder ∧ w.shape = u.shape) ∧
    (∀ t' : Formula Nat, t'.WellFormed →
      ∃ w w', t.subformula? 0 = some w ∧ t'.subformula? 0 = some w' ∧
        (w.agrees false w' = true ↔ t.shape = t'.shape) ∧
        (w.agrees true w' = true ↔ t.Matches true t')) ∧
    (∀ (c : Connective) (l r : Formula Nat), l.InPreorder → r.InPreorder →
      (join c l r).InPreorder) ∧
    ∀ (src : String) (e : Formula Nat), parse src = .ok e → e.InPreorder := by
  refine ⟨fun i hi => ?_, fun t' h' => ?_, fun c l r hl hr => hl.join hr c,
    fun src e he => inPreorder_parse he⟩
  · obtain ⟨u, hu⟩ := exists_at? (h.1.2.mem_iff.mpr (List.mem_range.mpr hi))
    have hwell : u.place.WellFormed := ⟨wellPlaced_place u, (within_place u).mpr (h.2.at? hu)⟩
    exact ⟨u, u.place, hu, subformula?_of_at? hu, Copying.iterate_turn_part h.1 hu, hwell.isTree,
      inPreorder_place u, u.shape_place⟩
  · refine ⟨t.place, t'.place, h.subformula?_root, h'.subformula?_root, ?_, ?_⟩
    · rw [(inPreorder_place t).agrees_iff (inPreorder_place t'), matches_false_iff, shape_place,
        shape_place]
    · rw [(inPreorder_place t).agrees_iff (inPreorder_place t'), matches_place]

/-- The part in slot 1 is spread over the slots 1, 3 and 4, and its copy is not. With its letters
held fixed the formula is another one, but only in the kinds of its letters. -/
theorem copies_canonical_spliced :
    ¬spliced.InPreorder ∧
    (∃ w, spliced.subformula? 1 = some w ∧ w.text = "c>d" ∧
      (Copying.turn spliced.table)^[3] ⟨[], [(1, none)]⟩ = ⟨w.table, []⟩ ∧
      IsTree w.table ∧ w.InPreorder) ∧
    ∃ w w', spliced.subformula? 0 = some w ∧ spliced.freeze.subformula? 0 = some w' ∧
      w.agrees false w' = false ∧ w.agrees true w' = true := by
  have hfrozen : spliced.freeze.WellFormed :=
    (Obtained.freeze (.replace 1 (.join .implication (.var 1) (.var 2))
      (.join .implication (.var 3) (.var 4)))).wellFormed rfl
  obtain ⟨hparts, hcopies, -⟩ := copies_canonical wellFormed_spliced
  refine ⟨by unfold Formula.InPreorder; decide, ?_, ?_⟩
  · obtain ⟨u, w, hu, hw, hrun, htree, hpre, -⟩ := hparts 1 (by decide)
    have hsize : u.size = 3 := by
      rw [← Option.some.inj hu]
      decide
    have htext : w.text = "c>d" := by
      rw [← Option.some.inj hw]
      decide
    rw [hsize] at hrun
    exact ⟨w, hw, htext, hrun, htree, hpre⟩
  · obtain ⟨w, w', hw, hw', hsame, halike⟩ := hcopies spliced.freeze hfrozen
    refine ⟨w, w', hw, hw', Bool.eq_false_iff.mpr fun hagree => ?_, halike.mpr ?_⟩
    · exact absurd (hsame.mp hagree) (by decide)
    · exact spliced.matches_freeze

end Detachment

import Detachment.Formula.Table
import Detachment.Proofs.Negation
import Mathlib.Logic.Relation

/-!
# Negating more than once

A negation goes on to the right operand of an implication or a conjunction and to both operands of a
disjunction, and leaves the other operands alone. It turns a disjunction into a conjunction and this
into an implication, so a second negation undoes the first one exactly if it meets no disjunction on
its way. No disjunction is left where a negation has been, and a third negation has the same result
as the first.
-/
namespace Detachment

/-- A negation goes on from slot `i` to slot `j`. -/
def PassesOn (es : List Entry) (i j : Nat) : Prop :=
  ∃ e, es[i]? = some e ∧ j ∈ e.negatedChildren

/-- A negation of the part in slot `i` comes to slot `j`. -/
def Exposed (es : List Entry) : Nat → Nat → Prop :=
  Relation.ReflTransGen (PassesOn es)

/-- No negation of the part in slot `i` comes to a disjunction. -/
def Revocable (es : List Entry) (i : Nat) : Prop :=
  ∀ j e, Exposed es i j → es[j]? = some e → e.label.op ≠ .binary .disjunction

theorem revocable_iff {es : List Entry} {i : Nat} {e : Entry} (he : es[i]? = some e) :
    Revocable es i ↔
      e.label.op ≠ .binary .disjunction ∧ ∀ j ∈ e.negatedChildren, Revocable es j := by
  constructor
  · intro h
    refine ⟨h i e .refl he, fun j hj k e' hk => ?_⟩
    exact h k e' (.head ⟨e, he, hj⟩ hk)
  · rintro ⟨hop, hchildren⟩ k e' hk he'
    obtain rfl | ⟨j, ⟨e'', he'', hj⟩, hjk⟩ := Relation.ReflTransGen.cases_head_iff.mp hk
    · rw [he] at he'
      exact Option.some.inj he' ▸ hop
    · rw [he] at he''
      obtain rfl := Option.some.inj he''
      exact hchildren j hj k e' hjk he'

namespace Formula

variable {i : Nat} {t u : Formula Nat}

/-- A third negation has the same result as the first. -/
theorem negate_negate_negate {α : Type} {t : Formula α} (h : t.Within .regular) :
    t.negate.negate.negate = t.negate := by
  induction t with
  | leaf s a => exact congrArg (leaf s) (Leaf.negate_negate (Leaf.regular_negate h))
  | node s c l r ihl ihr =>
      obtain ⟨-, hl, hr⟩ := h
      cases c with
      | implication => simp only [negate, ihr hr]
      | disjunction => simp only [negate, ihr hr]
      | conjunction => simp only [negate, ihr hr]
      | xor => simp only [negate]
      | equivalence => simp only [negate]

/-- A part comes back after two negations exactly if no negation of it comes to a disjunction. -/
theorem WellPlaced.negate_negate_eq_iff (h : t.WellPlaced) {q : Option Nat}
    (hsub : (u.entries q).Sublist (t.entries none)) (hu : u.Within .regular) :
    u.negate.negate = u ↔ Revocable t.table u.slot := by
  rw [revocable_iff (h.getElem?_of_sublist hsub)]
  induction u generalizing q with
  | leaf s a =>
      have hback : (leaf s a).negate.negate = leaf s a :=
        congrArg (leaf s) (Leaf.negate_negate hu)
      obtain ⟨-, ho | ho⟩ := hu <;>
        simp [hback, rootEntry, Leaf.label, Entry.negatedChildren, ho]
  | node s c l r ihl ihr =>
      have hright : r.negate.negate = r ↔ Revocable t.table r.slot := by
        have hsub' := (entries_right_sublist s c l r q).trans hsub
        rw [revocable_iff (h.getElem?_of_sublist hsub')]
        exact ihr hsub' hu.2.2
      cases c <;>
        simp [negate, rootEntry, Label.function, Entry.negatedChildren, hright]

/-- Negating the part in a slot again and again. -/
theorem negateAt_negateAt (hnd : t.slots.Nodup) (hu : t.at? i = some u) :
    ∃ C : Formula Nat → Formula Nat, Function.Injective C ∧ C u = t ∧
      t.negateAt i = C u.negate ∧ (t.negateAt i).negateAt i = C u.negate.negate ∧
      ((t.negateAt i).negateAt i).negateAt i = C u.negate.negate.negate := by
  have hslot (w : Formula Nat) : w.negate.slot = w.slot := slot_of_slots w.slots_negate
  obtain ⟨C, hinj, hC, hmodify⟩ := exists_context hnd hu
  refine ⟨C, hinj, hC, hmodify negate, ?_, ?_⟩
  · rw [negateAt, modifyAt_modifyAt hslot, hmodify]
  · rw [negateAt, modifyAt_modifyAt hslot, modifyAt_modifyAt hslot, hmodify]

end Formula

/-- Negating the part in a slot three times gives the same table as negating it once. Negating it
twice gives the original table back exactly if there is no disjunction among the slots that are
reached from it by going to the right operand of implications and conjunctions and to both operands
of disjunctions. So negation is its own inverse on formulas without disjunctions. -/
theorem double_negation_restores_iff {t : Formula Nat} (h : t.WellFormed) {i : Nat}
    (hi : i < t.size) :
    (((t.negateAt i).negateAt i).negateAt i).table = (t.negateAt i).table ∧
      (((t.negateAt i).negateAt i).table = t.table ↔
        ∀ j e, Exposed t.table i j → t.table[j]? = some e → e.label.op ≠ .binary .disjunction) ∧
      (t.operations (.binary .disjunction) = 0 → ((t.negateAt i).negateAt i).table = t.table) := by
  obtain ⟨hplaced, hregular⟩ := h
  obtain ⟨u, hu⟩ := Formula.exists_at? (hplaced.2.mem_iff.mpr (List.mem_range.mpr hi))
  have hu' := hregular.at? hu
  obtain ⟨C, hinj, hC, hone, htwo, hthree⟩ := Formula.negateAt_negateAt hplaced.nodup_slots hu
  refine ⟨?_, ?_, fun hfree => ?_⟩
  · rw [hthree, hone, Formula.negate_negate_negate hu']
  · obtain ⟨q, hsub⟩ := Formula.exists_sublist_of_at? hu none
    have hback := hplaced.negate_negate_eq_iff hsub hu'
    rw [(Formula.slot_of_at? hu).1] at hback
    refine Iff.trans ⟨fun htable => ?_, fun heq => ?_⟩ hback
    · have heq := ((hplaced.negateAt i).negateAt i).eq_of_table hplaced htable
      rw [htwo, ← hC] at heq
      exact hinj heq
    · rw [htwo, heq, hC]
  · have hstandard := (Formula.within_standard hregular hfree).at? hu
    rw [htwo, Formula.negate_negate hstandard, hC]

/-- `((A|B)>b)*(A|B)`, where the letters of both disjunctions are in the last slots. -/
def guardedDisjunction : Formula Nat :=
  (Formula.join .conjunction (.join .implication (.leaf 0 (.var 1)) (.leaf 0 (.var 2)))
    (.leaf 0 (.var 1))).replace 1 (.join .disjunction (.leaf 0 (.const 1)) (.leaf 0 (.const 2)))

theorem wellFormed_guardedDisjunction : guardedDisjunction.WellFormed :=
  (Obtained.replace 1 (.join .conjunction (.join .implication (.var 1) (.var 2)) (.var 1))
    (.join .disjunction (.const 1) (.const 2))).wellFormed rfl

/-- Negating the whole formula twice rewrites the disjunction on the right only. -/
theorem double_negation_restores_guarded :
    guardedDisjunction.place ≠ guardedDisjunction ∧
    ((guardedDisjunction.negateAt 0).negateAt 0).text = "((A|B)>b)*(!A>B)" ∧
    (((guardedDisjunction.negateAt 0).negateAt 0).negateAt 0).table =
      (guardedDisjunction.negateAt 0).table ∧
    (((guardedDisjunction.negateAt 0).negateAt 0).table = guardedDisjunction.table ↔
      ∀ j e, Exposed guardedDisjunction.table 0 j → guardedDisjunction.table[j]? = some e →
        e.label.op ≠ .binary .disjunction) := by
  obtain ⟨hthree, htwo, -⟩ := double_negation_restores_iff wellFormed_guardedDisjunction
    (i := 0) (by decide)
  exact ⟨by decide, by decide, hthree, htwo⟩

end Detachment

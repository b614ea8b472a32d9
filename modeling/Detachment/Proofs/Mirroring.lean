import Detachment.Proofs.Lockstep
import Detachment.Proofs.Outline

/-!
# Modus ponens and outlines

Unification hardly looks at anything but the outlines of its operands. If modus ponens yields a
conclusion, then it yields one for any two legible premises with the same outlines, and the
conclusions have the same outlines again.
-/
namespace Detachment

/-- Leaves of the same outline, the second of which is as its text says. Only for this reason are
leaves of the same outline found equal in the second run: they are legible. -/
def Likeness.outlines : Likeness where
  number u v := u = v
  leaf a b := a.tidy = b.tidy ∧ Fragment.legible.leaf b
  number_unique := ⟨fun _ _ _ h h' => h.trans h'.symm, fun _ _ _ h h' => h.symm.trans h'⟩
  leaf_var h := ⟨by rw [h], Fragment.legible.leaf_var _⟩
  leaf_negate h := ⟨by rw [Leaf.tidy_negate, Leaf.tidy_negate, h.1],
    Fragment.legible.leaf_negate _ h.2⟩
  leaf_unique h h' hk := Leaf.eq_of_tidy h.2 h'.2 (Leaf.kind_eq_of_tidy h.1 ▸ hk)
    (h.1.symm.trans h'.1)
  kind_eq h := Leaf.kind_eq_of_tidy h.1
  negated_eq h ha := Leaf.negated_eq_of_tidy h.1 (by simp [ha])
  number_value h ha := Leaf.value_eq_of_tidy ha h.1

namespace Formula

variable {α β : Type} {t : Formula α} {t' : Formula β}

theorem alike_of_outline (h : t.outline = t'.outline) (ht' : t'.Within .legible) :
    t.Alike .outlines t' := by
  induction t generalizing t' with
  | leaf i a =>
      cases t' with
      | leaf j b => exact .leaf i j ⟨by simpa using h, ht'⟩
      | node j c l r => cases h
  | node i c l r ihl ihr =>
      cases t' with
      | leaf j b => cases h
      | node j c' l' r' =>
          obtain ⟨-, rfl, hl, hr⟩ := node.inj h
          exact .node i j c (ihl hl ht'.2.1) (ihr hr ht'.2.2)

theorem Alike.outline (h : t.Alike .outlines t') : t.outline = t'.outline := by
  induction h with
  | leaf i j h => exact congrArg (Formula.leaf ()) h.1
  | node i j c _ _ ihl ihr => exact congrArg₂ (Formula.node () c) ihl ihr

end Formula

/-- If modus ponens yields a conclusion, then it yields one with the same outline for any legible
premises with the same outlines. -/
theorem exists_detach_of_outline {minor major minor' major' f : Formula Nat}
    (hminor : minor.outline = minor'.outline) (hmajor : major.outline = major'.outline)
    (hminor' : minor'.Within .legible) (hmajor' : major'.Within .legible)
    (h : detach minor major = some f) :
    ∃ f', detach minor' major' = some f' ∧ f.outline = f'.outline := by
  obtain ⟨i, a, c, -, hshift, -⟩ := detach_eq_some_iff.mp h
  have hmax := Formula.maxVariable_eq_of_outline hminor
  have hshifted := Formula.outline_shiftVariables (minor.maxVariable + 1) hmajor
  rw [hshift] at hshifted
  obtain ⟨i', a', c', hshift', ha, hc⟩ := Formula.exists_node_of_outline hshifted
  have hlegible := hmajor'.shiftVariables (minor.maxVariable + 1)
  rw [hshift'] at hlegible hshifted
  have haplace : a.place.outline = a'.place.outline := by
    rw [Formula.outline_place, Formula.outline_place, ha]
  obtain ⟨t, t', halike, rfl, hf'⟩ := exists_detach_of_alike hshift (hmax ▸ hshift')
    (Formula.alike_of_outline hminor hminor') (Formula.alike_of_outline ha hlegible.2.1)
    (Formula.alike_of_outline hc hlegible.2.2) (fun n => by
      change (_ : Int) = _
      simp only [Unification.State.initial, hmax, Formula.maxVariable_eq_of_outline hshifted,
        Formula.maxVariable_eq_of_outline haplace]) h
  exact ⟨t'.normalize, hf', Formula.outline_normalize halike.outline⟩

end Detachment

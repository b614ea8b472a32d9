import Detachment.Proofs.Traversal
import Detachment.Proofs.Variants

/-!
# Normal forms decide variants

Two formulas have the same normal form exactly if they are variants of each other: no two variables
are merged by normalizing, and the numbers that a formula had before leave no trace. The variables
of a normal form are numbered from one on as an in-order traversal comes to them. Slot by slot,
normalizing changes the numbers of variables and nothing else.
-/
namespace Detachment

/-- The two slots differ in the number of a variable at most. -/
structure Entry.Renumbered (e e' : Entry) : Prop where
  links_eq : e'.links = e.links
  kind_eq : e'.label.kind = e.label.kind
  op_eq : e'.label.op = e.label.op
  eq_of_fixed : e.label.isVariable = false → e' = e

namespace Formula

variable {f g : Int → Int} {t t' t'' : Formula Nat}

theorem slots_rename (f : Int → Int) (t : Formula Nat) : (t.rename f).slots = t.slots :=
  slots_mapLeaves _ t

theorem renumbered_entries (f : Int → Int) (t : Formula Nat) (parent : Option Nat) :
    List.Forall₂ Entry.Renumbered (t.entries parent) ((t.rename f).entries parent) := by
  induction t generalizing parent with
  | leaf s a =>
      obtain ⟨k, op, v⟩ := a
      refine .cons ?_ .nil
      cases k with
      | var => exact ⟨rfl, rfl, rfl, by simp [Leaf.label, LeafKind.toKind, Label.isVariable]⟩
      | _ => exact ⟨rfl, rfl, rfl, fun _ => rfl⟩
  | node s c l r ihl ihr =>
      have hroot : ((node s c l r).rootEntry parent).Renumbered
          ((node s c (l.rename f) (r.rename f)).rootEntry parent) := by
        have hl := slot_of_slots (slots_rename f l)
        have hr := slot_of_slots (slots_rename f r)
        constructor <;> simp [rootEntry, Entry.links, hl, hr]
      exact .cons hroot (List.rel_append (ihl _) (ihr _))

theorem variant_normalize (t : Formula Nat) : t.Variant t.position t.normalize :=
  ⟨rfl, fun _ hu _ _ h => position_inj hu h⟩

theorem Variant.trans (h : t.Variant f t') (h' : t'.Variant g t'') :
    t.Variant (fun v => g (f v)) t'' := by
  have hmem {v : Int} (hv : v ∈ t.vars) : f v ∈ t'.vars := by
    rw [vars_of_shape h.shape_eq]
    exact List.mem_map_of_mem hv
  refine ⟨?_, fun u hu v hv heq => ?_⟩
  · rw [h'.shape_eq, shape_rename, h.shape_eq, shape_rename, rename_rename, shape_rename]
  · exact h.injective u hu v hv (h'.injective _ (hmem hu) _ (hmem hv) heq)

theorem Variant.shape_normalize (h : t.Variant f t') :
    t.normalize.shape = t'.normalize.shape := by
  have hshape : t'.normalize.shape = (t.rename f).normalize.shape := by
    rw [Formula.shape_normalize, h.shape_eq, ← Formula.shape_normalize]
  rw [hshape, normalize_rename h.injective]

/-- Having the same normal form is being variants of each other. -/
theorem shape_normalize_eq_iff : t.normalize.shape = t'.normalize.shape ↔ ∃ f, t.Variant f t' := by
  constructor
  · intro h
    obtain ⟨back, hback⟩ := t'.variant_normalize.exists_symm
    have hnormal : t.Variant t.position t'.normalize :=
      ⟨h.symm.trans t.variant_normalize.shape_eq, t.variant_normalize.injective⟩
    exact ⟨_, hnormal.trans hback⟩
  · rintro ⟨f, h⟩
    exact h.shape_normalize

end Formula

/-- Normal forms are canonical. In whichever way two formulas are stored, their normal forms are the
same formula exactly if one of them is the other with its variables renamed one to one. The
variables of a normal form are those from one on, in the order in which an in-order traversal comes
to them first. Every slot keeps its links, its kind and its operation, slots without a variable are
unchanged, and normalizing again changes nothing. -/
theorem normal_form_canonical {t : Formula Nat} (h : t.WellPlaced) (t' : Formula Nat) :
    (t.normalize.shape = t'.normalize.shape ↔ ∃ f, t.Variant f t') ∧
      t.normalize.inorderVariables.eraseDups =
        (List.range t.variableOrder.length).map (fun i : Nat => (i : Int) + 1) ∧
      List.Forall₂ Entry.Renumbered t.table t.normalize.table ∧
      t.normalize.normalize = t.normalize := by
  refine ⟨Formula.shape_normalize_eq_iff, ?_, ?_, t.normalize_normalize⟩
  · have horder := t.variableOrder_normalize_eq_range
    rw [t.variableOrder_normalize, List.length_map, ← t.variableOrder_normalize] at horder
    rw [h.normalize.inorderVariables_eq]
    exact horder
  · exact h.forall₂_table h.normalize Entry.Renumbered.links_eq
      (t.renumbered_entries t.position none)

/-- `(b|A)>(a>b)` with its right operand stored before its left one. -/
def overlappingNumbers : Formula Nat :=
  .node 0 .implication (.node 2 .disjunction (.leaf 4 (.var 2)) (.leaf 3 (.const 1)))
    (.node 1 .implication (.leaf 5 (.var 1)) (.leaf 6 (.var 2)))

/-- `(e|A)>(c>e)` with its slots in order. -/
def spreadNumbers : Formula Nat :=
  (overlappingNumbers.rename fun v => 2 * v + 1).place

/-- The new numbers are among the old ones. -/
theorem normal_form_canonical_overlapping :
    overlappingNumbers.place ≠ overlappingNumbers ∧
    overlappingNumbers.normalize.text = "(a|A)>(b>a)" ∧
    (∃ f, overlappingNumbers.Variant f spreadNumbers) ∧
    overlappingNumbers.normalize.inorderVariables.eraseDups = [1, 2] ∧
    List.Forall₂ Entry.Renumbered overlappingNumbers.table overlappingNumbers.normalize.table ∧
    overlappingNumbers.normalize.normalize = overlappingNumbers.normalize := by
  have hplaced : overlappingNumbers.WellPlaced := ⟨rfl, by decide⟩
  obtain ⟨hiff, horder, htable, hagain⟩ := normal_form_canonical hplaced spreadNumbers
  exact ⟨by decide, by decide, hiff.mp (by decide), horder, htable, hagain⟩

end Detachment

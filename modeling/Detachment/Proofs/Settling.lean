import Detachment.Proofs.Arrangement
import Detachment.Proofs.NormalForm

/-!
# Settling a target whose letters are held fixed

A candidate is compared with a target after both are normalized, and constants count as the
variables of the same number: what is compared are the normal forms with all letters held fixed.
Normalizing renumbers variables and no constants. So a target put to the prover, whose letters are
held fixed, keeps the numbers that its letters came with, while a schema is renumbered. The schema
settles the target only if those numbers were the normal ones.
-/
namespace Detachment

namespace Formula

variable {α β : Type}

/-! ### Formulas without variables -/

theorem normalize_of_closed {t : Formula α} (h : t.vars = []) : t.normalize = t := by
  rw [normalize_eq, rename_congr (g := fun v => v) (by simp [h]), rename_id]

theorem freeze_of_closed {t : Formula α} (h : t.vars = []) : t.freeze = t := by
  induction t with
  | leaf s a =>
      have hvar : a.isVariable = false := by simpa [Leaf.varNumber?] using h
      change leaf s a.freeze = leaf s a
      rw [Leaf.freeze, hvar, if_neg Bool.false_ne_true]
  | node s c l r ihl ihr =>
      rw [vars_node, List.append_eq_nil_iff] at h
      exact congrArg₂ (node s c) (ihl h.1) (ihr h.2)

/-! ### Matching up to the kinds of letters -/

/-- Formulas match up to the kinds of their letters exactly if they are the same once the letters
are held fixed. -/
theorem matches_true_iff {a : Formula α} {b : Formula β} (ha : a.Within .regular)
    (hb : b.Within .regular) : a.Matches true b ↔ a.freeze.shape = b.freeze.shape := by
  induction a generalizing b with
  | leaf s x =>
      cases b with
      | leaf s' y =>
          obtain ⟨k, op, v⟩ := x
          obtain ⟨k', op', v'⟩ := y
          have hk : k ≠ .unknown := ha.1
          have hk' : k' ≠ .unknown := hb.1
          change v = v' ∧ op = op' ∧ _ ↔
            leaf () (Leaf.freeze ⟨k, op, v⟩) = leaf () (Leaf.freeze ⟨k', op', v'⟩)
          cases k <;> cases k' <;> simp_all [Leaf.freeze, Leaf.isVariable, and_comm]
      | node s' c l r => simp [Matches, freeze, mapLeaves]
  | node s c l r ihl ihr =>
      cases b with
      | leaf s' y => simp [Matches, freeze, mapLeaves]
      | node s' c' l' r' =>
          have hl := ihl ha.2.1 hb.2.1
          have hr := ihr ha.2.2 hb.2.2
          simp only [freeze] at hl hr
          simp [Matches, freeze, mapLeaves, hl, hr]

/-- Formulas that have variables only have no kinds to ignore. -/
theorem matches_iff_of_schematic {k : Bool} {a : Formula α} {b : Formula β}
    (ha : a.Within .schematic) (hb : b.Within .schematic) : a.Matches k b ↔ a.shape = b.shape := by
  rw [← matches_false_iff]
  induction a generalizing b with
  | leaf s x =>
      cases b with
      | leaf s' y => simp [Matches, ha.1, hb.1]
      | node s' c l r => rfl
  | node s c l r ihl ihr =>
      cases b with
      | leaf s' y => rfl
      | node s' c' l' r' => simp only [Matches, ihl ha.2.1 hb.2.1, ihr ha.2.2 hb.2.2]

theorem Matches.op_eq {k : Bool} {a : Formula α} {b : Formula β} (h : a.Matches k b) :
    a.label.op = b.label.op := by
  cases a <;> cases b
  · exact h.2.1
  · exact h.elim
  · exact h.elim
  · exact congrArg Operation.binary h.1

theorem op_label_rename (f : Int → Int) (t : Formula α) : (t.rename f).label.op = t.label.op := by
  cases t with
  | leaf s a =>
      change (a.rename f).op = a.op
      unfold Leaf.rename
      split <;> rfl
  | node s c l r => rfl

end Formula

/-- A candidate settles a target exactly if their normal forms match up to the kinds of letters and
are in the same slots. -/
theorem Sheet.settles_iff {c t : Formula Nat} (hc : c.WellPlaced) (ht : t.WellPlaced) :
    settles (some c) (some t) = true ↔
      t.normalize.Matches true c.normalize ∧ t.slots = c.slots := by
  have hagrees := Formula.agrees_iff (k := true) ht.normalize hc.normalize
  rw [t.normalize_eq, c.normalize_eq, Formula.slots_rename, Formula.slots_rename,
    ← t.normalize_eq, ← c.normalize_eq] at hagrees
  simp only [settles, Bool.and_eq_true, beq_iff_eq]
  refine ⟨fun h => hagrees.mp h.2, fun h => ⟨⟨⟨rfl, ?_⟩, ?_⟩, hagrees.mpr h⟩⟩
  · change t.size = c.size
    rw [← Formula.length_slots, h.2, Formula.length_slots]
  · change some t.label.op = some c.label.op
    rw [← Formula.op_label_rename t.position t, ← Formula.op_label_rename c.position c]
    exact congrArg some h.1.op_eq

namespace Formula

variable {α β : Type}

/-! ### Numbers that are normal already -/

theorem normal_iff {t : Formula α} : t.normalize = t ↔ t.vars.map t.position = t.vars := by
  constructor
  · intro h
    rw [← vars_rename, ← normalize_eq, h]
  · intro h
    have hfix : ∀ v ∈ t.vars, t.position v = v :=
      List.map_inj_left.mp (h.trans (List.map_id' _).symm)
    rw [normalize_eq, rename_congr hfix, rename_id]

/-- Whether a formula is normal is a matter of the list of its variables. -/
theorem normal_congr {t : Formula α} {t' : Formula β} (h : t.vars = t'.vars) :
    t.normalize = t ↔ t'.normalize = t' := by
  have hposition : t.position = t'.position := by
    funext v
    rw [position, position, variableOrder, variableOrder, h]
  rw [normal_iff, normal_iff, h, hposition]

theorem vars_standardizeSigned (b : Bool) (t : Formula α) :
    (t.standardizeSigned b).vars = t.vars := by
  induction t generalizing b with
  | leaf s a => cases b <;> simp [standardizeSigned]
  | node s c l r ihl ihr => cases b <;> cases c <;> simp [standardizeSigned, ihl, ihr]

theorem standardizeSigned_rename (f : Int → Int) (b : Bool) (t : Formula α) :
    (t.rename f).standardizeSigned b = (t.standardizeSigned b).rename f := by
  induction t generalizing b with
  | leaf s a =>
      cases b with
      | false => rfl
      | true =>
          obtain ⟨k, op, v⟩ := a
          cases k <;> rfl
  | node s c l r ihl ihr =>
      cases b <;> cases c <;> exact congrArg₂ (node s _) (ihl _) (ihr _)

end Formula

section schematic

variable {c f : Formula Nat}

theorem schematic_rename (hf : f.WellPlaced ∧ f.Within .schematic) (p : Int → Int) :
    (f.rename p).WellPlaced ∧ (f.rename p).Within .schematic :=
  ⟨hf.1.mapLeaves _, hf.2.rename p⟩

theorem settles_standardize_iff (hc : c.WellPlaced ∧ c.Within .schematic)
    (hf : f.WellPlaced ∧ f.Within .schematic) :
    Sheet.settles (some c) (some f.standardize) = true ↔
      f.standardize.normalize.shape = c.normalize.shape ∧ f.slots = c.slots := by
  have hplaced : f.standardize.WellPlaced := hf.1.of_slots (f.slots_standardizeSigned false)
  have hwithin : f.standardize.Within .schematic := hf.2.standardizeSigned (fun _ => trivial) false
  rw [Sheet.settles_iff hc.1 hplaced,
    Formula.matches_iff_of_schematic hwithin.normalize hc.2.normalize]
  exact and_congr_right' (by rw [Formula.standardize, Formula.slots_standardizeSigned])

/-- The numbers of letters that are held fixed are compared as they are. -/
theorem settles_asTarget_iff (hc : c.WellPlaced ∧ c.Within .schematic)
    (hf : f.WellPlaced ∧ f.Within .schematic) :
    Sheet.settles (some c) (some f.asTarget) = true ↔
      f.standardize.shape = c.normalize.shape ∧ f.slots = c.slots := by
  have hwithin : f.standardize.Within .schematic := hf.2.standardizeSigned (fun _ => trivial) false
  have hregular : f.standardize.Within .regular := hwithin.mono Fragment.schematic_le
  have hnormal : c.normalize.Within .regular := (hc.2.mono Fragment.schematic_le).normalize
  obtain ⟨hfrozen, hclosed⟩ := hregular.freeze
  rw [Sheet.settles_iff hc.1 hf.1.asTarget, Formula.asTarget, Formula.normalize_of_closed hclosed,
    Formula.matches_true_iff hfrozen hnormal, Formula.freeze_of_closed hclosed,
    ← Formula.matches_true_iff hregular hnormal,
    Formula.matches_iff_of_schematic hwithin hc.2.normalize]
  refine and_congr_right' ?_
  rw [Formula.freeze, Formula.slots_mapLeaves, Formula.standardize,
    Formula.slots_standardizeSigned]

/-- A schema settles a target whose letters are held fixed exactly if it settles the target with
its letters free and these are numbered by first occurrence. -/
theorem settles_asTarget_iff_normal (hc : c.WellPlaced ∧ c.Within .schematic)
    (hf : f.WellPlaced ∧ f.Within .schematic) :
    Sheet.settles (some c) (some f.asTarget) = true ↔
      f.normalize = f ∧ Sheet.settles (some c) (some f.standardize) = true := by
  have hvars : f.standardize.vars = f.vars := f.vars_standardizeSigned false
  rw [settles_asTarget_iff hc hf, settles_standardize_iff hc hf, ← and_assoc,
    ← Formula.normal_congr hvars]
  refine and_congr_left' ⟨fun h => ?_, fun ⟨hnormal, h⟩ => by rwa [hnormal] at h⟩
  have hshape : f.standardize.shape.normalize = f.standardize.shape := by
    rw [h, ← Formula.shape_normalize, Formula.normalize_normalize]
  refine ⟨(Formula.normal_congr (Formula.vars_shape _)).mp hshape, ?_⟩
  rw [Formula.shape_normalize, hshape, h]

end schematic

open Formula in
/-- With its letters free, a target is settled by the same schemas however its variables are
numbered. With its letters held fixed it is settled only if they are numbered by first occurrence,
and then by these schemas. So renumbering a target whose letters are held fixed does not matter to
a schema exactly if the schema does not settle the target with its letters free, or if the old and
the new numbers are both normal or both not. -/
theorem fixed_letters_settled_iff {f : Formula Nat} (hf : f.WellPlaced ∧ f.Within .schematic)
    {p : Int → Int} (hp : ∀ u ∈ f.vars, ∀ v ∈ f.vars, p u = p v → u = v) {c : Sheet}
    (hc : ∀ t, c = some t → t.WellPlaced ∧ t.Within .schematic) :
    c.settles (some (f.rename p).standardize) = c.settles (some f.standardize) ∧
    (c.settles (some (f.rename p).asTarget) = true ↔
      (f.rename p).normalize = f.rename p ∧ c.settles (some f.standardize) = true) ∧
    (c.settles (some f.asTarget) = c.settles (some (f.rename p).asTarget) ↔
      (c.settles (some f.standardize) = true →
        (f.normalize = f ↔ (f.rename p).normalize = f.rename p))) := by
  cases c with
  | none => simp [Sheet.settles]
  | some c =>
      have hc := hc c rfl
      have hrenamed := schematic_rename hf p
      have hnormalize : (f.rename p).standardize.normalize = f.standardize.normalize := by
        rw [standardize, standardizeSigned_rename, normalize_rename]
        rwa [vars_standardizeSigned]
      have hfree : Sheet.settles (some c) (some (f.rename p).standardize) =
          Sheet.settles (some c) (some f.standardize) := by
        rw [Bool.eq_iff_iff, settles_standardize_iff hc hrenamed, settles_standardize_iff hc hf,
          hnormalize, slots_rename]
      have hfixed := settles_asTarget_iff_normal hc hrenamed
      rw [hfree] at hfixed
      refine ⟨hfree, hfixed, ?_⟩
      rw [Bool.eq_iff_iff, settles_asTarget_iff_normal hc hf, hfixed]
      exact and_congr_left_iff

/-- `(a|!b)>a`. -/
def signedChoice : Formula Nat :=
  Formula.place (.node () .implication
    (.node () .disjunction (Schemas.v 1) (Schemas.nv 2)) (Schemas.v 1))

theorem schematic_signedChoice : signedChoice.WellPlaced ∧ signedChoice.Within .schematic :=
  ⟨Formula.wellPlaced_place _, (Formula.within_place _).mpr
    ⟨trivial, ⟨trivial, Schemas.within_v 1, Schemas.within_nv 2⟩, Schemas.within_v 1⟩⟩

/-- `(!a>!b)>a` settles `(b|!a)>b` only as long as its letters are free. -/
theorem fixed_letters_settled_signedChoice :
    (signedChoice.rename (3 - ·)).text = "(b|!a)>b" ∧
    Sheet.settles (some signedChoice.standardize)
      (some (signedChoice.rename (3 - ·)).standardize) = true ∧
    Sheet.settles (some signedChoice.standardize)
      (some (signedChoice.rename (3 - ·)).asTarget) = false := by
  have hschema : signedChoice.standardize.WellPlaced ∧
      signedChoice.standardize.Within .schematic :=
    ⟨schematic_signedChoice.1.of_slots (Formula.slots_standardizeSigned false _),
      schematic_signedChoice.2.standardizeSigned (fun _ => trivial) false⟩
  obtain ⟨hfree, hfixed, -⟩ := fixed_letters_settled_iff schematic_signedChoice
    (p := (3 - ·)) (by decide) (c := some signedChoice.standardize)
    (fun t ht => Option.some.inj ht ▸ hschema)
  refine ⟨by decide, ?_, ?_⟩
  · rw [hfree, settles_standardize_iff hschema schematic_signedChoice]
    decide
  · rw [Bool.eq_false_iff, Ne, hfixed]
    decide

/-- `a>b` settles the target `a>b` and not `b>a`, though these are the same but for the choice of
letters. -/
theorem choice_of_letters_counts :
    ∃ f : Formula Nat, parse "a>b" = .ok f ∧ parse "b>a" = .ok (f.rename (3 - ·)) ∧
      f.WellPlaced ∧ f.Within .schematic ∧
      (∀ u ∈ f.vars, 0 < 3 - u ∧ ∀ v ∈ f.vars, 3 - u = 3 - v → u = v) ∧
      Sheet.settles (some f) (some f.asTarget) = true ∧
      Sheet.settles (some f) (some (f.rename (3 - ·)).asTarget) = false := by
  have hparse : parse "a>b" = .ok (Formula.place (Schemas.imp (Schemas.v 1) (Schemas.v 2))) := by
    decide +kernel
  have hf := within_parse hparse
  refine ⟨_, hparse, by decide +kernel, hf.1, hf.2, by decide, ?_, ?_⟩
  · rw [settles_asTarget_iff hf hf]
    decide
  · rw [Bool.eq_false_iff, Ne, settles_asTarget_iff hf (schematic_rename hf _)]
    decide

end Detachment

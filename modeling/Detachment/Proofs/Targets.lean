import Detachment.Session
import Detachment.Proofs.Parsing
import Detachment.Proofs.Placement

/-!
# Targets and schemas

What the deduction theorem takes a target apart into, and what there is to know about the formulas
that a session begins with: the schemas, the formulas that were read, and their prepared forms.
-/
namespace Detachment

namespace Formula

variable {α : Type}

/-! ### The deduction theorem -/

section discharges

variable {t : Formula α} {d : Discharge}

theorem discharge_cases {s : α} {c : Connective} {l r : Formula α}
    (h : d ∈ (node s c l r).discharges) :
    c = .implication ∧
      (d = ⟨(node s .implication l r).place, l.place, r.place⟩ ∨ d ∈ r.discharges) := by
  cases c with
  | implication => exact ⟨rfl, List.mem_cons.mp h⟩
  | _ => cases h

theorem wellPlaced_of_discharge (h : d ∈ t.discharges) :
    d.hypothesis.WellPlaced ∧ d.conclusion.WellPlaced := by
  induction t with
  | leaf s a => cases h
  | node s c l r _ ihr =>
      obtain ⟨-, rfl | h⟩ := discharge_cases h
      · exact ⟨wellPlaced_place l, wellPlaced_place r⟩
      · exact ihr h

theorem within_of_discharge {F : Fragment} (ht : t.Within F) (h : d ∈ t.discharges) :
    d.hypothesis.Within F ∧ d.conclusion.Within F := by
  induction t with
  | leaf s a => cases h
  | node s c l r _ ihr =>
      obtain ⟨-, rfl | h⟩ := discharge_cases h
      · exact ⟨(within_place l).mpr ht.2.1, (within_place r).mpr ht.2.2⟩
      · exact ihr ht.2.2 h

theorem vars_of_discharge (h : d ∈ t.discharges) :
    d.hypothesis.vars ⊆ t.vars ∧ d.conclusion.vars ⊆ t.vars := by
  induction t with
  | leaf s a => cases h
  | node s c l r _ ihr =>
      have hright : r.vars ⊆ (node s c l r).vars := by simp
      obtain ⟨-, rfl | h⟩ := discharge_cases h
      · simp
      · exact ⟨List.Subset.trans (ihr h).1 hright, List.Subset.trans (ihr h).2 hright⟩

/-- A target is true if a hypothesis of it is false or a conclusion of it is true. -/
theorem eval_of_discharge {vars consts : Int → Bool} (h : d ∈ t.discharges)
    (hd : d.hypothesis.eval vars consts = false ∨ d.conclusion.eval vars consts = true) :
    t.eval vars consts = true := by
  induction t with
  | leaf s a => cases h
  | node s c l r _ ihr =>
      obtain ⟨rfl, rfl | h⟩ := discharge_cases h
      · simp only [eval_place] at hd
        obtain hd | hd := hd
        · simp [Connective.truth, hd]
        · simp [Connective.truth, hd]
      · simp [Connective.truth, ihr h]

end discharges

/-- `g` is what a target says or one of its conclusions. -/
def IsGoal (target g : Formula Nat) : Prop :=
  g = target ∨ ∃ d ∈ target.discharges, g = d.conclusion

namespace IsGoal

variable {target g : Formula Nat}

theorem wellPlaced (h : IsGoal target g) (htarget : target.WellPlaced) : g.WellPlaced := by
  obtain rfl | ⟨d, hd, rfl⟩ := h
  · exact htarget
  · exact (wellPlaced_of_discharge hd).2

theorem within {F : Fragment} (h : IsGoal target g) (htarget : target.Within F) : g.Within F := by
  obtain rfl | ⟨d, hd, rfl⟩ := h
  · exact htarget
  · exact (within_of_discharge htarget hd).2

theorem vars_subset (h : IsGoal target g) : g.vars ⊆ target.vars := by
  obtain rfl | ⟨d, hd, rfl⟩ := h
  · exact List.Subset.refl _
  · exact (vars_of_discharge hd).2

theorem holds {consts : Int → Bool} (h : IsGoal target g) (hg : g.Holds consts) :
    target.Holds consts := by
  obtain rfl | ⟨d, hd, rfl⟩ := h
  · exact hg
  · exact fun vars => eval_of_discharge hd (.inr (hg vars))

end IsGoal

end Formula

/-! ### Schemas -/

/-- The formulas all of whose leaves are variables with a sign. -/
def Fragment.schematic : Fragment where
  leaf a := a.kind = .var ∧ (a.op = .nop ∨ a.op = .negation)
  op _ := True
  leaf_var _ := ⟨rfl, .inl rfl⟩
  leaf_negate a h := by
    obtain ⟨hk, -⟩ := h
    unfold Leaf.negate
    cases a.negated <;> simp [hk]
  leaf_rename f a h := by unfold Leaf.rename; split <;> exact h
  op_opposite _ _ := trivial

theorem Fragment.schematic_le : Fragment.schematic ≤ .regular :=
  ⟨fun _ h => ⟨by rw [h.1]; simp, h.2⟩, fun _ _ => trivial⟩

namespace Formula

variable {α : Type}

/-- Constants do not count for the value of a formula without them. -/
theorem value_of_schematic {D : Type} (M : Meaning D) {t : Formula α} (h : t.Within .schematic)
    (vars consts consts' : Int → D) : t.value M vars consts = t.value M vars consts' := by
  induction t with
  | leaf s a => simp [value, Leaf.meaning, Leaf.isVariable_of_kind h.1]
  | node s c l r ihl ihr => rw [value, value, ihl h.2.1, ihr h.2.2]

end Formula

namespace Schemas

variable (vars consts : Int → Bool)

@[simp] theorem eval_v (n : Int) : (v n).eval vars consts = vars n := rfl

@[simp] theorem eval_nv (n : Int) : (nv n).eval vars consts = !vars n := rfl

@[simp] theorem eval_imp (l r : Shape) :
    (imp l r).eval vars consts = (!l.eval vars consts || r.eval vars consts) := rfl

/-- The schemas are true for all values of their variables. -/
theorem tautology_of_mem {f : Formula Nat} (h : f ∈ contraposition :: classical) : f.Tautology := by
  intro consts vars
  simp only [classical, List.mem_cons, List.not_mem_nil, or_false] at h
  obtain rfl | rfl | rfl | rfl := h
  · simp only [contraposition, Formula.eval_place, eval_imp, eval_v, eval_nv]
    cases vars 1 <;> cases vars 2 <;> rfl
  · simp only [weakening, Formula.eval_place, eval_imp, eval_v]
    cases vars 1 <;> cases vars 2 <;> rfl
  · simp only [distribution, Formula.eval_place, eval_imp, eval_v]
    cases vars 1 <;> cases vars 2 <;> cases vars 3 <;> rfl
  · simp only [reductio, Formula.eval_place, eval_imp, eval_v, eval_nv]
    cases vars 1 <;> cases vars 2 <;> rfl

theorem within_v (n : Int) : (v n).Within .schematic := ⟨rfl, .inl rfl⟩

theorem within_nv (n : Int) : (nv n).Within .schematic := ⟨rfl, .inr rfl⟩

theorem within_imp {l r : Shape} (hl : l.Within .schematic) (hr : r.Within .schematic) :
    (imp l r).Within .schematic := ⟨trivial, hl, hr⟩

theorem within_of_mem {f : Formula Nat} (h : f ∈ contraposition :: classical) :
    f.WellPlaced ∧ f.Within .schematic := by
  have hplace {t : Shape} (ht : t.Within .schematic) :
      t.place.WellPlaced ∧ t.place.Within .schematic :=
    ⟨Formula.wellPlaced_place t, (Formula.within_place t).mpr ht⟩
  simp only [classical, List.mem_cons, List.not_mem_nil, or_false] at h
  obtain rfl | rfl | rfl | rfl := h <;> refine hplace ?_ <;>
    repeat first | exact within_v _ | exact within_nv _ | apply within_imp

theorem place_of_mem {f : Formula Nat} (h : f ∈ contraposition :: classical) : f.place = f := by
  simp only [classical, List.mem_cons, List.not_mem_nil, or_false] at h
  obtain rfl | rfl | rfl | rfl := h <;> exact Formula.place_place _

end Schemas

/-! ### Formulas that were read -/

/-- What is read has variables only. -/
theorem within_parse {src : String} {f : Formula Nat} (h : parse src = .ok f) :
    f.WellPlaced ∧ f.Within .schematic := by
  obtain ⟨t, -, rfl⟩ := derives_of_parse h
  rw [t.stored_eq]
  exact ⟨Formula.wellPlaced_place _, (Formula.within_place _).mpr (t.within_shape fun _ => trivial)⟩

namespace Formula

theorem slots_standardizeSigned {α : Type} (b : Bool) (t : Formula α) :
    (t.standardizeSigned b).slots = t.slots := by
  induction t generalizing b with
  | leaf s a => cases b <;> rfl
  | node s c l r ihl ihr => cases b <;> cases c <;> simp [standardizeSigned, slots, ihl, ihr]

theorem WellPlaced.asTarget {t : Formula Nat} (h : t.WellPlaced) : t.asTarget.WellPlaced :=
  (h.of_slots (slots_standardizeSigned false t)).mapLeaves _

theorem Within.standardizeSigned {α : Type} {F : Fragment} (hF : ∀ c, F.op c) {t : Formula α}
    (h : t.Within F) (b : Bool) : (t.standardizeSigned b).Within F := by
  induction t generalizing b with
  | leaf s a =>
      cases b with
      | false => exact h
      | true => exact F.leaf_negate a h
  | node s c l r ihl ihr =>
      cases b <;> cases c <;> exact ⟨hF _, ihl h.2.1 _, ihr h.2.2 _⟩

theorem Within.freeze {α : Type} {t : Formula α} (h : t.Within .regular) :
    t.freeze.Within .regular ∧ t.freeze.vars = [] := by
  induction t with
  | leaf s a =>
      change (leaf s a.freeze).Within .regular ∧ (leaf s a.freeze).vars = []
      unfold Leaf.freeze
      cases hv : a.isVariable with
      | true => exact ⟨⟨by simp, h.2⟩, by simp [Leaf.varNumber?, Leaf.isVariable]⟩
      | false => exact ⟨h, by simp [Leaf.varNumber?, hv]⟩
  | node s c l r ihl ihr =>
      change (node s c l.freeze r.freeze).Within .regular ∧ (node s c l.freeze r.freeze).vars = []
      obtain ⟨hl, hvl⟩ := ihl h.2.1
      obtain ⟨hr, hvr⟩ := ihr h.2.2
      exact ⟨⟨trivial, hl, hr⟩, by simp [hvl, hvr]⟩

/-- Well-formed formulas fill their slots, and their leaves are letters with a sign. -/
def WellFormed (t : Formula Nat) : Prop :=
  t.WellPlaced ∧ t.Within .regular

/-- The prepared form of a well-formed formula is well-formed and has no variables. -/
theorem WellFormed.asTarget {t : Formula Nat} (h : t.WellFormed) :
    t.asTarget.WellFormed ∧ t.asTarget.vars = [] := by
  obtain ⟨hwithin, hvars⟩ := (h.2.standardizeSigned (fun _ => trivial) false).freeze
  exact ⟨⟨h.1.asTarget, hwithin⟩, hvars⟩

/-- A formula that has only variables is a tautology if its prepared form is true whatever the
constants are. -/
theorem tautology_of_asTarget {t : Formula Nat} (ht : t.Within .schematic)
    (h : ∀ consts, t.asTarget.Holds consts) : t.Tautology := by
  intro consts vars
  have heval := h vars vars
  rw [eval, Formula.asTarget, value_freeze,
    value_standardize _ _ _ (ht.mono (Fragment.schematic_le.trans Fragment.regular_le))] at heval
  rw [eval, value_of_schematic _ ht vars consts vars]
  exact heval

end Formula

end Detachment

import Detachment.Proofs.Expansion
import Detachment.Schemas

/-!
# Soundness of unification

A unifier gives its two operands the same value in every meaning. For operands without disjunctions
this means that substituting makes them the same formula, and if the operands are canonically
placed, even slot by slot.
-/
namespace Detachment

/-- The formulas all of whose leaves are letters with a sign. -/
def Fragment.regular : Fragment where
  leaf := Leaf.Regular
  op _ := True
  leaf_var := Fragment.standard.leaf_var
  leaf_negate := Fragment.standard.leaf_negate
  leaf_rename := Fragment.standard.leaf_rename
  op_opposite _ _ := trivial

theorem Fragment.regular_le : Fragment.regular ≤ .lettered :=
  ⟨fun _ h => h.1, fun _ _ => trivial⟩

namespace Formula

variable {α : Type}

theorem within_standard {t : Formula α} (h : t.Within .regular)
    (hd : t.operations (.binary .disjunction) = 0) : t.Within .standard := by
  induction t with
  | leaf s a => exact h
  | node s c l r ihl ihr =>
      obtain ⟨-, hl, hr⟩ := h
      simp only [operations, Nat.add_eq_zero_iff] at hd
      refine ⟨?_, ihl hl hd.1.2, ihr hr hd.2⟩
      rintro rfl
      simp at hd

theorem placeFrom_rename (n : Nat) (f : Int → Int) (t : Formula α) :
    (t.rename f).placeFrom n = (t.placeFrom n).rename f := by
  induction t generalizing n with
  | leaf s a => rfl
  | node s c l r ihl ihr =>
      change (node s c (l.rename f) (r.rename f)).placeFrom n = _
      have hs : (l.rename f).size = l.size := size_mapLeaves _ l
      rw [placeFrom, ihl, ihr, hs]
      rfl

theorem place_shiftVariables (bound : Int) {t : Formula Nat} (h : t.place = t) :
    (t.shiftVariables bound).place = t.shiftVariables bound := by
  unfold shiftVariables shiftVariablesBy
  cases t.minVariable? with
  | none => exact h
  | some m =>
      rw [place_eq] at h ⊢
      rw [placeFrom_rename, h]

theorem place_place (t : Formula α) : t.place.place = t.place :=
  place_congr (shape_place t)

end Formula

theorem Entry.agrees_self (ignoreKinds : Bool) (e : Entry) : e.agrees ignoreKinds e = true := by
  unfold Entry.agrees
  cases e.label.isFunction <;> simp

theorem Formula.agrees_self (ignoreKinds : Bool) (t : Formula Nat) :
    t.agrees ignoreKinds t = true := by
  unfold Formula.agrees
  simp only [beq_self_eq_true, Bool.true_and, List.all_eq_true]
  intro p hp
  obtain ⟨i, hi, rfl⟩ := List.mem_iff_getElem.mp hp
  rw [List.getElem_zip]
  exact Entry.agrees_self ..

theorem Substitution.place_apply (s : Substitution) {t : Formula Nat} (h : t.place = t) :
    (s.apply t).place = s.apply t := by
  obtain ⟨-, he⟩ | he := s.apply_cases t
  · rw [he, h]
  · rw [he, Formula.place_place]

variable {F : Fragment} {fit : Int → Int} {floor : Int} {l r : Formula Nat} {s : Substitution}

/-- The bindings that the loop ends with, and the unifier they are expanded to. -/
theorem exists_expand_of_unifyBy (h : unifyBy fit floor l r = .ok s) :
    ∃ fuel fresh s₀, Unification.loopBy fit fuel ⟨[], fresh, [(l, r)]⟩ = some (.ok s₀) ∧
      s₀.expand = .ok s := by
  unfold unifyBy at h
  dsimp only at h
  split at h
  · cases h
  · cases h
  · rename_i s₀ hloop
    exact ⟨_, _, s₀, hloop, h⟩

theorem expanded_of_unifyBy (h : unifyBy fit floor l r = .ok s) :
    ∃ s₀, Substitution.Expanded .full s₀ s := by
  obtain ⟨fuel, fresh, s₀, hloop, hexpand⟩ := exists_expand_of_unifyBy h
  have hproper : Unification.State.Proper .full ⟨[], fresh, [(l, r)]⟩ :=
    ⟨Substitution.proper_nil .full, by simpa using ⟨l.within_full, r.within_full⟩⟩
  exact ⟨s₀, Substitution.expanded_of_expand (Unification.proper_of_loopBy hproper hloop) hexpand⟩

/-- A unifier lies in the fragment of its operands, mentions no bound variable in its values, and
gives the operands the same value in every meaning. -/
structure Unifies (F : Fragment) (l r : Formula Nat) (s : Substitution) : Prop where
  within : s.Within F
  solved : s.Solved
  value_eq : ∀ {D : Type} (M : Meaning D) (vars consts : Int → D),
    l.value M (s.assign M vars consts) consts = r.value M (s.assign M vars consts) consts

/-- What unification finds is a unifier, however fresh variables are stored. -/
theorem unifies_of_unifyBy (hF : F ≤ .lettered) (hl : l.Within F) (hr : r.Within F)
    (h : unifyBy fit floor l r = .ok s) : Unifies F l r s := by
  obtain ⟨fuel, fresh, s₀, hloop, hexpand⟩ := exists_expand_of_unifyBy h
  have hproper (F : Fragment) (hl : l.Within F) (hr : r.Within F) :
      Unification.State.Proper F ⟨[], fresh, [(l, r)]⟩ :=
    ⟨Substitution.proper_nil F, by simpa using ⟨hl, hr⟩⟩
  have hs₀ := Unification.proper_of_loopBy (hproper F hl hr) hloop
  have hexp := Substitution.expansion_of_expand hF hs₀ hexpand
  refine ⟨hexp.within, hexp.solved, fun M vars consts => ?_⟩
  have hsol := Unification.solved_of_loopBy (hproper .lettered (hl.mono hF) (hr.mono hF)) hloop
    (hexp.satisfied M vars consts)
  exact hsol.queue (l, r) (by simp)

theorem unifies_of_unifyAbove (hF : F ≤ .lettered)
    (hl : l.Within F) (hr : r.Within F) (h : unifyAbove floor l r = .ok s) : Unifies F l r s :=
  unifies_of_unifyBy hF hl hr h

/-- Applying a unifier to both operands gives formulas of the same value in every meaning. -/
theorem Unifies.value_apply_eq (hF : F ≤ .lettered)
    (h : Unifies F l r s) {D : Type} (M : Meaning D) (vars consts : Int → D) :
    (s.apply l).value M vars consts = (s.apply r).value M vars consts := by
  have hs : s.Within .lettered := fun v t ht => (h.within v t ht).mono hF
  rw [Substitution.value_apply M hs h.solved, Substitution.value_apply M hs h.solved,
    h.value_eq M vars consts]

/-- On formulas without disjunctions a unifier makes its operands the same formula. -/
theorem Unifies.shape_apply_eq (hl : l.Within .standard) (hr : r.Within .standard)
    (h : Unifies .standard l r s) : (s.apply l).shape = (s.apply r).shape := by
  rw [← Formula.value_shapes (Substitution.within_apply h.within hl),
    ← Formula.value_shapes (Substitution.within_apply h.within hr),
    h.value_apply_eq Fragment.standard_le]

theorem shape_apply_eq (hl : l.Within .standard) (hr : r.Within .standard)
    (h : unifyAbove floor l r = .ok s) : (s.apply l).shape = (s.apply r).shape :=
  (unifies_of_unifyAbove Fragment.standard_le hl hr h).shape_apply_eq hl hr

theorem agrees_apply (hl : l.Within .standard) (hr : r.Within .standard) (hcl : l.place = l)
    (hcr : r.place = r) (h : unifyAbove floor l r = .ok s) :
    (s.apply l).agrees false (s.apply r) = true := by
  have heq : s.apply l = s.apply r := by
    rw [← s.place_apply hcl, ← s.place_apply hcr]
    exact Formula.place_congr (shape_apply_eq hl hr h)
  rw [heq]
  exact Formula.agrees_self ..

/-- Unification is sound. If it succeeds on two formulas without disjunctions, the substitution
makes them the same formula, and if they are canonically placed, the results agree slot by slot.
This holds whether or not the operands share variables, and also if the variables of the second
are first moved beyond those of the first. -/
theorem unifier_equalizes {l r : Formula Nat} (hl : l.Within .regular) (hr : r.Within .regular)
    (hdl : l.operations (.binary .disjunction) = 0)
    (hdr : r.operations (.binary .disjunction) = 0) :
    (∀ floor s, unifyAbove floor l r = .ok s →
      (s.apply l).shape = (s.apply r).shape ∧
        (l.place = l → r.place = r → (s.apply l).agrees false (s.apply r) = true)) ∧
    (∀ s r', r' = r.shiftVariables (l.maxVariable + 1) →
      Sheet.unify (some l) (some r) = .ok s →
        (s.apply l).shape = (s.apply r').shape ∧
          (l.place = l → r.place = r → (s.apply l).agrees false (s.apply r') = true)) := by
  have hl' := Formula.within_standard hl hdl
  have hr' := Formula.within_standard hr hdr
  constructor
  · intro floor s h
    exact ⟨shape_apply_eq hl' hr' h, fun hcl hcr => agrees_apply hl' hr' hcl hcr h⟩
  · rintro s r' rfl h
    have hshift := hr'.shiftVariables (l.maxVariable + 1)
    refine ⟨shape_apply_eq hl' hshift h, fun hcl hcr => agrees_apply hl' hshift hcl ?_ h⟩
    exact Formula.place_shiftVariables _ hcr

/-- `a>(!b>a)` -/
def sharedLeft : Formula Nat :=
  (Schemas.imp (Schemas.v 1) (Schemas.imp (Schemas.nv 2) (Schemas.v 1))).place

/-- `(b>A)>(c>d)` -/
def sharedRight : Formula Nat :=
  (Schemas.imp (Schemas.imp (Schemas.v 2) (.leaf () (.const 1)))
    (Schemas.imp (Schemas.v 3) (Schemas.v 4))).place

theorem unifier_equalizes_shared :
    (∃ s, unifyAbove 0 sharedLeft sharedRight = .ok s ∧
      (s.apply sharedLeft).shape = (s.apply sharedRight).shape ∧
        (s.apply sharedLeft).agrees false (s.apply sharedRight) = true) ∧
    (∃ s r', r' = sharedRight.shiftVariables (sharedLeft.maxVariable + 1) ∧
      Sheet.unify (some sharedLeft) (some sharedRight) = .ok s ∧
        (s.apply sharedLeft).shape = (s.apply r').shape ∧
          (s.apply sharedLeft).agrees false (s.apply r') = true) := by
  have hexists {x : Except UnifyError Substitution} (h : x.toOption.isSome = true) :
      ∃ s, x = .ok s := by
    cases x with
    | ok s => exact ⟨s, rfl⟩
    | error e => cases h
  have hl : sharedLeft.Within .regular := (Formula.within_place _).mpr (by
    simp [Formula.Within, Schemas.imp, Schemas.v, Schemas.nv, Formula.negate, Fragment.regular,
      Leaf.Regular, Leaf.negate, Leaf.negated, Leaf.var])
  have hr : sharedRight.Within .regular := (Formula.within_place _).mpr (by
    simp [Formula.Within, Schemas.imp, Schemas.v, Fragment.regular, Leaf.Regular, Leaf.const,
      Leaf.var])
  obtain ⟨hplain, hmoved⟩ := unifier_equalizes hl hr (by decide) (by decide)
  obtain ⟨s, hs⟩ := hexists (x := unifyAbove 0 sharedLeft sharedRight) (by decide +kernel)
  obtain ⟨s', hs'⟩ := hexists (x := Sheet.unify (some sharedLeft) (some sharedRight))
    (by decide +kernel)
  obtain ⟨hshape, hagrees⟩ := hplain 0 s hs
  obtain ⟨hshape', hagrees'⟩ := hmoved s' _ rfl hs'
  exact ⟨⟨s, hs, hshape, hagrees (Formula.place_place _) (Formula.place_place _)⟩,
    s', _, rfl, hs', hshape', hagrees' (Formula.place_place _) (Formula.place_place _)⟩

/-- Unification is sound for every connective. A negation that is pushed through a disjunction and
back leaves an implication, so with disjunctions the two results need not be the same formula. They
still have the same truth value under every assignment. -/
theorem unifier_equates_truth (hl : l.Within .regular) (hr : r.Within .regular)
    (h : unifyAbove floor l r = .ok s) (vars consts : Int → Bool) :
    (s.apply l).eval vars consts = (s.apply r).eval vars consts := by
  have hu := unifies_of_unifyAbove Fragment.regular_le hl hr h
  exact hu.value_apply_eq Fragment.regular_le .truth vars consts

/-- `!a` -/
def negatedLeft : Formula Nat :=
  (Schemas.nv 1).place

/-- `A|B` -/
def disjoinedRight : Formula Nat :=
  Formula.place (.node () .disjunction (.leaf () (.const 1)) (.leaf () (.const 2)))

/-- The variable becomes `!A*!B`, whose negation is `!A>B` and not `A|B`. -/
theorem unifier_equates_truth_disjoined :
    ∃ s, unifyAbove 0 negatedLeft disjoinedRight = .ok s ∧
      (s.apply negatedLeft).shape ≠ (s.apply disjoinedRight).shape ∧
        ∀ vars consts, (s.apply negatedLeft).eval vars consts =
          (s.apply disjoinedRight).eval vars consts := by
  have hl : negatedLeft.Within .regular := (Formula.within_place _).mpr (by
    simp [Formula.Within, Schemas.v, Schemas.nv, Formula.negate, Fragment.regular, Leaf.Regular,
      Leaf.negate, Leaf.negated, Leaf.var])
  have hr : disjoinedRight.Within .regular := (Formula.within_place _).mpr (by
    simp [Formula.Within, Fragment.regular, Leaf.Regular, Leaf.const])
  have hdiffer : (unifyAbove 0 negatedLeft disjoinedRight).toOption.any (fun s =>
      (s.apply negatedLeft).shape ≠ (s.apply disjoinedRight).shape) = true := by
    decide +kernel
  cases hs : unifyAbove 0 negatedLeft disjoinedRight with
  | error e =>
      rw [hs] at hdiffer
      cases hdiffer
  | ok s =>
      rw [hs] at hdiffer
      exact ⟨s, rfl, by simpa [Except.toOption] using hdiffer, unifier_equates_truth hl hr hs⟩

end Detachment

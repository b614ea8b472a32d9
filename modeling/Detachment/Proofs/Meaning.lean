import Detachment.Proofs.Letters
import Mathlib.Logic.Function.Basic

/-!
# What formulas mean

A `Meaning` interprets the connectives on some domain, with a negation that is its own inverse and
that goes through the connectives the way `Formula.negate` does. Every formula then has a value for
each choice of values for its letters.

Two meanings matter. In `Meaning.truth` the values are truth values. In `Meaning.shapes` they are
formulas without disjunctions, so that a value is the result of a simultaneous substitution. What
holds in every meaning therefore holds of truth and of substitution alike.
-/
namespace Detachment

structure Meaning (D : Type) where
  neg : D → D
  op : Connective → D → D → D
  neg_neg : ∀ x, neg (neg x) = x
  neg_implication : ∀ x y, neg (op .implication x y) = op .conjunction x (neg y)
  neg_disjunction : ∀ x y, neg (op .disjunction x y) = op .conjunction (neg x) (neg y)
  neg_xor : ∀ x y, neg (op .xor x y) = op .equivalence x y

namespace Meaning

variable {D : Type} (M : Meaning D)

theorem neg_conjunction (x y : D) :
    M.neg (M.op .conjunction x y) = M.op .implication x (M.neg y) := by
  have h := congrArg M.neg (M.neg_implication x (M.neg y))
  rw [M.neg_neg, M.neg_neg] at h
  exact h.symm

theorem neg_equivalence (x y : D) : M.neg (M.op .equivalence x y) = M.op .xor x y := by
  rw [← M.neg_xor, M.neg_neg]

/-- Every meaning reads `a|b` as `!a>b`. -/
theorem disjunction_eq (x y : D) : M.op .disjunction x y = M.op .implication (M.neg x) y := by
  have h : M.neg (M.op .disjunction x y) = M.neg (M.op .implication (M.neg x) y) := by
    rw [M.neg_disjunction, M.neg_implication]
  rw [← M.neg_neg (M.op .disjunction x y), h, M.neg_neg]

def signed (b : Bool) (x : D) : D :=
  if b then M.neg x else x

@[simp] theorem signed_false (x : D) : M.signed false x = x := rfl

@[simp] theorem signed_true (x : D) : M.signed true x = M.neg x := rfl

end Meaning

/-- The formulas all of whose leaves are letters. -/
def Fragment.lettered : Fragment where
  leaf a := a.kind ≠ .unknown
  op _ := True
  leaf_var v := by simp [Leaf.var]
  leaf_negate a h := by unfold Leaf.negate; cases hk : a.kind <;> simp_all
  leaf_rename f a h := by unfold Leaf.rename; split <;> exact h
  op_opposite _ _ := trivial

section value

variable {D : Type} (M : Meaning D)

def Leaf.meaning (vars consts : Int → D) (a : Leaf) : D :=
  M.signed a.negated (if a.isVariable then vars a.value else consts a.value)

theorem Leaf.meaning_negate (vars consts : Int → D) {a : Leaf} (h : a.kind ≠ .unknown) :
    a.negate.meaning M vars consts = M.neg (a.meaning M vars consts) := by
  have hn : a.negate.negated = !a.negated := by
    unfold Leaf.negate
    cases hk : a.kind with
    | unknown => exact absurd hk h
    | const => by_cases hb : a.op = .negation <;> simp [Leaf.negated, hb]
    | var => by_cases hb : a.op = .negation <;> simp [Leaf.negated, hb]
  unfold Leaf.meaning
  rw [hn, isVariable_negate, value_negate]
  cases a.negated <;> simp [M.neg_neg]

theorem Leaf.meaning_rename (f : Int → Int) (vars consts : Int → D) (a : Leaf) :
    (a.rename f).meaning M vars consts = a.meaning M (fun v => vars (f v)) consts := by
  unfold Leaf.rename
  by_cases h : a.isVariable
  · have h' : isVariable { a with value := f a.value } = true := h
    simp [Leaf.meaning, h, h', Leaf.negated]
  · simp [Leaf.meaning, h]

namespace Formula

variable {α β : Type}

/-- The value of a formula, given the values of its variables and its constants. -/
def value (vars consts : Int → D) : Formula α → D
  | leaf _ a => a.meaning M vars consts
  | node _ c l r => M.op c (l.value vars consts) (r.value vars consts)

variable (vars consts : Int → D)

@[simp] theorem value_map (f : α → β) (t : Formula α) :
    (t.map f).value M vars consts = t.value M vars consts := by
  induction t with
  | leaf s a => rfl
  | node s c l r ihl ihr => simp [map, value, ihl, ihr]

@[simp] theorem value_shape (t : Formula α) :
    t.shape.value M vars consts = t.value M vars consts :=
  value_map M vars consts _ t

@[simp] theorem value_place (t : Formula α) :
    t.place.value M vars consts = t.value M vars consts := by
  rw [← value_shape, shape_place, value_shape]

theorem value_negate {t : Formula α} (h : t.Within .lettered) :
    t.negate.value M vars consts = M.neg (t.value M vars consts) := by
  induction t with
  | leaf s a => exact a.meaning_negate M vars consts h
  | node s c l r ihl ihr =>
      obtain ⟨-, hl, hr⟩ := h
      cases c with
      | implication => simp only [negate, value, ihr hr, M.neg_implication]
      | disjunction => simp only [negate, value, ihl hl, ihr hr, M.neg_disjunction]
      | conjunction => simp only [negate, value, ihr hr, M.neg_conjunction]
      | xor => simp only [negate, value, M.neg_xor]
      | equivalence => simp only [negate, value, M.neg_equivalence]

theorem value_signed {t : Formula α} (h : t.Within .lettered) (b : Bool) :
    (t.signed b).value M vars consts = M.signed b (t.value M vars consts) := by
  cases b with
  | false => rfl
  | true => exact t.value_negate M vars consts h

theorem value_rename (f : Int → Int) (t : Formula α) :
    (t.rename f).value M vars consts = t.value M (fun v => vars (f v)) consts := by
  induction t with
  | leaf s a => exact a.meaning_rename M f vars consts
  | node s c l r ihl ihr => exact congrArg₂ (M.op c) ihl ihr

variable {vars consts}

/-- Only the variables of a formula count for its value. -/
theorem value_congr {vars' : Int → D} {t : Formula α} (h : ∀ v ∈ t.vars, vars v = vars' v) :
    t.value M vars consts = t.value M vars' consts := by
  induction t with
  | leaf s a =>
      by_cases hv : a.isVariable
      · have hm : a.value ∈ (leaf s a).vars := by simp [Leaf.varNumber?, hv]
        simp [value, Leaf.meaning, hv, h _ hm]
      · simp [value, Leaf.meaning, hv]
  | node s c l r ihl ihr =>
      rw [value, value, ihl fun v hv => h v (by simp [hv]), ihr fun v hv => h v (by simp [hv])]

variable (vars consts)

/-- Freezing lets the variables take the values of the constants with the same numbers. -/
theorem value_freeze (t : Formula α) : t.freeze.value M vars consts = t.value M consts consts := by
  induction t with
  | leaf s a =>
      change a.freeze.meaning M vars consts = a.meaning M consts consts
      unfold Leaf.freeze
      by_cases h : a.isVariable
      · have hk : a.kind = .var := by simpa [Leaf.isVariable] using h
        simp [Leaf.meaning, Leaf.isVariable, Leaf.negated, hk]
      · simp [Leaf.meaning, h]
  | node s c l r ihl ihr => exact congrArg₂ (M.op c) ihl ihr

theorem value_standardizeSigned {t : Formula α} (h : t.Within .lettered) (b : Bool) :
    (t.standardizeSigned b).value M vars consts = M.signed b (t.value M vars consts) := by
  induction t generalizing b with
  | leaf s a =>
      cases b with
      | false => rfl
      | true => exact a.meaning_negate M vars consts h
  | node s c l r ihl ihr =>
      obtain ⟨-, hl, hr⟩ := h
      have hl := ihl hl
      have hr := ihr hr
      cases b with
      | false => cases c <;> simp [standardizeSigned, value, hl, hr, M.disjunction_eq]
      | true =>
          cases c <;> simp [standardizeSigned, value, hl, hr, M.neg_implication,
            M.neg_disjunction, M.neg_conjunction, M.neg_xor, M.neg_equivalence]

/-- Writing disjunctions as implications keeps the value. -/
theorem value_standardize {t : Formula α} (h : t.Within .lettered) :
    t.standardize.value M vars consts = t.value M vars consts :=
  t.value_standardizeSigned M vars consts h false

end Formula

end value

/-! ### Truth -/

/-- Formulas as truth values. -/
def Meaning.truth : Meaning Bool where
  neg := not
  op := Connective.truth
  neg_neg x := by cases x <;> rfl
  neg_implication x y := by cases x <;> cases y <;> rfl
  neg_disjunction x y := by cases x <;> cases y <;> rfl
  neg_xor x y := by cases x <;> cases y <;> rfl

namespace Formula

variable {α : Type}

/-- The truth value of a formula under an assignment of its letters. -/
def eval (vars consts : Int → Bool) (t : Formula α) : Bool :=
  t.value .truth vars consts

/-- A schema holds if it is true for all values of its variables. -/
def Holds (consts : Int → Bool) (t : Formula α) : Prop :=
  ∀ vars, t.eval vars consts = true

def Tautology (t : Formula α) : Prop :=
  ∀ consts, t.Holds consts

@[simp] theorem eval_leaf (vars consts : Int → Bool) (s : α) (a : Leaf) :
    (leaf s a).eval vars consts =
      (a.negated != if a.isVariable then vars a.value else consts a.value) := by
  unfold eval value Leaf.meaning
  cases a.negated <;> simp [Meaning.truth]

@[simp] theorem eval_node (vars consts : Int → Bool) (s : α) (c : Connective)
    (l r : Formula α) :
    (node s c l r).eval vars consts = c.truth (l.eval vars consts) (r.eval vars consts) := rfl

@[simp] theorem eval_place (vars consts : Int → Bool) (t : Formula α) :
    t.place.eval vars consts = t.eval vars consts :=
  value_place ..

end Formula

/-! ### Standard formulas -/

/-- A letter whose operation is its sign. -/
def Leaf.Regular (a : Leaf) : Prop :=
  a.kind ≠ .unknown ∧ (a.op = .nop ∨ a.op = .negation)

namespace Leaf

theorem regular_negate {a : Leaf} (h : a.Regular) : a.negate.Regular := by
  refine ⟨Fragment.lettered.leaf_negate a h.1, ?_⟩
  obtain ⟨hk, ho⟩ := h
  unfold negate
  cases hk' : a.kind with
  | unknown => exact absurd hk' hk
  | const => cases a.negated <;> simp
  | var => cases a.negated <;> simp

theorem negate_negate {a : Leaf} (h : a.Regular) : a.negate.negate = a := by
  obtain ⟨k, op, v⟩ := a
  obtain ⟨hk, ho⟩ := h
  cases k with
  | unknown => rfl
  | const => obtain rfl | rfl := ho <;> rfl
  | var => obtain rfl | rfl := ho <;> rfl

end Leaf

/-- The formulas without disjunctions whose leaves are regular. -/
def Fragment.standard : Fragment where
  leaf := Leaf.Regular
  op c := c ≠ .disjunction
  leaf_var v := ⟨by simp [Leaf.var], .inl rfl⟩
  leaf_negate _ h := Leaf.regular_negate h
  leaf_rename f a h := by unfold Leaf.rename; split <;> exact h
  op_opposite c _ := by cases c <;> simp [Connective.opposite]

theorem Fragment.standard_le : Fragment.standard ≤ .lettered :=
  ⟨fun _ h => h.1, fun _ _ => trivial⟩

namespace Formula

variable {α : Type}

/-- Negation is its own inverse on standard formulas. A disjunction negated twice is an
implication. -/
theorem negate_negate {t : Formula α} (h : t.Within .standard) : t.negate.negate = t := by
  induction t with
  | leaf s a => exact congrArg (leaf s) (Leaf.negate_negate h)
  | node s c l r ihl ihr =>
      obtain ⟨hc, hl, hr⟩ := h
      cases c with
      | implication => simp only [negate, ihr hr]
      | disjunction => exact absurd rfl hc
      | conjunction => simp only [negate, ihr hr]
      | xor => rfl
      | equivalence => rfl

end Formula

abbrev StandardShape := { t : Shape // t.Within .standard }

namespace StandardShape

def var (v : Int) : StandardShape :=
  ⟨.leaf () (.var v), Fragment.standard.leaf_var v⟩

def const (c : Int) : StandardShape :=
  ⟨.leaf () (.const c), by simp [Leaf.const], .inl rfl⟩

def neg (x : StandardShape) : StandardShape :=
  ⟨x.1.negate, x.2.negate⟩

def join (c : Connective) (h : c ≠ .disjunction) (x y : StandardShape) : StandardShape :=
  ⟨.node () c x.1 y.1, h, x.2, y.2⟩

/-- A disjunction stands for the implication it is written as. -/
def op : Connective → StandardShape → StandardShape → StandardShape
  | .implication, x, y => join .implication (by simp) x y
  | .disjunction, x, y => join .implication (by simp) x.neg y
  | .conjunction, x, y => join .conjunction (by simp) x y
  | .xor, x, y => join .xor (by simp) x y
  | .equivalence, x, y => join .equivalence (by simp) x y

end StandardShape

/-- Formulas as standard formulas. -/
def Meaning.shapes : Meaning StandardShape where
  neg := StandardShape.neg
  op := StandardShape.op
  neg_neg x := Subtype.ext (Formula.negate_negate x.2)
  neg_implication _ _ := rfl
  neg_disjunction _ _ := rfl
  neg_xor _ _ := rfl

namespace Formula

variable {α : Type}

/-- With the letters standing for themselves, a standard formula is its own value. -/
theorem value_shapes {t : Formula α} (h : t.Within .standard) :
    (t.value .shapes StandardShape.var StandardShape.const).1 = t.shape := by
  induction t with
  | leaf s a =>
      obtain ⟨k, op, v⟩ := a
      obtain ⟨hk, ho⟩ := h
      cases k with
      | unknown => exact absurd rfl hk
      | const => obtain rfl | rfl := ho <;> rfl
      | var => obtain rfl | rfl := ho <;> rfl
  | node s c l r ihl ihr =>
      obtain ⟨hc, hl, hr⟩ := h
      have hl := ihl hl
      have hr := ihr hr
      rw [value, shape_node, ← hl, ← hr]
      cases c with
      | disjunction => exact absurd rfl hc
      | _ => rfl

end Formula

end Detachment

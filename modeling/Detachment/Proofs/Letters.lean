import Detachment.Formula.Placement
import Mathlib.Order.Defs.PartialOrder
import Mathlib.Tactic.Common

/-!
# Letters and fragments

What the operations on formulas do to the letters of a formula, and the parts of the language that
they do not leave. A `Fragment` says which leaves and which connectives may be used. It is closed
under everything that modus ponens does: negation, renaming of variables and replacement.
-/
namespace Detachment

namespace Leaf

@[simp] theorem varNumber?_var (v : Int) : (var v).varNumber? = some v := rfl

@[simp] theorem isVariable_negate (a : Leaf) : a.negate.isVariable = a.isVariable := by
  unfold negate isVariable
  cases h : a.kind <;> simp [h]

@[simp] theorem value_negate (a : Leaf) : a.negate.value = a.value := by
  unfold negate
  cases h : a.kind <;> simp

@[simp] theorem varNumber?_negate (a : Leaf) : a.negate.varNumber? = a.varNumber? := by
  simp [varNumber?]

theorem varNumber?_eq_some {a : Leaf} {v : Int} :
    a.varNumber? = some v ↔ a.isVariable = true ∧ a.value = v := by
  unfold varNumber?
  cases a.isVariable <;> simp

theorem isVariable_of_kind {a : Leaf} (h : a.kind = .var) : a.isVariable = true := by
  simp [isVariable, h]

theorem varNumber?_of_kind {a : Leaf} (h : a.kind = .var) : a.varNumber? = some a.value :=
  varNumber?_eq_some.mpr ⟨isVariable_of_kind h, rfl⟩

theorem varNumber?_rename (f : Int → Int) (a : Leaf) :
    (a.rename f).varNumber? = a.varNumber?.map f := by
  unfold varNumber? rename
  by_cases h : a.isVariable
  · have h' : isVariable { a with value := f a.value } = true := h
    simp [h, h']
  · simp [h]

end Leaf

namespace Formula

variable {α β : Type}

@[simp] theorem vars_leaf (s : α) (a : Leaf) : (leaf s a).vars = a.varNumber?.toList := by
  unfold vars leaves
  cases h : a.varNumber? <;> simp [h]

@[simp] theorem vars_node (s : α) (c : Connective) (l r : Formula α) :
    (node s c l r).vars = l.vars ++ r.vars := by
  simp [vars, leaves]

@[simp] theorem vars_map (f : α → β) (t : Formula α) : (t.map f).vars = t.vars := by
  induction t with
  | leaf s a => simp [map]
  | node s c l r ihl ihr => simp [map, ihl, ihr]

@[simp] theorem vars_negate (t : Formula α) : t.negate.vars = t.vars := by
  induction t with
  | leaf s a => simp [negate]
  | node s c l r ihl ihr => cases c <;> simp [negate, ihl, ihr]

@[simp] theorem vars_signed (b : Bool) (t : Formula α) : (t.signed b).vars = t.vars := by
  cases b <;> simp [signed]

theorem vars_rename (f : Int → Int) (t : Formula α) : (t.rename f).vars = t.vars.map f := by
  induction t with
  | leaf s a =>
      change (leaf s (a.rename f)).vars = _
      rw [vars_leaf, vars_leaf, Leaf.varNumber?_rename]
      cases a.varNumber? <;> rfl
  | node s c l r ihl ihr =>
      change (node s c (l.rename f) (r.rename f)).vars = _
      simp [ihl, ihr]

theorem mem_vars_rename {f : Int → Int} {t : Formula α} {v : Int} :
    v ∈ (t.rename f).vars ↔ ∃ u ∈ t.vars, f u = v := by
  rw [vars_rename, List.mem_map]

@[simp] theorem shape_placeFrom (n : Nat) (t : Formula α) : (t.placeFrom n).shape = t.shape := by
  induction t generalizing n with
  | leaf s a => rfl
  | node s c l r ihl ihr => simp only [shape] at ihl ihr; simp [shape, placeFrom, map, ihl, ihr]

@[simp] theorem shape_place (t : Formula α) : t.place.shape = t.shape := by
  rw [place_eq, shape_placeFrom]

@[simp] theorem shape_leaf (s : α) (a : Leaf) : (leaf s a).shape = leaf () a := rfl

@[simp] theorem shape_node (s : α) (c : Connective) (l r : Formula α) :
    (node s c l r).shape = node () c l.shape r.shape := rfl

@[simp] theorem shape_map (f : α → β) (t : Formula α) : (t.map f).shape = t.shape := by
  induction t with
  | leaf s a => rfl
  | node s c l r ihl ihr => rw [map, shape_node, shape_node, ihl, ihr]

@[simp] theorem shape_bare (t : Shape) : t.shape = t := by
  induction t with
  | leaf s a => rfl
  | node s c l r ihl ihr => rw [shape_node, ihl, ihr]

theorem shape_negate (t : Formula α) : t.negate.shape = t.shape.negate := by
  induction t with
  | leaf s a => rfl
  | node s c l r ihl ihr => cases c <;> simp [negate, ihl, ihr]

theorem shape_signed (b : Bool) (t : Formula α) : (t.signed b).shape = t.shape.signed b := by
  cases b with
  | false => rfl
  | true => exact t.shape_negate

@[simp] theorem vars_shape (t : Formula α) : t.shape.vars = t.vars :=
  vars_map _ t

@[simp] theorem vars_place (t : Formula α) : t.place.vars = t.vars := by
  rw [← vars_shape, shape_place, vars_shape]

theorem placeFrom_shape (n : Nat) (t : Formula α) : t.shape.placeFrom n = t.placeFrom n := by
  induction t generalizing n with
  | leaf s a => rfl
  | node s c l r ihl ihr =>
      have hs : l.shape.size = l.size := size_map _ l
      simp [placeFrom, ihl, ihr, hs]

/-- A canonical placement depends on the shape only. -/
theorem place_congr {t : Formula α} {t' : Formula β} (h : t.shape = t'.shape) :
    t.place = t'.place := by
  rw [place_eq, place_eq, ← placeFrom_shape, h, placeFrom_shape]

end Formula

/-- A part of the language that is closed under negation and under changes of the variables. -/
structure Fragment where
  leaf : Leaf → Prop
  op : Connective → Prop
  leaf_var : ∀ v, leaf (.var v)
  leaf_negate : ∀ a, leaf a → leaf a.negate
  leaf_rename : ∀ f a, leaf a → leaf (a.rename f)
  op_opposite : ∀ c, op c → op c.opposite

/-- The whole language. -/
def Fragment.full : Fragment where
  leaf _ := True
  op _ := True
  leaf_var _ := trivial
  leaf_negate _ _ := trivial
  leaf_rename _ _ _ := trivial
  op_opposite _ _ := trivial

instance : Preorder Fragment where
  le F G := (∀ a, F.leaf a → G.leaf a) ∧ ∀ c, F.op c → G.op c
  le_refl _ := ⟨fun _ h => h, fun _ h => h⟩
  le_trans _ _ _ h h' := ⟨fun a ha => h'.1 a (h.1 a ha), fun c hc => h'.2 c (h.2 c hc)⟩

namespace Formula

variable {α β : Type}

/-- The formula uses the leaves and the connectives of the fragment only. -/
def Within (F : Fragment) : Formula α → Prop
  | leaf _ a => F.leaf a
  | node _ c l r => F.op c ∧ l.Within F ∧ r.Within F

variable {F G : Fragment}

theorem Within.leaf_of_mem {t : Formula α} (h : t.Within F) : ∀ p ∈ t.leaves, F.leaf p.2 := by
  induction t with
  | leaf s a => simpa [leaves, Within] using h
  | node s c l r ihl ihr =>
      intro p hp
      obtain hp | hp := List.mem_append.mp hp
      · exact ihl h.2.1 p hp
      · exact ihr h.2.2 p hp

theorem within_of_leaves {t : Formula α} (hop : ∀ c, F.op c) (h : ∀ p ∈ t.leaves, F.leaf p.2) :
    t.Within F := by
  induction t with
  | leaf s a => exact h (s, a) (by simp [leaves])
  | node s c l r ihl ihr =>
      exact ⟨hop c, ihl fun p hp => h p (List.mem_append_left _ hp),
        ihr fun p hp => h p (List.mem_append_right _ hp)⟩

theorem within_full (t : Formula α) : t.Within .full :=
  within_of_leaves (fun _ => trivial) fun _ _ => trivial

theorem Within.mono {t : Formula α} (h : t.Within F) (hFG : F ≤ G) : t.Within G := by
  induction t with
  | leaf s a => exact hFG.1 a h
  | node s c l r ihl ihr => exact ⟨hFG.2 c h.1, ihl h.2.1, ihr h.2.2⟩

@[simp] theorem within_map (f : α → β) (t : Formula α) : (t.map f).Within F ↔ t.Within F := by
  induction t with
  | leaf s a => rfl
  | node s c l r ihl ihr => simp [map, Within, ihl, ihr]

@[simp] theorem within_shape (t : Formula α) : t.shape.Within F ↔ t.Within F :=
  within_map _ t

@[simp] theorem within_place (t : Formula α) : t.place.Within F ↔ t.Within F := by
  rw [← within_shape, shape_place, within_shape]

theorem Within.negate {t : Formula α} (h : t.Within F) : t.negate.Within F := by
  induction t with
  | leaf s a => exact F.leaf_negate a h
  | node s c l r ihl ihr =>
      obtain ⟨hc, hl, hr⟩ := h
      have ho := F.op_opposite c hc
      cases c with
      | implication => exact ⟨ho, hl, ihr hr⟩
      | disjunction => exact ⟨ho, ihl hl, ihr hr⟩
      | conjunction => exact ⟨ho, hl, ihr hr⟩
      | xor => exact ⟨ho, hl, hr⟩
      | equivalence => exact ⟨ho, hl, hr⟩

theorem Within.signed {t : Formula α} (h : t.Within F) (b : Bool) : (t.signed b).Within F := by
  cases b with
  | false => exact h
  | true => exact h.negate

theorem Within.rename {t : Formula α} (h : t.Within F) (f : Int → Int) :
    (t.rename f).Within F := by
  induction t with
  | leaf s a => exact F.leaf_rename f a h
  | node s c l r ihl ihr => exact ⟨h.1, ihl h.2.1, ihr h.2.2⟩

theorem Within.normalize {t : Formula α} (h : t.Within F) : t.normalize.Within F :=
  h.rename _

/-- Shifting the variables is renumbering them, or nothing if there are none. -/
theorem shiftVariablesBy_preserves {P : Formula α → Prop} {t : Formula α}
    (hrename : ∀ f, P (t.rename f)) (h : P t) (fit : Int → Int) (bound : Int) :
    P (t.shiftVariablesBy fit bound) := by
  unfold shiftVariablesBy
  cases t.minVariable? with
  | none => exact h
  | some m => exact hrename _

theorem Within.shiftVariablesBy {t : Formula α} (h : t.Within F) (fit : Int → Int) (bound : Int) :
    (t.shiftVariablesBy fit bound).Within F :=
  shiftVariablesBy_preserves h.rename h fit bound

theorem Within.shiftVariables {t : Formula α} (h : t.Within F) (bound : Int) :
    (t.shiftVariables bound).Within F :=
  h.shiftVariablesBy id bound

theorem Within.bindLeaves {t : Formula α} (h : t.Within F) {f : α → Leaf → Formula α}
    (hf : ∀ s a, F.leaf a → (f s a).Within F) : (t.bindLeaves f).Within F := by
  induction t with
  | leaf s a => exact hf s a h
  | node s c l r ihl ihr => exact ⟨h.1, ihl h.2.1, ihr h.2.2⟩

theorem Within.replace {t w : Formula Nat} (h : t.Within F) (hw : w.Within F) (v : Int) :
    (t.replace v w).Within F := by
  refine h.bindLeaves fun s a ha => ?_
  dsimp only
  split
  · rw [within_map]
    exact hw.signed _
  · exact ha

end Formula

end Detachment

import Detachment.Formula.Rendering
import Detachment.Proofs.Letters

/-!
# What the text of a formula tells

The text of a formula does not show in which slots it is stored, nor that a constant has a negative
number, nor that the operation of a leaf is a connective. The `outline` of a formula is what remains
if all this is forgotten.
-/
namespace Detachment

namespace Leaf

/-- The sign is all that counts of the operation, and the amount of the number of a constant. -/
def tidy (a : Leaf) : Leaf :=
  match a.kind with
  | .unknown => ⟨.unknown, .nop, 0⟩
  | .const => ⟨.const, if a.negated then .negation else .nop, a.value.natAbs⟩
  | .var => ⟨.var, if a.negated then .negation else .nop, a.value⟩

@[simp] theorem kind_tidy (a : Leaf) : a.tidy.kind = a.kind := by
  unfold tidy
  split <;> simp_all

@[simp] theorem isVariable_tidy (a : Leaf) : a.tidy.isVariable = a.isVariable := by
  simp [isVariable]

@[simp] theorem varNumber?_tidy (a : Leaf) : a.tidy.varNumber? = a.varNumber? := by
  unfold varNumber?
  rw [isVariable_tidy]
  split
  · rename_i h
    have hk : a.kind = .var := by simpa [isVariable] using h
    simp [tidy, hk]
  · rfl

theorem negated_tidy {a : Leaf} (h : a.kind ≠ .unknown) : a.tidy.negated = a.negated := by
  unfold tidy
  cases hk : a.kind with
  | unknown => exact absurd hk h
  | const => cases hn : a.negated <;> simp [negated]
  | var => cases hn : a.negated <;> simp [negated]

theorem kind_eq_of_tidy {a b : Leaf} (h : a.tidy = b.tidy) : a.kind = b.kind := by
  rw [← a.kind_tidy, h, b.kind_tidy]

theorem varNumber?_eq_of_tidy {a b : Leaf} (h : a.tidy = b.tidy) :
    a.varNumber? = b.varNumber? := by
  rw [← a.varNumber?_tidy, h, b.varNumber?_tidy]

theorem value_eq_of_tidy {a b : Leaf} (ha : a.kind = .var) (h : a.tidy = b.tidy) :
    a.value = b.value := by
  have hb := (varNumber?_eq_of_tidy h).symm.trans (varNumber?_of_kind ha)
  exact (varNumber?_eq_some.mp hb).2.symm

theorem negated_eq_of_tidy {a b : Leaf} (h : a.tidy = b.tidy) (ha : a.kind ≠ .unknown) :
    a.negated = b.negated := by
  have hb : b.kind ≠ .unknown := kind_eq_of_tidy h ▸ ha
  rw [← negated_tidy ha, h, negated_tidy hb]

theorem tidy_negate (a : Leaf) : a.negate.tidy = a.tidy.negate := by
  cases hk : a.kind with
  | unknown => simp [negate, tidy, hk]
  | const => cases hn : a.negated <;> simp_all [negate, tidy, negated]
  | var => cases hn : a.negated <;> simp_all [negate, tidy, negated]

theorem tidy_rename (f : Int → Int) (a : Leaf) : (a.rename f).tidy = a.tidy.rename f := by
  unfold rename
  rw [isVariable_tidy]
  split
  · rename_i h
    have hk : a.kind = .var := by simpa [isVariable] using h
    simp [tidy, hk, negated]
  · rfl

theorem text_of_unknown {a : Leaf} (h : a.kind = .unknown) : a.text = "?" := by
  simp [text, label, Label.text, h, LeafKind.toKind]

theorem text_of_known {a : Leaf} (h : a.kind ≠ .unknown) :
    a.text = (if a.negated then "!" else "") ++ letter a.value (a.kind = .const) := by
  cases hk : a.kind with
  | unknown => exact absurd hk h
  | const =>
      simp only [text, label, Label.text, hk, LeafKind.toKind, Label.isNegated, negated,
        decide_true]
      rfl
  | var =>
      simp only [text, label, Label.text, hk, LeafKind.toKind, Label.isNegated, negated,
        reduceCtorEq, decide_false]
      rfl

theorem natAbs_tidy {a : Leaf} (h : a.kind ≠ .unknown) :
    a.tidy.value.natAbs = a.value.natAbs := by
  unfold tidy
  cases hk : a.kind with
  | unknown => exact absurd hk h
  | const => exact Int.natAbs_natCast _
  | var => rfl

@[simp] theorem text_tidy (a : Leaf) : a.tidy.text = a.text := by
  by_cases h : a.kind = .unknown
  · rw [text_of_unknown h, text_of_unknown (a.kind_tidy.trans h)]
  · have h' : a.tidy.kind ≠ .unknown := a.kind_tidy.symm ▸ h
    have hletter (upper : Bool) : letter a.tidy.value upper = letter a.value upper := by
      simp only [letter, natAbs_tidy h]
    rw [text_of_known h', text_of_known h, negated_tidy h, kind_tidy, hletter]

end Leaf

/-- The formulas whose leaves are as their texts say. -/
def Fragment.legible : Fragment where
  leaf a := a.kind = .unknown ∨ a.tidy = a
  op _ := True
  leaf_var _ := .inr rfl
  leaf_negate a h := by
    refine h.imp (fun hk => ?_) fun ht => ?_
    · simp [Leaf.negate, hk]
    · rw [Leaf.tidy_negate, ht]
  leaf_rename f a h := by
    refine h.imp (fun hk => ?_) fun ht => ?_
    · simp [Leaf.rename, Leaf.isVariable, hk]
    · rw [Leaf.tidy_rename, ht]
  op_opposite _ _ := trivial

/-- Two legible letters whose outlines are those of one leaf are equal. -/
theorem Leaf.eq_of_tidy {a b : Leaf} (ha : Fragment.legible.leaf a) (hb : Fragment.legible.leaf b)
    (hk : a.kind ≠ .unknown) (hab : a.tidy = b.tidy) : a = b := by
  have hk' : b.kind ≠ .unknown := Leaf.kind_eq_of_tidy hab ▸ hk
  rw [← ha.resolve_left hk, ← hb.resolve_left hk', hab]

namespace Formula

variable {α β : Type}

/-- What the text of the formula tells. -/
def outline (t : Formula α) : Shape :=
  (t.mapLeaves Leaf.tidy).shape

@[simp] theorem outline_leaf (s : α) (a : Leaf) : (leaf s a).outline = leaf () a.tidy := rfl

@[simp] theorem outline_node (s : α) (c : Connective) (l r : Formula α) :
    (node s c l r).outline = node () c l.outline r.outline := rfl

@[simp] theorem outline_map (f : α → β) (t : Formula α) : (t.map f).outline = t.outline := by
  induction t with
  | leaf s a => rfl
  | node s c l r ihl ihr => simp [map, ihl, ihr]

@[simp] theorem outline_place (t : Formula α) : t.place.outline = t.outline := by
  rw [← outline_map (fun _ => ()) t.place, ← outline_map (fun _ => ()) t]
  exact congrArg outline (shape_place t)

@[simp] theorem vars_outline (t : Formula α) : t.outline.vars = t.vars := by
  induction t with
  | leaf s a => simp
  | node s c l r ihl ihr => simp [ihl, ihr]

theorem outline_rename (f : Int → Int) (t : Formula α) :
    (t.rename f).outline = t.outline.rename f := by
  induction t with
  | leaf s a => exact congrArg (leaf ()) (a.tidy_rename f)
  | node s c l r ihl ihr => exact congrArg₂ (node () c) ihl ihr

theorem innerText_outline (t : Formula α) : t.outline.innerText = t.innerText := by
  induction t with
  | leaf s a => simp [innerText_leaf]
  | node s c l r ihl ihr => simp [innerText_node, ihl, ihr]

/-- The outline tells the text. -/
theorem text_outline (t : Formula α) : t.outline.text = t.text := by
  cases t with
  | leaf s a => simp [text]
  | node s c l r => simp [text_node, innerText_outline]

theorem vars_eq_of_outline {t : Formula α} {t' : Formula β} (h : t.outline = t'.outline) :
    t.vars = t'.vars := by
  rw [← t.vars_outline, h, t'.vars_outline]

theorem maxVariable_eq_of_outline {t : Formula α} {t' : Formula β} (h : t.outline = t'.outline) :
    t.maxVariable = t'.maxVariable := by
  unfold maxVariable
  rw [vars_eq_of_outline h]

theorem exists_node_of_outline {i : α} {c : Connective} {l r t : Formula α}
    (h : (node i c l r).outline = t.outline) :
    ∃ j l' r', t = .node j c l' r' ∧ l.outline = l'.outline ∧ r.outline = r'.outline := by
  cases t with
  | leaf j b => cases h
  | node j c' l' r' =>
      obtain ⟨-, rfl, hl, hr⟩ := node.inj h
      exact ⟨j, l', r', rfl, hl, hr⟩

theorem outline_shiftVariables (bound : Int) {t : Formula α} {t' : Formula β}
    (h : t.outline = t'.outline) :
    (t.shiftVariables bound).outline = (t'.shiftVariables bound).outline := by
  unfold shiftVariables shiftVariablesBy minVariable?
  rw [vars_eq_of_outline h]
  cases t'.vars.min? with
  | none => exact h
  | some m =>
      dsimp only
      rw [outline_rename, outline_rename, h]

theorem outline_normalize {t : Formula α} {t' : Formula β} (h : t.outline = t'.outline) :
    t.normalize.outline = t'.normalize.outline := by
  unfold normalize variableOrder
  rw [vars_eq_of_outline h, outline_rename, outline_rename, h]

end Formula

end Detachment

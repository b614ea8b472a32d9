import Detachment.Proofs.Saturation

/-!
# Texts as keys

A search knows its conclusions by their texts, and so do the journal and the replay of a proof. This
does no harm: formulas whose letters are numbered from one on have the same text only if they are
the same up to their slots, and no text is that of a blank sheet or contains a blank.
-/
namespace Detachment

open Text

namespace Formula

variable {α β : Type}

theorem pos_of_leaves {t : Formula α} (h : ∀ p ∈ t.leaves, 1 ≤ p.2.value) {v : Int}
    (hv : v ∈ t.vars) : 0 < v := by
  obtain ⟨p, hp, hnumber⟩ := mem_vars.mp hv
  obtain ⟨-, rfl⟩ := Leaf.varNumber?_eq_some.mp hnumber
  have := h p hp
  omega

theorem within_numbered {t : Formula α} (ht : t.Within .regular)
    (h : ∀ p ∈ t.leaves, 1 ≤ p.2.value) : t.Within .numbered := by
  refine within_of_leaves (fun _ => trivial) fun p hp => ⟨ht.leaf_of_mem p hp, fun _ => ?_⟩
  have := h p hp
  omega

/-- Slots do not show in the text. -/
theorem text_congr {t : Formula α} {t' : Formula β} (h : t.shape = t'.shape) :
    t.text = t'.text := by
  have houtline : t.outline = t'.outline := by
    rw [← outline_map (fun _ => ()) t, ← outline_map (fun _ => ()) t']
    exact congrArg outline h
  rw [← text_outline, houtline, text_outline]

/-- After the first character of a letter there are digits only. -/
theorem letter_ne_empty (v : Int) (upper : Bool) : letter v upper ≠ "empty" := by
  intro h
  have hlist : (letter v upper).toList = ['e', 'm', 'p', 't', 'y'] := congrArg String.toList h
  cases hv : v.natAbs with
  | zero =>
      rw [letter_of_zero hv] at hlist
      cases hlist
  | succ n =>
      rw [letter_of_pos hv, String.toList_append, String.toList_singleton] at hlist
      have htail : (cycleText (n / 26)).toList = ['m', 'p', 't', 'y'] := (List.cons.inj hlist).2
      have hdigit : 'm'.isDigit = true := isDigit_cycleText (by rw [htail]; simp)
      exact absurd hdigit (by decide)

/-- No formula has the text of a blank sheet, which holds neither a sign nor a connective. -/
theorem text_ne_empty (t : Formula α) : t.text ≠ "empty" := by
  intro h
  cases t with
  | leaf s a =>
      change a.text = "empty" at h
      by_cases hk : a.kind = .unknown
      · rw [Leaf.text_of_unknown hk] at h
        exact absurd h (by decide)
      · rw [Leaf.text_of_known hk] at h
        cases hn : a.negated with
        | false => exact letter_ne_empty _ _ (by simpa [hn] using h)
        | true =>
            have hlist := congrArg String.toList h
            rw [hn, String.toList_append] at hlist
            cases (List.cons.inj hlist).1
  | node s c l r =>
      have hlist := congrArg String.toList h
      rw [toList_text_node] at hlist
      have hsymbol : ∀ x ∈ c.symbol.toList, x ∈ "empty".toList := by
        intro x hx
        rw [← hlist]
        simp [hx]
      cases c <;> simp [Connective.symbol] at hsymbol

end Formula

/-- The text of a formula is a faithful key. Two formulas whose letters are numbered from one on,
wherever their nodes are stored, have the same text exactly if they are the same formula, and the
text is neither that of a blank sheet nor does it contain a blank. -/
theorem text_identifies_formula {f g : Formula Nat} (hf : f.Within .regular)
    (hg : g.Within .regular) (hfpos : ∀ p ∈ f.leaves, 1 ≤ p.2.value)
    (hgpos : ∀ p ∈ g.leaves, 1 ≤ p.2.value) :
    (f.text = g.text ↔ f.shape = g.shape) ∧ f.text ≠ "empty" ∧
      ∀ c ∈ f.text.toList, isBlank c = false := by
  refine ⟨⟨fun h => ?_, Formula.text_congr⟩, f.text_ne_empty, fun c => ?_⟩
  · exact Formula.shape_eq_of_text_eq (Formula.within_numbered hf hfpos)
      (Formula.within_numbered hg hgpos) (fun _ => Formula.pos_of_leaves hfpos)
      (fun _ => Formula.pos_of_leaves hgpos) h
  · exact (Formula.visible_text f).isBlank_eq_false

/-- `a1>!B` with its nodes in order. -/
def inOrder : Formula Nat :=
  .node 0 .implication (.leaf 1 (.var 27)) (.leaf 2 (Leaf.const 2).negate)

/-- `a1>!B` with its right part stored before its left one. -/
def outOfOrder : Formula Nat :=
  .node 0 .implication (.leaf 2 (.var 27)) (.leaf 1 (Leaf.const 2).negate)

theorem text_identifies_outOfOrder :
    inOrder ≠ outOfOrder ∧ inOrder.text = "a1>!B" ∧ outOfOrder.text = "a1>!B" ∧
      inOrder.shape = outOfOrder.shape ∧ inOrder.text ≠ "empty" ∧
        ∀ c ∈ inOrder.text.toList, isBlank c = false := by
  have hregular (i j : Nat) : Formula.Within .regular
      (.node 0 .implication (.leaf i (.var 27)) (.leaf j (Leaf.const 2).negate)) :=
    ⟨trivial, Fragment.regular.leaf_var 27, Leaf.regular_negate ⟨nofun, .inl rfl⟩⟩
  have htext : inOrder.text = "a1>!B" := by decide
  have htext' : outOfOrder.text = "a1>!B" := by decide
  obtain ⟨hiff, hne, hblank⟩ := text_identifies_formula (f := inOrder) (g := outOfOrder)
    (hregular 1 2) (hregular 2 1) (by decide) (by decide)
  exact ⟨by decide, htext, htext', hiff.mp (htext.trans htext'.symm), hne, hblank⟩

end Detachment

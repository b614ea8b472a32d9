import Detachment.Proofs.Tables

/-!
# Putting formulas in the place of variables

Replacing a variable puts a formula in the place of each leaf that holds it, negated where the leaf
is negated, and looks at none of the leaves that come in. Every copy reuses the slot of its leaf and
appends the others. If no value of a substitution mentions a bound variable, replacing the bound
variables one after the other is the same as replacing them all at once.
-/
namespace Detachment

namespace Formula

variable {t w : Formula Nat}

theorem length_slotsOf (v : Int) (t : Formula Nat) : (t.slotsOf v).length = t.vars.count v := by
  unfold slotsOf vars
  induction t.leaves with
  | nil => rfl
  | cons p ps ih =>
      cases hp : p.2.varNumber? with
      | none => simpa [hp] using ih
      | some u =>
          by_cases hu : u = v <;> simpa [hp, hu] using ih

/-- Each leaf that is replaced makes room for one slot of the formula that comes in. -/
theorem WellPlaced.size_replace (ht : t.WellPlaced) (hw : w.WellPlaced) (v : Int) :
    (t.replace v w).size = t.size + t.vars.count v * (w.size - 1) := by
  have hlength := (slots_replace_perm ht hw v).length_eq
  rwa [length_slots, List.length_range, length_slotsOf] at hlength

end Formula

/-- Substitution is simultaneous. Let the values of a substitution be well-formed formulas that
mention no bound variable. Applied to a formula, stored in any way, it puts the value of every bound
variable in the place of the leaves that hold it, negated where the leaf is negated, all at once,
and leaves everything else as it is. Replacing a single variable does the same for this variable
alone, also if the formula put in mentions it. It counts the leaves replaced, and each of them adds
the slots of the formula put in except for one. -/
theorem substitution_simultaneous {s : Substitution}
    (hs : ∀ v y, s.lookup v = some y →
      ∃ w, y = some w ∧ w.WellFormed ∧ ∀ u ∈ w.vars, s.lookup u = none)
    {x : Sheet} (hx : ∀ t, x = some t → t.WellFormed) :
    Option.Rel (fun t t' => t'.WellFormed ∧ t'.shape = t.substitute s.shapes) x (x.map s.apply) ∧
    ∀ (v : Int) (w : Formula Nat), w.WellFormed →
      Option.Rel (fun t t' => t'.WellFormed ∧
          t'.shape = t.substitute (fun u => if u = v then some w.shape else none) ∧
          t'.size = t.size + t.vars.count v * (w.size - 1))
        x (x.replace v (some w)).1 ∧
      (x.replace v (some w)).2 = x.elim 0 fun t => t.vars.count v := by
  have hvalue (v : Int) (w : Formula Nat) (hv : s.value? v = some w) :
      w.WellFormed ∧ ∀ u ∈ w.vars, s.value? u = none := by
    obtain ⟨w', hw', hwell, hfree⟩ := hs v (some w) (Substitution.value?_eq_some.mp hv)
    obtain rfl := Option.some.inj hw'
    exact ⟨hwell, fun u hu => by rw [Substitution.value?, hfree u hu, Option.join_none]⟩
  cases x with
  | none => exact ⟨.none, fun v w _ => ⟨.none, rfl⟩⟩
  | some t =>
      have ht := hx t rfl
      have hsolved : s.Solved := fun v w hv => (hvalue v w hv).2
      refine ⟨.some ⟨?_, Substitution.shape_apply hsolved t⟩, fun v w hw => ?_⟩
      · exact hereditary_wellFormed.apply (fun v w hv => (hvalue v w hv).1) ht
      · refine ⟨.some ⟨?_, t.shape_replace w v, ht.1.size_replace hw.1 v⟩, t.length_slotsOf v⟩
        exact ⟨ht.1.replace hw.1 v, ht.2.replace hw.2 v⟩

/-- `a>(!a>b)` with its right operand stored before its left one. -/
def bothSigns : Formula Nat :=
  .node 0 .implication (.leaf 2 (.var 1))
    (.node 1 .implication (.leaf 4 ⟨.var, .negation, 1⟩) (.leaf 3 (.var 2)))

/-- `c>d` for `a` and `!c` for `b`. -/
def twoBindings : Substitution :=
  [(1, some (Formula.join .implication (.leaf 0 (.var 3)) (.leaf 0 (.var 4)))),
    (2, some (.leaf 0 ⟨.var, .negation, 3⟩))]

/-- `a>d`, which mentions a variable that it is put in the place of. -/
def selfMention : Formula Nat :=
  Formula.join .implication (.leaf 0 (.var 1)) (.leaf 0 (.var 4))

/-- Both variables at once, and one of them by a formula that mentions it. -/
theorem substitution_simultaneous_signs :
    bothSigns.place ≠ bothSigns ∧
    (bothSigns.substitute twoBindings.shapes).text = "(c>d)>((c*!d)>!c)" ∧
    Option.Rel (fun t t' => t'.WellFormed ∧ t'.shape = t.substitute twoBindings.shapes)
      (some bothSigns) (some (twoBindings.apply bothSigns)) ∧
    (bothSigns.replace 1 selfMention).text = "(a>d)>((a*!d)>b)" ∧
    Option.Rel (fun t t' => t'.WellFormed ∧
        t'.shape = t.substitute (fun u => if u = 1 then some selfMention.shape else none) ∧
        t'.size = t.size + t.vars.count 1 * (selfMention.size - 1))
      (some bothSigns) (Sheet.replace (some bothSigns) 1 (some selfMention)).1 ∧
    (Sheet.replace (some bothSigns) 1 (some selfMention)).2 = 2 := by
  have hbound (v : Int) (y : Sheet) (hv : twoBindings.lookup v = some y) :
      ∃ w, y = some w ∧ w.WellFormed ∧ ∀ u ∈ w.vars, twoBindings.lookup u = none := by
    have hmem := Substitution.mem_of_lookup hv
    simp only [twoBindings, List.mem_cons, Prod.mk.injEq, List.not_mem_nil, or_false] at hmem
    obtain ⟨-, rfl⟩ | ⟨-, rfl⟩ := hmem
    · exact ⟨_, rfl, (Obtained.join .implication (.var 3) (.var 4)).wellFormed rfl, by decide⟩
    · exact ⟨_, rfl, ((Obtained.var 3).negate 0).wellFormed rfl, by decide⟩
  have hwell : bothSigns.WellFormed :=
    ⟨⟨rfl, by decide⟩, trivial, Fragment.regular.leaf_var 1, trivial,
      Leaf.regular_negate (Fragment.regular.leaf_var 1), Fragment.regular.leaf_var 2⟩
  have hself : selfMention.WellFormed :=
    (Obtained.join .implication (.var 1) (.var 4)).wellFormed rfl
  obtain ⟨happly, hreplace⟩ := substitution_simultaneous hbound (x := some bothSigns)
    fun t ht => Option.some.inj ht ▸ hwell
  obtain ⟨hrel, hcount⟩ := hreplace 1 selfMention hself
  exact ⟨by decide, by decide, happly, by decide, hrel, hcount⟩

end Detachment

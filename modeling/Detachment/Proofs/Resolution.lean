import Detachment.Proofs.Unification

/-!
# Resolving a variable

The value of a bound variable may be a variable again, and so on. As long as these variables do not
form a loop, following them comes to a value that is no bound variable. A negated variable on the
way negates what it stands for, so in the end it matters only whether the number of negated ones is
odd: the last value is negated once or not at all. A unifier leaves nothing to follow, and resolving
a variable is applying the unifier to it.
-/
namespace Detachment

/-- Whether an odd number of the leaves is negated. -/
def oddlyNegated (hops : List Leaf) : Bool :=
  hops.countP Leaf.negated % 2 == 1

theorem oddlyNegated_cons (a : Leaf) (hops : List Leaf) :
    oddlyNegated (a :: hops) = (a.negated ^^ oddlyNegated hops) := by
  unfold oddlyNegated
  rw [List.countP_cons]
  cases a.negated with
  | false => simp
  | true =>
      obtain h | h := Nat.mod_two_eq_zero_or_one (hops.countP Leaf.negated)
      · simp [Nat.add_mod, h]
      · simp [Nat.add_mod, h]

/-- A leaf with another sign is a leaf with the same number. Signs add up if they are the only
operations that leaves carry. -/
theorem Formula.exists_signed_leaf {i : Nat} {a : Leaf} {x : Bool} (ha : x = true → a.Regular) :
    ∃ a', (Formula.leaf i a).signed x = .leaf i a' ∧ a'.varNumber? = a.varNumber? ∧
      a'.negated = (x ^^ a.negated) := by
  cases x with
  | false => exact ⟨a, rfl, rfl, by simp⟩
  | true =>
      refine ⟨a.negate, rfl, a.varNumber?_negate, ?_⟩
      obtain ⟨k, op, v⟩ := a
      obtain ⟨hk, ho⟩ := ha rfl
      cases k with
      | unknown => exact absurd rfl hk
      | const => obtain rfl | rfl := ho <;> rfl
      | var => obtain rfl | rfl := ho <;> rfl

namespace Substitution

variable {s : Substitution} {a : Leaf} {hops hops' : List Leaf} {v : Int} {w w' : Formula Nat}

/-- The way from the variable `a` through the bindings: the variables that are followed, and the
value of the last of them, which is no bound variable. -/
inductive Trail (s : Substitution) : Leaf → List Leaf → Formula Nat → Prop where
  | last {a : Leaf} {v : Int} {w : Formula Nat} (hv : a.varNumber? = some v)
      (hw : s.value? v = some w) (hloose : s.Loose w) : Trail s a [a] w
  | hop {a b : Leaf} {v : Int} {i : Nat} {hops : List Leaf} {w : Formula Nat}
      (hv : a.varNumber? = some v) (hb : s.value? v = some (.leaf i b)) (h : Trail s b hops w) :
      Trail s a (a :: hops) w

theorem Trail.exists_value (h : s.Trail a hops w) :
    ∃ v w₀, a.varNumber? = some v ∧ s.value? v = some w₀ := by
  cases h with
  | last hv hw _ => exact ⟨_, _, hv, hw⟩
  | hop hv hb _ => exact ⟨_, _, hv, hb⟩

theorem Trail.not_loose (h : s.Trail a hops w) (i : Nat) : ¬s.Loose (.leaf i a) := by
  obtain ⟨v, w₀, hv, hw₀⟩ := h.exists_value
  intro hloose
  rw [hloose v hv] at hw₀
  cases hw₀

/-- There is one way on from each variable. -/
theorem Trail.unique (h : s.Trail a hops w) (h' : s.Trail a hops' w') : hops = hops' ∧ w = w' := by
  induction h generalizing hops' with
  | last hv hw hloose =>
      cases h' with
      | last hv' hw' _ =>
          obtain rfl := Option.some.inj (hv.symm.trans hv')
          exact ⟨rfl, Option.some.inj (hw.symm.trans hw')⟩
      | hop hv' hb h' =>
          obtain rfl := Option.some.inj (hv.symm.trans hv')
          obtain rfl := Option.some.inj (hw.symm.trans hb)
          exact absurd hloose (h'.not_loose _)
  | hop hv hb h ih =>
      cases h' with
      | last hv' hw' hloose =>
          obtain rfl := Option.some.inj (hv.symm.trans hv')
          obtain rfl := Option.some.inj (hb.symm.trans hw')
          exact absurd hloose (h.not_loose _)
      | hop hv' hb' h' =>
          obtain rfl := Option.some.inj (hv.symm.trans hv')
          obtain ⟨-, rfl⟩ := Formula.leaf.inj (Option.some.inj (hb.symm.trans hb'))
          obtain ⟨rfl, rfl⟩ := ih h'
          exact ⟨rfl, rfl⟩

theorem Trail.loose (h : s.Trail a hops w) : s.Loose w := by
  induction h with
  | last _ _ hloose => exact hloose
  | hop _ _ _ ih => exact ih

theorem loose_signed {t : Formula Nat} (x : Bool) : s.Loose (t.signed x) ↔ s.Loose t := by
  have hroot {t : Formula Nat} : s.Loose t ↔ ∀ v, t.rootVariable? = some v → s.value? v = none := by
    cases t with
    | leaf i a => rfl
    | node i c l r => simp [Loose, Formula.rootVariable?]
  rw [hroot, hroot, Formula.rootVariable?_signed]

theorem chase_leaf {i n : Nat} (hv : a.varNumber? = some v) (hw : s.value? v = some w) :
    s.chase (n + 1) (.leaf i a) = s.chase n (w.signed a.negated) := by
  rw [chase, hv, Option.bind_some, value?_eq_some.mp hw]

/-- Where a bound variable is followed to its end, it was followed along its way, and the sign of
the last value is that with which it began together with all signs on the way. -/
theorem exists_trail_of_chase (hfill : ∀ b ∈ s, b.2.isSome) (hs : s.Within .regular) {n i : Nat}
    {x : Bool} {t : Formula Nat} (ha : x = true → a.Regular) (hv : a.varNumber? = some v)
    (hw : s.value? v = some w) (h : s.chase n ((Formula.leaf i a).signed x) = some t)
    (hloose : s.Loose t) :
    ∃ hops w, s.Trail a hops w ∧ t = w.signed (x ^^ oddlyNegated hops) := by
  induction n generalizing a i v w x with
  | zero =>
      rw [chase, Option.some.injEq] at h
      rw [← h, loose_signed] at hloose
      rw [hloose v hv] at hw
      cases hw
  | succ n ih =>
      obtain ⟨a', ha', hnumber, hsign⟩ := Formula.exists_signed_leaf (i := i) ha
      rw [ha', chase_leaf (hnumber.trans hv) hw, hsign] at h
      by_cases hend : s.Loose w
      · rw [chase_of_loose hfill ((loose_signed _).mpr hend), Option.some.injEq] at h
        exact ⟨[a], w, .last hv hw hend, by rw [oddlyNegated_cons, ← h]; simp [oddlyNegated]⟩
      · -- The value is a bound variable, which is followed with the sign collected so far.
        cases w with
        | node j c l r => exact absurd trivial hend
        | leaf j b =>
            have hb : ∃ u w', b.varNumber? = some u ∧ s.value? u = some w' := by
              simpa only [Loose, not_forall, Option.ne_none_iff_exists', exists_prop,
                ← ne_eq, exists_and_left] using hend
            obtain ⟨u, w', hu, hw'⟩ := hb
            obtain ⟨hops, last, htrail, rfl⟩ := ih (fun _ => hs v _ hw) hu hw' h
            refine ⟨a :: hops, last, .hop hv hw htrail, ?_⟩
            rw [oddlyNegated_cons, Bool.xor_assoc]

/-- Resolving is following the variable, and one step more than there are bindings is allowed. -/
theorem resolve_eq_chase {y : Sheet} (hv : a.varNumber? = some v) (hy : s.lookup v = some y) :
    s.resolve a.label = some (s.chase (s.length + 1) (.leaf 0 a)) := by
  obtain ⟨hvar, rfl⟩ := Leaf.varNumber?_eq_some.mp hv
  have hlabel : a.label.isVariable = true := by
    have hkind : a.kind = .var := by simpa [Leaf.isVariable] using hvar
    simp [Label.isVariable, Leaf.label, hkind, LeafKind.toKind]
  have hvalue : s.lookup a.label.value = some y := hy
  rw [resolve, if_pos hlabel, hvalue, chase, hv, Option.bind_some, hy]
  cases y <;> rfl

theorem resolve_eq_none (ha : a.kind = .var) :
    s.resolve a.label = none ↔ s.lookup a.value = none := by
  cases hx : s.lookup a.value with
  | none => simp [resolve, Leaf.label, hx]
  | some y => simp [resolve_eq_chase (Leaf.varNumber?_of_kind ha) hx]

/-- If there are no loops, the steps that are allowed lead to the end of the way. -/
theorem Straight.exists_trail (hstraight : s.Straight) (hfill : ∀ b ∈ s, b.2.isSome)
    (hs : s.Within .regular) (hv : a.varNumber? = some v) (hw : s.value? v = some w) :
    ∃ hops w, s.Trail a hops w ∧
      s.resolve a.label = some (some (w.signed (oddlyNegated hops))) := by
  obtain ⟨t, ht, hloose⟩ := hstraight.exists_chase hfill (Nat.le_succ s.length) (.leaf 0 a)
  obtain ⟨hops, last, htrail, rfl⟩ :=
    exists_trail_of_chase (x := false) hfill hs (by simp) hv hw ht hloose
  rw [Bool.false_xor] at ht
  exact ⟨hops, last, htrail, by rw [resolve_eq_chase hv (value?_eq_some.mp hw), ht]⟩

theorem Straight.resolve_eq_some_iff (hstraight : s.Straight) (hfill : ∀ b ∈ s, b.2.isSome)
    (hs : s.Within .regular) (ha : a.kind = .var) {x : Sheet} :
    s.resolve a.label = some x ↔
      ∃ hops w, s.Trail a hops w ∧ x = some (w.signed (oddlyNegated hops)) := by
  have hv := Leaf.varNumber?_of_kind ha
  constructor
  · intro hx
    cases hw : s.value? a.value with
    | none =>
        rw [(resolve_eq_none ha).mpr (lookup_eq_none_of_filled hfill hw)] at hx
        cases hx
    | some w =>
        obtain ⟨hops, last, htrail, hresolve⟩ := hstraight.exists_trail hfill hs hv hw
        exact ⟨hops, last, htrail, Option.some.inj (hx.symm.trans hresolve)⟩
  · rintro ⟨hops, w, htrail, rfl⟩
    obtain ⟨v, w₀, hv', hw₀⟩ := htrail.exists_value
    obtain ⟨hops', w', htrail', hresolve⟩ := hstraight.exists_trail hfill hs hv' hw₀
    obtain ⟨rfl, rfl⟩ := htrail.unique htrail'
    exact hresolve

/-- If no value mentions a bound variable, there is nothing to follow beyond the first value. -/
theorem Solved.resolve_eq (hs : s.Solved) (hfill : ∀ b ∈ s, b.2.isSome)
    (hv : a.varNumber? = some v) (hw : s.value? v = some w) :
    s.resolve a.label = some (some (w.signed a.negated)) := by
  have hloose : s.Loose w := by
    cases w with
    | node i c l r => trivial
    | leaf i b => exact fun u hu => hs v _ hw u (by simp [hu])
  rw [resolve_eq_chase hv (value?_eq_some.mp hw), chase_leaf hv hw,
    chase_of_loose hfill ((loose_signed _).mpr hloose)]

theorem Solved.shape_apply_leaf (hs : s.Solved) (hv : a.varNumber? = some v)
    (hw : s.value? v = some w) (i : Nat) :
    (s.apply (.leaf i a)).shape = (w.signed a.negated).shape := by
  rw [shape_apply hs, Formula.substitute_leaf_of_some (w := w.shape), Formula.shape_signed]
  simp [hv, shapes, hw]

end Substitution

/-- Resolving a variable follows its way through the bindings. Let the values of a substitution be
formulas whose leaves are letters with a sign, and let no way through variables lead back to where
it was. Then exactly the unbound variables have no resolution. A bound one has the value of the last
variable on its way, negated if an odd number of variables on the way is negated, the first of them
included, and this is no bound variable. Under a unifier, the resolution of a variable is the same
formula as the unifier makes of it. -/
theorem resolution_follows_bindings {a : Leaf} (ha : a.kind = .var) :
    (∀ s : Substitution, (∀ v y, (v, y) ∈ s → ∃ w, y = some w ∧ w.Within .regular) →
      s.Straight →
        (s.resolve a.label = none ↔ s.lookup a.value = none) ∧
        (∀ x, s.resolve a.label = some x ↔
          ∃ hops w, s.Trail a hops w ∧ x = some (w.signed (oddlyNegated hops))) ∧
        ∀ t, s.resolve a.label = some (some t) → s.Loose t) ∧
    ∀ floor l r s, unifyAbove floor l r = .ok s → s.lookup a.value ≠ none →
      ∃ t, s.resolve a.label = some (some t) ∧ t.shape = (s.apply (.leaf 0 a)).shape := by
  constructor
  · intro s hs hstraight
    have hfill (b : Int × Sheet) (hb : b ∈ s) : b.2.isSome := by
      obtain ⟨w, hw, -⟩ := hs b.1 b.2 hb
      simp [hw]
    have hregular (v : Int) (w : Formula Nat) (hw : s.value? v = some w) : w.Within .regular := by
      obtain ⟨w', hw', hwithin⟩ := hs v (some w) (Substitution.mem_of_value? hw)
      exact Option.some.inj hw' ▸ hwithin
    have hiff {x : Sheet} := hstraight.resolve_eq_some_iff hfill hregular ha (x := x)
    refine ⟨Substitution.resolve_eq_none ha, fun x => hiff, fun t ht => ?_⟩
    obtain ⟨hops, w, htrail, heq⟩ := hiff.mp ht
    rw [Option.some.inj heq, Substitution.loose_signed]
    exact htrail.loose
  · intro floor l r s h hbound
    have hv := Leaf.varNumber?_of_kind ha
    obtain ⟨s₀, hexp⟩ := expanded_of_unifyBy h
    obtain ⟨y, hy⟩ := Option.ne_none_iff_exists'.mp hbound
    obtain ⟨w, rfl⟩ := Option.isSome_iff_exists.mp (hexp.filled _ (Substitution.mem_of_lookup hy))
    have hw := Substitution.value?_eq_some.mpr hy
    refine ⟨_, hexp.solved.resolve_eq hexp.filled hv hw, ?_⟩
    rw [hexp.solved.shape_apply_leaf hv hw]

/-- `!b` for `a`, `!c` for `b` and `d>e` for `c`. -/
def threeHops : Substitution :=
  [(1, some (.leaf 0 (Leaf.var 2).negate)), (2, some (.leaf 0 (Leaf.var 3).negate)),
    (3, some (Formula.join .implication (.leaf 0 (.var 4)) (.leaf 0 (.var 5))))]

/-- Every variable leads to a greater one. -/
theorem straight_threeHops : threeHops.Straight := by
  have hlt (v u : Int) (h : threeHops.Hops v u) : v < u := by
    obtain ⟨t, ht, hu⟩ := h
    have hmem := Substitution.mem_of_value? ht
    simp only [threeHops, List.mem_cons, Prod.mk.injEq, Option.some.injEq, List.not_mem_nil,
      or_false] at hmem
    obtain ⟨rfl, rfl⟩ | ⟨rfl, rfl⟩ | ⟨rfl, rfl⟩ := hmem
    · cases hu
      decide
    · cases hu
      decide
    · cases hu
  intro v hv
  have hless : Relation.TransGen (· < ·) v v := Relation.TransGen.mono hlt v v hv
  rw [Relation.transGen_eq_self] at hless
  exact lt_irrefl v hless

/-- From `!a` three negated variables are followed. Unified with `A>B`, it resolves to that. -/
theorem resolution_follows_threeHops :
    threeHops.Straight ∧
    threeHops.Trail (Leaf.var 1).negate
      [(Leaf.var 1).negate, (Leaf.var 2).negate, (Leaf.var 3).negate]
      (Formula.join .implication (.leaf 0 (.var 4)) (.leaf 0 (.var 5))) ∧
    (∃ t, threeHops.resolve (Leaf.var 1).negate.label = some (some t) ∧ t.text = "d*!e" ∧
      threeHops.Loose t) ∧
    ∃ s t, unifyAbove 0 negatedLeft
        (Formula.join .implication (.leaf 0 (.const 1)) (.leaf 0 (.const 2))) = .ok s ∧
      s.resolve (Leaf.var 1).negate.label = some (some t) ∧
      t.shape = (s.apply (.leaf 0 (Leaf.var 1).negate)).shape := by
  have hvalues (v : Int) (y : Sheet) (h : (v, y) ∈ threeHops) :
      ∃ w, y = some w ∧ w.Within .regular := by
    simp only [threeHops, List.mem_cons, Prod.mk.injEq, List.not_mem_nil, or_false] at h
    have hvar (v : Int) := Fragment.regular.leaf_var v
    obtain ⟨-, rfl⟩ | ⟨-, rfl⟩ | ⟨-, rfl⟩ := h
    · exact ⟨_, rfl, Leaf.regular_negate (hvar 2)⟩
    · exact ⟨_, rfl, Leaf.regular_negate (hvar 3)⟩
    · exact ⟨_, rfl, trivial, hvar 4, hvar 5⟩
  have htrail : threeHops.Trail (Leaf.var 1).negate
      [(Leaf.var 1).negate, (Leaf.var 2).negate, (Leaf.var 3).negate]
      (Formula.join .implication (.leaf 0 (.var 4)) (.leaf 0 (.var 5))) :=
    .hop rfl rfl (.hop rfl rfl (.last rfl rfl trivial))
  obtain ⟨hchain, hunifier⟩ := resolution_follows_bindings (a := (Leaf.var 1).negate) rfl
  obtain ⟨-, hiff, hloose⟩ := hchain threeHops hvalues straight_threeHops
  have hresolve := (hiff _).mpr ⟨_, _, htrail, rfl⟩
  refine ⟨straight_threeHops, htrail, ⟨_, hresolve, by decide, hloose _ hresolve⟩, ?_⟩
  have hbound : (unifyAbove 0 negatedLeft (Formula.join .implication (.leaf 0 (.const 1))
      (.leaf 0 (.const 2)))).toOption.any (fun s => (s.lookup 1).isSome) = true := by decide +kernel
  cases hs : unifyAbove 0 negatedLeft
      (Formula.join .implication (.leaf 0 (.const 1)) (.leaf 0 (.const 2))) with
  | error e =>
      rw [hs] at hbound
      cases hbound
  | ok s =>
      rw [hs] at hbound
      obtain ⟨t, hresolve, hshape⟩ := hunifier 0 _ _ s hs (Option.isSome_iff_ne_none.mp hbound)
      exact ⟨s, t, rfl, hresolve, hshape⟩

end Detachment

import Detachment.Proofs.Meaning
import Detachment.Substitution
import Mathlib.Data.List.Basic

/-!
# Replacement and substitution

`Substitution.apply` replaces one variable after the other. If no value mentions a bound variable,
the result is the same as that of replacing all of them at once: `Formula.substitute`. Its value is
that of the original formula with every replaced variable having the value of what is put in its
place.
-/
namespace Detachment

namespace Formula

variable {α β : Type} {σ τ : Int → Option Shape}

theorem mem_vars {t : Formula α} {u : Int} :
    u ∈ t.vars ↔ ∃ p ∈ t.leaves, p.2.varNumber? = some u := by
  simp [vars]

/-- Put formulas in the place of variables, all at once, each negated where the leaf is negated. A
variable stays if there is none for it. -/
def substitute (σ : Int → Option Shape) : Formula α → Shape
  | leaf _ a => (a.varNumber?.bind σ).elim (leaf () a) (signed a.negated)
  | node _ c l r => node () c (l.substitute σ) (r.substitute σ)

theorem substitute_leaf_of_some (s : α) {a : Leaf} {w : Shape}
    (h : a.varNumber?.bind σ = some w) : (leaf s a).substitute σ = w.signed a.negated := by
  simp [substitute, h]

theorem substitute_leaf_of_none (s : α) {a : Leaf} (h : a.varNumber?.bind σ = none) :
    (leaf s a).substitute σ = leaf () a := by
  simp [substitute, h]

@[simp] theorem substitute_map (f : α → β) (t : Formula α) :
    (t.map f).substitute σ = t.substitute σ := by
  induction t with
  | leaf s a => rfl
  | node s c l r ihl ihr => simp [map, substitute, ihl, ihr]

@[simp] theorem substitute_shape (t : Formula α) : t.shape.substitute σ = t.substitute σ :=
  substitute_map _ t

theorem substitute_congr {t : Formula α} (h : ∀ v ∈ t.vars, σ v = τ v) :
    t.substitute σ = t.substitute τ := by
  induction t with
  | leaf s a =>
      have hbind : a.varNumber?.bind σ = a.varNumber?.bind τ := by
        cases hv : a.varNumber? with
        | none => rfl
        | some v => exact h v (by simp [hv])
      simp [substitute, hbind]
  | node s c l r ihl ihr =>
      rw [substitute, substitute, ihl fun v hv => h v (by simp [hv]),
        ihr fun v hv => h v (by simp [hv])]

theorem substitute_of_none {t : Formula α} (h : ∀ v ∈ t.vars, σ v = none) :
    t.substitute σ = t.shape := by
  induction t with
  | leaf s a =>
      refine substitute_leaf_of_none s ?_
      cases hv : a.varNumber? with
      | none => rfl
      | some v => exact h v (by simp [hv])
  | node s c l r ihl ihr =>
      rw [substitute, shape_node, ihl fun v hv => h v (by simp [hv]),
        ihr fun v hv => h v (by simp [hv])]

/-- Two substitutions make up one if the second leaves alone what the first puts in. -/
theorem substitute_substitute (t : Formula α)
    (h : ∀ v w, σ v = some w → ∀ u ∈ w.vars, τ u = none) :
    (t.substitute σ).substitute τ = t.substitute fun v => (σ v).or (τ v) := by
  induction t with
  | leaf s a =>
      cases hv : a.varNumber? with
      | none => simp [substitute, hv]
      | some v =>
          cases hw : σ v with
          | none => simp [substitute, hv, hw]
          | some w =>
              have hkeep : (w.signed a.negated).substitute τ = (w.signed a.negated).shape :=
                substitute_of_none fun u hu => h v w hw u (by simpa using hu)
              rw [substitute_leaf_of_some s (by simpa [hv] using hw), hkeep, shape_bare,
                substitute_leaf_of_some s (w := w) (by simp [hv, hw])]
  | node s c l r ihl ihr => simp [substitute, ihl, ihr]

theorem mem_vars_substitute {t : Formula α} {u : Int} :
    u ∈ (t.substitute σ).vars ↔
      (u ∈ t.vars ∧ σ u = none) ∨ ∃ v ∈ t.vars, ∃ w, σ v = some w ∧ u ∈ w.vars := by
  induction t with
  | leaf s a =>
      cases hv : a.varNumber? with
      | none => simp [substitute, hv]
      | some v =>
          cases hw : σ v with
          | none =>
              rw [substitute_leaf_of_none s (by simpa [hv] using hw)]
              simp only [vars_leaf, hv, Option.toList_some, List.mem_singleton]
              constructor
              · rintro rfl
                exact .inl ⟨rfl, hw⟩
              · rintro (⟨hu, -⟩ | ⟨x, rfl, w, hx, -⟩)
                · exact hu
                · rw [hw] at hx
                  cases hx
          | some w =>
              rw [substitute_leaf_of_some s (by simpa [hv] using hw), vars_signed]
              simp only [vars_leaf, hv, Option.toList_some, List.mem_singleton]
              constructor
              · exact fun hu => .inr ⟨v, rfl, w, hw, hu⟩
              · rintro (⟨rfl, hu⟩ | ⟨x, rfl, w', hx, hu⟩)
                · rw [hw] at hu
                  cases hu
                · rw [hw] at hx
                  exact Option.some.inj hx ▸ hu
  | node s c l r ihl ihr =>
      rw [substitute, vars_node, List.mem_append, ihl, ihr]
      simp only [vars_node, List.mem_append, or_and_right, exists_or]
      exact or_or_or_comm

/-- What is put in the place of a variable lends it its value. -/
theorem value_substitute {D : Type} (M : Meaning D) {vars consts : Int → D}
    (hσ : ∀ v w, σ v = some w → w.Within .lettered) (t : Formula α) :
    (t.substitute σ).value M vars consts =
      t.value M (fun v => (σ v).elim (vars v) fun w => w.value M vars consts) consts := by
  induction t with
  | leaf s a =>
      cases hv : a.varNumber? with
      | none =>
          have hvar : a.isVariable = false := by simpa [Leaf.varNumber?] using hv
          rw [substitute_leaf_of_none s (by simp [hv])]
          simp [value, Leaf.meaning, hvar]
      | some v =>
          obtain ⟨hvar, rfl⟩ := Leaf.varNumber?_eq_some.mp hv
          cases hw : σ a.value with
          | none =>
              rw [substitute_leaf_of_none s (by simpa [hv] using hw)]
              simp [value, Leaf.meaning, hvar, hw]
          | some w =>
              rw [substitute_leaf_of_some s (by simpa [hv] using hw),
                value_signed M vars consts (hσ _ w hw)]
              simp [value, Leaf.meaning, hvar, hw]
  | node s c l r ihl ihr => exact congrArg₂ (M.op c) ihl ihr

theorem shape_replace (t w : Formula Nat) (v : Int) :
    (t.replace v w).shape = t.substitute fun u => if u = v then some w.shape else none := by
  have hbind {f : Nat → Leaf → Formula Nat} {σ : Int → Option Shape}
      (h : ∀ s a, (f s a).shape = (leaf s a).substitute σ) (t : Formula Nat) :
      (t.bindLeaves f).shape = t.substitute σ := by
    induction t with
    | leaf s a => exact h s a
    | node s c l r ihl ihr => rw [bindLeaves, shape_node, ihl, ihr, substitute]
  refine hbind (fun s a => ?_) t
  dsimp only
  split
  · rename_i h
    rw [substitute_leaf_of_some s (w := w.shape) (by simp [h]), shape_map, shape_signed]
  · rename_i h
    refine (substitute_leaf_of_none s ?_).symm
    cases hv : a.varNumber? with
    | none => rfl
    | some u =>
        have hne : u ≠ v := fun he => h (he ▸ hv)
        simp [hne]

end Formula

namespace Substitution

/-- Every value of the substitution lies in the fragment. -/
def Within (F : Fragment) (s : Substitution) : Prop :=
  ∀ v t, s.value? v = some t → t.Within F

/-- No value mentions a bound variable. -/
def Solved (s : Substitution) : Prop :=
  ∀ v t, s.value? v = some t → ∀ u ∈ t.vars, s.value? u = none

/-- The values of the variables after substitution: a bound variable has that of its formula. -/
def assign {D : Type} (M : Meaning D) (s : Substitution) (vars consts : Int → D) (v : Int) : D :=
  (s.value? v).elim (vars v) fun t => t.value M vars consts

theorem assign_of_some {D : Type} {M : Meaning D} {s : Substitution} {vars consts : Int → D}
    {v : Int} {t : Formula Nat} (h : s.value? v = some t) :
    s.assign M vars consts v = t.value M vars consts := by
  simp [assign, h]

/-- The values without their slots. -/
def shapes (s : Substitution) (v : Int) : Option Shape :=
  (s.value? v).map Formula.shape

theorem shapes_eq_none {s : Substitution} {v : Int} : s.shapes v = none ↔ s.value? v = none := by
  simp [shapes]

theorem mem_relevant {s : Substitution} {t : Formula Nat} {b : Int × Formula Nat} :
    b ∈ s.relevant t ↔ b.1 ∈ t.vars ∧ s.value? b.1 = some b.2 := by
  obtain ⟨v, w⟩ := b
  simp [relevant]

theorem within_foldl_replace {F : Fragment} {bs : List (Int × Formula Nat)} {t : Formula Nat}
    (ht : t.Within F) (hbs : ∀ b ∈ bs, b.2.Within F) :
    (bs.foldl (fun t b => t.replace b.1 b.2) t).Within F := by
  induction bs generalizing t with
  | nil => exact ht
  | cons b bs ih =>
      refine ih (ht.replace (hbs b (by simp)) b.1) fun b' hb' => hbs b' (by simp [hb'])

/-- Replacing one variable after the other is the same as replacing them all at once, provided that
none of the formulas put in mentions a replaced variable. -/
theorem shape_foldl_replace {bs : List (Int × Formula Nat)} (t : Formula Nat)
    (hfree : ∀ b ∈ bs, ∀ b' ∈ bs, b'.1 ∉ b.2.vars) :
    (bs.foldl (fun t b => t.replace b.1 b.2) t).shape =
      t.substitute fun v => (bs.lookup v).map Formula.shape := by
  induction bs generalizing t with
  | nil => exact (Formula.substitute_of_none fun _ _ => rfl).symm
  | cons b bs ih =>
      obtain ⟨k, x⟩ := b
      have hrest := ih (t.replace k x) fun y hy z hz => hfree y (by simp [hy]) z (by simp [hz])
      rw [List.foldl_cons, hrest, ← Formula.substitute_shape, Formula.shape_replace,
        Formula.substitute_substitute]
      · refine Formula.substitute_congr fun v _ => ?_
        rw [List.lookup_cons]
        by_cases hv : v = k
        · simp [hv]
        · simp [hv, beq_false_of_ne hv]
      · -- What is put in first mentions no variable that is replaced later.
        intro v w hw u hu
        obtain ⟨-, rfl⟩ : v = k ∧ x.shape = w := by simpa using hw
        have hnone : bs.lookup u = none := by
          refine List.lookup_eq_none_iff.mpr fun b hb => ?_
          have hne : u ≠ b.1 := by
            rintro rfl
            exact hfree (k, x) (by simp) b (by simp [hb]) (by simpa using hu)
          simpa using hne
        simp [hnone]

theorem apply_cases (s : Substitution) (t : Formula Nat) :
    (s.relevant t = [] ∧ s.apply t = t) ∨
      s.apply t = ((s.relevant t).foldl (fun t b => t.replace b.1 b.2) t).place := by
  unfold apply
  cases h : s.relevant t with
  | nil => exact .inl ⟨rfl, rfl⟩
  | cons b bs => exact .inr rfl

/-- Only the values of the variables of a formula matter to it. -/
theorem apply_congr {s s' : Substitution} {t : Formula Nat}
    (h : ∀ v ∈ t.vars, s.value? v = s'.value? v) : s.apply t = s'.apply t := by
  have hrelevant : s.relevant t = s'.relevant t :=
    List.filterMap_congr fun v hv => by rw [h v (by simpa using hv)]
  rw [apply, apply, hrelevant]

theorem within_apply {F : Fragment} {s : Substitution} {t : Formula Nat} (hs : s.Within F)
    (ht : t.Within F) : (s.apply t).Within F := by
  obtain ⟨-, h⟩ | h := s.apply_cases t
  · rwa [h]
  · rw [h, Formula.within_place]
    exact within_foldl_replace ht fun b hb => hs b.1 b.2 (mem_relevant.mp hb).2

theorem lookup_relevant (s : Substitution) {t : Formula Nat} {v : Int} (hv : v ∈ t.vars) :
    (s.relevant t).lookup v = s.value? v := by
  cases hw : s.value? v with
  | none =>
      refine List.lookup_eq_none_iff.mpr fun b hb => ?_
      have hne : v ≠ b.1 := by
        rintro rfl
        rw [(mem_relevant.mp hb).2] at hw
        cases hw
      simpa using hne
  | some w =>
      cases hx : (s.relevant t).lookup v with
      | none =>
          have hmem : (v, w) ∈ s.relevant t := mem_relevant.mpr ⟨hv, hw⟩
          simpa using List.lookup_eq_none_iff.mp hx _ hmem
      | some x =>
          obtain ⟨l₁, l₂, hsplit, -⟩ := List.lookup_eq_some_iff.mp hx
          have hmem : (v, x) ∈ s.relevant t := by simp [hsplit]
          rw [← hw]
          exact (mem_relevant.mp hmem).2.symm

/-- Substitution is simultaneous if no value mentions a bound variable. -/
theorem shape_apply {s : Substitution} (hsol : s.Solved) (t : Formula Nat) :
    (s.apply t).shape = t.substitute s.shapes := by
  have hfree : ∀ b ∈ s.relevant t, ∀ b' ∈ s.relevant t, b'.1 ∉ b.2.vars := by
    intro b hb b' hb' hmem
    have h := hsol b.1 b.2 (mem_relevant.mp hb).2 _ hmem
    rw [(mem_relevant.mp hb').2] at h
    cases h
  have hfold := shape_foldl_replace t hfree
  have hcongr : t.substitute (fun v => ((s.relevant t).lookup v).map Formula.shape) =
      t.substitute s.shapes :=
    Formula.substitute_congr fun v hv => by rw [s.lookup_relevant hv, shapes]
  obtain ⟨hnil, h⟩ | h := s.apply_cases t
  · rw [h, ← hcongr, ← hfold, hnil, List.foldl_nil]
  · rw [h, Formula.shape_place, hfold, hcongr]

/-- Substituting gives every bound variable the value of its formula. -/
theorem value_substitute_shapes {D : Type} (M : Meaning D) {vars consts : Int → D}
    {s : Substitution} (hs : s.Within .lettered) (t : Formula Nat) :
    (t.substitute s.shapes).value M vars consts = t.value M (s.assign M vars consts) consts := by
  have hlettered (v : Int) (w : Shape) (hw : s.shapes v = some w) : w.Within .lettered := by
    obtain ⟨x, hx, rfl⟩ := Option.map_eq_some_iff.mp hw
    exact (Formula.within_shape x).mpr (hs v x hx)
  rw [Formula.value_substitute M hlettered]
  refine Formula.value_congr M fun v _ => ?_
  cases hw : s.value? v with
  | none => simp [shapes, assign, hw]
  | some w => simp [shapes, assign, hw]

theorem value_apply {D : Type} (M : Meaning D) {vars consts : Int → D} {s : Substitution}
    (hs : s.Within .lettered) (hsol : s.Solved) (t : Formula Nat) :
    (s.apply t).value M vars consts = t.value M (s.assign M vars consts) consts := by
  rw [← Formula.value_shape, shape_apply hsol, value_substitute_shapes M hs]

/-- The variables that are left are unbound ones of `t` and those of the values put in. -/
theorem mem_vars_apply {s : Substitution} (hsol : s.Solved) {t : Formula Nat} {u : Int} :
    u ∈ (s.apply t).vars ↔
      (u ∈ t.vars ∧ s.value? u = none) ∨ ∃ v ∈ t.vars, ∃ w, s.value? v = some w ∧ u ∈ w.vars := by
  rw [← Formula.vars_shape, shape_apply hsol, Formula.mem_vars_substitute, shapes_eq_none]
  simp [shapes]

end Substitution

end Detachment

import Detachment.Proofs.Placement
import Detachment.Proofs.Unification

/-!
# What unification preserves

Unification takes formulas apart, negates them, substitutes in them and brings in fresh variables.
A property that survives all of this passes from the operands to every value of the unifier. Lying
in a fragment is such a property, and so is filling the slots without gaps.
-/
namespace Detachment

/-- A property that passes from the operands of unification to the values of the unifier. -/
structure Hereditary (P : Formula Nat → Prop) : Prop where
  var : ∀ v, P (.leaf 0 (.var v))
  negate : ∀ {t}, P t → P t.negate
  parts : ∀ {i c l r}, P (.node i c l r) → P l.place ∧ P r.place
  apply : ∀ {s : Substitution} {t}, (∀ v w, s.value? v = some w → P w) → P t → P (s.apply t)

namespace Hereditary

variable {P Q : Formula Nat → Prop}

theorem and (hP : Hereditary P) (hQ : Hereditary Q) : Hereditary fun t => P t ∧ Q t where
  var v := ⟨hP.var v, hQ.var v⟩
  negate h := ⟨hP.negate h.1, hQ.negate h.2⟩
  parts h := ⟨⟨(hP.parts h.1).1, (hQ.parts h.2).1⟩, (hP.parts h.1).2, (hQ.parts h.2).2⟩
  apply hs h := ⟨hP.apply (fun v w hw => (hs v w hw).1) h.1,
    hQ.apply (fun v w hw => (hs v w hw).2) h.2⟩

theorem signed (hP : Hereditary P) {t : Formula Nat} (h : P t) (b : Bool) : P (t.signed b) := by
  cases b with
  | false => exact h
  | true => exact hP.negate h

variable {s s' : Substitution}

theorem bind (hP : Hereditary P) (hs : ∀ v w, (v, some w) ∈ s → P w) {a : Leaf} {t : Formula Nat}
    (ht : P t) (h : s.bind a t = .ok s') : ∀ v w, (v, some w) ∈ s' → P w := by
  obtain ⟨-, rfl⟩ := Substitution.bind_eq_ok.mp h
  intro v w hw
  obtain hw | hw := List.mem_cons.mp hw
  · obtain ⟨-, rfl⟩ : v = a.value ∧ w = t.signed a.negated := by simpa using hw
    exact hP.signed ht _
  · exact hs v w (List.mem_filter.mp hw).1

theorem chase (hP : Hereditary P) (hs : ∀ v w, (v, some w) ∈ s → P w) {n : Nat}
    {t t' : Formula Nat} (ht : P t) (h : s.chase n t = some t') : P t' :=
  Substitution.chase_preserves
    (fun _ _ v w _ hw _ => hP.signed (hs v w (Substitution.mem_of_value? hw)) _) h ht

end Hereditary

namespace Unification

open State

/-- All bound values and all operands still to be unified have the property. -/
structure State.All (P : Formula Nat → Prop) (st : State) : Prop where
  bindings : ∀ v w, (v, some w) ∈ st.bindings → P w
  queue : ∀ p ∈ st.queue, P p.1 ∧ P p.2

variable {P : Formula Nat → Prop} {st st' : State} {l r : Formula Nat} {s s' : Substitution}

theorem State.All.meets (hP : Hereditary P) (hst : st.All P) (hl : P l) (hr : P r)
    (h : st.Meets l r st') : st'.All P := by
  cases h with
  | parts i j c l r l' r' =>
      refine ⟨hst.bindings, fun p hp => ?_⟩
      obtain hp | hp := List.mem_append.mp hp
      · exact hst.queue p hp
      · obtain rfl | rfl : p = (l.place, l'.place) ∨ p = (r.place, r'.place) := by simpa using hp
        · exact ⟨(hP.parts hl).1, (hP.parts hr).1⟩
        · exact ⟨(hP.parts hl).2, (hP.parts hr).2⟩
  | same i j ha => exact hst
  | left i ha ht h => exact ⟨hP.bind hst.bindings hr h, hst.queue⟩
  | right j hb ht h => exact ⟨hP.bind hst.bindings hl h, hst.queue⟩
  | fresh i j ha hb hne h h' =>
      exact ⟨hP.bind (hP.bind hst.bindings (hP.var _) h) (hP.var _) h', hst.queue⟩

theorem State.All.step (hP : Hereditary P) (hst : st.All P) (hl : P l) (hr : P r)
    (h : st.step l r = .ok st') : st'.All P := by
  rw [State.step] at h
  split at h
  · rename_i l' r' hl' hr'
    exact hst.meets hP (hP.chase hst.bindings hl hl') (hP.chase hst.bindings hr hr')
      (meets_of_meet h)
  · cases h

theorem State.All.refresh (hst : st.All P) (v : Int) : State.All P { st with fresh := v } :=
  ⟨hst.bindings, hst.queue⟩

theorem all_of_loopBy (hP : Hereditary P) {fit : Int → Int} {fuel : Nat} (hst : st.All P)
    (h : loopBy fit fuel st = some (.ok s)) : ∀ v w, (v, some w) ∈ s → P w := by
  induction fuel generalizing st with
  | zero => cases h
  | succ fuel ih =>
      obtain ⟨-, rfl⟩ | ⟨l, r, rest, st', hq, hstep, hloop⟩ := loopBy_cases h
      · exact hst.bindings
      · have hqueue := hst.queue
        rw [hq, List.forall_mem_cons] at hqueue
        have hrest : State.All P { st with queue := rest } := ⟨hst.bindings, hqueue.2⟩
        exact ih ((hrest.step hP hqueue.1.1 hqueue.1.2 hstep).refresh _) hloop

end Unification

namespace Hereditary

variable {P : Formula Nat → Prop} {s s' : Substitution}

theorem expandLoop (hP : Hereditary P) {fuel : Nat} {pending done : Substitution}
    (hpending : ∀ v w, (v, some w) ∈ pending → P w) (hdone : ∀ v w, (v, some w) ∈ done → P w)
    (h : Substitution.expandLoop fuel pending done = .ok s') : ∀ v w, (v, some w) ∈ s' → P w := by
  induction fuel generalizing pending done with
  | zero =>
      obtain ⟨-, rfl⟩ := Substitution.expandLoop_zero_eq_ok.mp h
      exact hdone
  | succ fuel ih =>
      have hfilter (u : Int) : ∀ v w, (v, some w) ∈ pending.filter (·.1 != u) → P w :=
        fun v w hw => hpending v w (List.mem_filter.mp hw).1
      obtain ⟨-, rfl⟩ | ⟨u, -, hloop⟩ | ⟨u, t, hfind, -, hloop⟩ :=
        Substitution.expandLoop_succ_eq_ok.mp h
      · exact hdone
      · exact ih (hfilter u) (fun v w hw => hdone v w (by simpa using hw)) hloop
      · refine ih (hfilter u) (fun v w hw => ?_) hloop
        obtain hw | hw := List.mem_cons.mp hw
        · obtain ⟨-, rfl⟩ : v = u ∧ w = done.apply t := by simpa using hw
          exact hP.apply (fun v w hw => hdone v w (Substitution.mem_of_value? hw))
            (hpending u t (List.mem_of_find?_eq_some hfind))
        · exact hdone v w hw

/-- What holds of both operands holds of every value of the unifier. -/
theorem unifyBy (hP : Hereditary P) {fit : Int → Int} {floor : Int} {l r : Formula Nat} (hl : P l)
    (hr : P r) (h : unifyBy fit floor l r = .ok s) : ∀ v w, (v, some w) ∈ s → P w := by
  obtain ⟨fuel, fresh, s₀, hloop, hexpand⟩ := exists_expand_of_unifyBy h
  obtain ⟨done, hdone, rfl⟩ := Substitution.expand_eq_ok.mp hexpand
  have hs₀ : ∀ v w, (v, some w) ∈ s₀ → P w :=
    Unification.all_of_loopBy hP ⟨by simp, by simpa using ⟨hl, hr⟩⟩ hloop
  intro v w hw
  exact hP.expandLoop hs₀ (by simp) hdone v w (done.sorted_perm.mem_iff.mp hw)

end Hereditary

theorem hereditary_within (F : Fragment) : Hereditary (Formula.Within F) where
  var := F.leaf_var
  negate h := h.negate
  parts h := ⟨(Formula.within_place _).mpr h.2.1, (Formula.within_place _).mpr h.2.2⟩
  apply hs h := Substitution.within_apply hs h

end Detachment

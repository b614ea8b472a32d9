import Detachment.Proofs.Progress
import Detachment.Proofs.Unification

/-!
# Unifiers in solved form

A unifier mentions none of the variables that it binds. All variables that it binds or mentions are
those of its operands or fresh ones, which lie above all of these and not below the floor. So
substituting a second time changes nothing.
-/
namespace Detachment

namespace Unification.State

variable {F : Fragment} {n : Nat} {pool : Finset Int} {st st' : State}

/-- The fresh variable goes up by no more than half the number of new bindings. -/
theorem Confined.fresh_meets {l r : Formula Nat} (h : st.Confined n pool) (hst : st.Proper F)
    (hl : l.Fits n pool) (hr : r.Fits n pool) (hloose : st.bindings.Loose l)
    (hloose' : st.bindings.Loose r) (hmeets : st.Meets l r st') :
    st.fresh ≤ st'.fresh ∧
      2 * (st'.fresh - st.fresh) ≤ (st'.bindings.length : Int) - st.bindings.length := by
  obtain ⟨hfresh, hlength, -⟩ | ⟨hfresh, hlength, -⟩ := h.meets hst hl hr hloose hloose' hmeets
  · omega
  · omega

/-- A turn adds at most the fresh variable to the pool. -/
theorem Turn.contained (hst : st.Proper F) (hc : st.Contained n pool) (h : st.Turn st') :
    ∃ pool', pool' ⊆ insert st.fresh pool ∧ st'.Contained n pool' ∧ st.fresh ≤ st'.fresh ∧
      2 * (st'.fresh - st.fresh) ≤ (st'.bindings.length : Int) - st.bindings.length := by
  obtain ⟨l, r, rest, hq, hstep⟩ := h
  obtain ⟨hhead, hrest⟩ := hst.pop hq
  obtain ⟨hfits, hcrest⟩ := hc.pop hq
  obtain ⟨l', r', hl', hr', -, -, hloose, hloose', hmeets⟩ :=
    step_cases hrest hhead.1 hhead.2 hstep
  have hl' := hc.bindings.chase hfits.1 hl'
  have hr' := hc.bindings.chase hfits.2 hr'
  obtain ⟨pool', -, hsub, hc'⟩ := hcrest.meets hrest hl' hr' hloose hloose' hmeets
  exact ⟨pool', hsub, hc', hcrest.toConfined.fresh_meets hrest hl' hr' hloose hloose' hmeets⟩

/-- A run adds only variables from the first fresh one on to the pool. -/
theorem Runs.contained {k : Nat} (hst : st.Proper F) (hc : st.Contained n pool)
    (h : st.Runs k st') :
    ∃ pool', (∀ v ∈ pool', v ∈ pool ∨ st.fresh ≤ v) ∧ st'.Contained n pool' ∧
      st.fresh ≤ st'.fresh ∧
        2 * (st'.fresh - st.fresh) ≤ (st'.bindings.length : Int) - st.bindings.length := by
  induction h with
  | start => exact ⟨pool, fun v hv => .inl hv, hc, Int.le_refl _, by omega⟩
  | turn hruns hturn ih =>
      obtain ⟨pool₁, hpool₁, hc₁, hle₁, hcount₁⟩ := ih
      obtain ⟨pool₂, hsub, hc₂, hle₂, hcount₂⟩ := hturn.contained (hruns.proper hst) hc₁
      refine ⟨pool₂, fun v hv => ?_, hc₂, hle₁.trans hle₂, by omega⟩
      obtain rfl | hv := Finset.mem_insert.mp (hsub hv)
      · exact .inr hle₁
      · exact hpool₁ v hv

end Unification.State

open Unification

namespace Substitution

variable {s : Substitution} {t : Formula Nat}

theorem apply_of_unbound (h : ∀ u ∈ t.vars, s.value? u = none) : s.apply t = t := by
  have hnil : s.relevant t = [] := by
    refine List.eq_nil_iff_forall_not_mem.mpr fun b hb => ?_
    obtain ⟨hmem, hvalue⟩ := mem_relevant.mp hb
    rw [h b.1 hmem] at hvalue
    cases hvalue
  rw [apply, hnil]

end Substitution

variable {floor : Int} {l r : Formula Nat}

end Detachment

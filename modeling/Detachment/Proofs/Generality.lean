import Detachment.Proofs.Termination
import Detachment.Proofs.Unification

/-!
# Unification is complete and most general

If some substitution makes two formulas without disjunctions equal, then unification succeeds, and
that substitution factors through its result.

The substitution is read as an assignment of formulas to variables that solves the first state of
the algorithm. A step cannot fail on a state that has a solution. It leaves a state that has one as
well, which differs from the old one at most in the value of a fresh variable. Whatever solves the
last state satisfies the bindings, and so the unifier to which they are expanded.
-/
namespace Detachment

/-! ### Simultaneous substitution -/

namespace Formula

variable {α : Type}

/-- Put a formula in the place of every variable at once, negated where the leaf is negated. -/
def instantiate (t : Int → Shape) : Formula α → Shape
  | leaf _ a => if a.isVariable then (t a.value).signed a.negated else leaf () a
  | node _ c l r => node () c (l.instantiate t) (r.instantiate t)

variable {vars : Int → StandardShape}

theorem value_shapes_node {s : α} {c : Connective} {l r : Formula α} (hc : c ≠ .disjunction)
    (consts : Int → StandardShape) :
    ((node s c l r).value .shapes vars consts).1 =
      node () c (l.value .shapes vars consts).1 (r.value .shapes vars consts).1 := by
  cases c with
  | disjunction => exact absurd rfl hc
  | _ => rfl

theorem value_shapes_leaf {s : α} {a : Leaf} (h : a.Regular) :
    ((leaf s a).value .shapes vars StandardShape.const).1 =
      (leaf s a).instantiate fun v => (vars v).1 := by
  obtain ⟨k, op, v⟩ := a
  obtain ⟨hk, ho⟩ := h
  cases k with
  | unknown => exact absurd rfl hk
  | const => obtain rfl | rfl := ho <;> rfl
  | var => obtain rfl | rfl := ho <;> rfl

theorem size_value_shapes (t : Formula α) :
    (t.value .shapes vars StandardShape.const).1.size = t.weight fun v => (vars v).1.size := by
  induction t with
  | leaf s a =>
      have hsigned (x : StandardShape) (b : Bool) :
          (Meaning.shapes.signed b x).1.size = x.1.size := by
        cases b with
        | false => rfl
        | true => exact size_negate _
      rw [weight_leaf, value, Leaf.meaning, hsigned]
      split <;> rfl
  | node s c l r ihl ihr =>
      rw [weight_node, ← ihl, ← ihr, value]
      cases c with
      | disjunction => exact congrArg (1 + · + _) (size_negate _)
      | _ => rfl

/-- No standard formula is its own negation. -/
theorem negate_ne {t : Formula α} (h : t.Within .standard) : t.negate ≠ t := by
  cases t with
  | leaf s a =>
      obtain ⟨k, op, v⟩ := a
      obtain ⟨hk, ho⟩ := h
      cases k with
      | unknown => exact absurd rfl hk
      | const => obtain rfl | rfl := ho <;> simp [negate, Leaf.negate, Leaf.negated]
      | var => obtain rfl | rfl := ho <;> simp [negate, Leaf.negate, Leaf.negated]
  | node s c l r => cases c <;> simp [negate]

end Formula

/-! ### Binding what has the same value -/

namespace Substitution

variable {s : Substitution} {v : Int} {t : Formula Nat}

variable {D : Type} {M : Meaning D} {vars consts : Int → D}

/-- A variable can be bound to a formula that has its value and does not lead back to it. -/
theorem Satisfied.exists_bind {a : Leaf} (hsat : s.Satisfied M vars consts)
    (hvar : a.isVariable) (ht : t.Within .lettered)
    (hno : ∀ u ∈ t.vars, ¬Relation.ReflTransGen s.Needs u a.value)
    (heq : a.meaning M vars consts = t.value M vars consts) :
    ∃ s', s.bind a t = .ok s' ∧ s'.Satisfied M vars consts := by
  refine ⟨_, bind_eq_ok.mpr ⟨reaches_eq_false (by simpa using hno), rfl⟩, fun v w hw => ?_⟩
  rw [value?_insert] at hw
  split at hw
  · rename_i hv
    obtain rfl := Option.some.inj hw
    rw [Formula.value_signed M vars consts ht, ← heq, hv]
    simp only [Leaf.meaning, hvar, if_true]
    cases a.negated <;> simp [M.neg_neg]
  · exact hsat v w hw

/-- The values of variables do not grow along the bindings. -/
theorem size_le_of_path {vars : Int → StandardShape}
    (hsat : s.Satisfied .shapes vars StandardShape.const) {u : Int}
    (h : Relation.ReflTransGen s.Needs u v) : (vars v).1.size ≤ (vars u).1.size := by
  induction h with
  | refl => exact Nat.le_refl _
  | @tail x y _ hneeds ih =>
      obtain ⟨t, ht, hy⟩ := hneeds
      have hx : (vars x).1.size = t.weight fun v => (vars v).1.size := by
        rw [hsat x t ht, Formula.size_value_shapes]
      have hle := Formula.le_weight_of_mem (σ := fun v => (vars v).1.size) hy
      exact (hx ▸ hle).trans ih

/-- A variable that has the value of a compound formula or a constant is not needed by it: the value
would be larger than itself. -/
theorem not_path_of_rigid {vars : Int → StandardShape} {a : Leaf}
    (hsat : s.Satisfied .shapes vars StandardShape.const) (hvar : a.isVariable) (ht : t.Rigid)
    (heq : a.meaning .shapes vars StandardShape.const = t.value .shapes vars StandardShape.const) :
    ∀ u ∈ t.vars, ¬Relation.ReflTransGen s.Needs u a.value := by
  intro u hu hpath
  have hsize : (vars a.value).1.size = t.weight fun v => (vars v).1.size := by
    have hleaf : ((Formula.leaf 0 a).weight fun v => (vars v).1.size) = (vars a.value).1.size := by
      rw [Formula.weight_leaf, if_pos hvar]
    rw [← hleaf, ← Formula.size_value_shapes, ← Formula.size_value_shapes, ← heq, Formula.value]
  have hpath := size_le_of_path hsat hpath
  cases t with
  | leaf i b =>
      have hb : b.kind = .const := ht
      simp [Leaf.varNumber?, Leaf.isVariable, hb] at hu
  | node i c l r =>
      rw [Formula.weight_node] at hsize
      rw [Formula.vars_node, List.mem_append] at hu
      have hparts : (vars u).1.size ≤ (l.weight fun v => (vars v).1.size) ∨
          (vars u).1.size ≤ r.weight fun v => (vars v).1.size :=
        hu.imp (Formula.le_weight_of_mem (σ := fun v => (vars v).1.size))
          (Formula.le_weight_of_mem (σ := fun v => (vars v).1.size))
      omega

end Substitution

/-! ### A state with a solution goes on -/

namespace Unification

namespace State

variable {n : Nat} {pool : Finset Int} {st : State} {l r : Formula Nat}
  {vars : Int → StandardShape}

theorem Solved.pop {rest : List (Formula Nat × Formula Nat)}
    (hsol : st.Solved .shapes vars StandardShape.const) (hq : st.queue = (l, r) :: rest) :
    l.value .shapes vars StandardShape.const = r.value .shapes vars StandardShape.const ∧
      State.Solved .shapes vars StandardShape.const { st with queue := rest } := by
  have hqueue := hsol.queue
  rw [hq, List.forall_mem_cons] at hqueue
  exact ⟨hqueue.1, hsol.bindings, hqueue.2⟩

/-- A solution stays one if a variable outside the pool takes another value. -/
theorem Solved.update (hsol : st.Solved .shapes vars StandardShape.const)
    (hc : st.Contained n pool) (x : StandardShape) :
    st.Solved .shapes (Function.update vars st.fresh x) StandardShape.const := by
  have hsame {t : Formula Nat} (ht : t.Fits n pool) :
      t.value .shapes (Function.update vars st.fresh x) StandardShape.const =
        t.value .shapes vars StandardShape.const := by
    refine Formula.value_congr _ fun v hv => Function.update_of_ne ?_ _ _
    have := hc.fresh v (ht.2 v hv)
    omega
  constructor
  · intro v t ht
    obtain ⟨hv, hfits⟩ := hc.bindings v t ht
    have := hc.fresh v hv
    rw [hsame hfits, ← hsol.bindings v t ht]
    exact Function.update_of_ne (by omega) _ _
  · intro p hp
    rw [hsame (hc.queue p hp).1, hsame (hc.queue p hp).2]
    exact hsol.queue p hp

/-- A variable and a compound formula or constant of the same value. -/
theorem exists_bind_rigid {a : Leaf} {t : Formula Nat}
    (hsol : st.Solved .shapes vars StandardShape.const) (ha : a.kind = .var)
    (ht : t.Within .standard) (hrigid : t.Rigid)
    (heq : a.meaning .shapes vars StandardShape.const = t.value .shapes vars StandardShape.const) :
    ∃ s, st.bindings.bind a t = .ok s ∧
      State.Solved .shapes vars StandardShape.const { st with bindings := s } := by
  have hvar := Leaf.isVariable_of_kind ha
  obtain ⟨s, hs, hsat⟩ := hsol.bindings.exists_bind hvar (ht.mono Fragment.standard_le)
    (Substitution.not_path_of_rigid hsol.bindings hvar hrigid heq) heq
  exact ⟨s, hs, hsat, hsol.queue⟩

/-- Two distinct variables of the same value, up to their signs. The fresh variable takes it. -/
theorem exists_bind_fresh {a b : Leaf} (hsol : st.Solved .shapes vars StandardShape.const)
    (hc : st.Contained n pool) (ha : a.kind = .var) (hb : b.kind = .var) (hapool : a.value ∈ pool)
    (hbpool : b.value ∈ pool)
    (heq : a.meaning .shapes vars StandardShape.const =
      b.meaning .shapes vars StandardShape.const) :
    ∃ s s' vars', st.bindings.bind a (.leaf 0 (.var st.fresh)) = .ok s ∧
      s.bind b (.leaf 0 (.var st.fresh)) = .ok s' ∧
      State.Solved .shapes vars' StandardShape.const
        { st with bindings := s', fresh := st.fresh + 1 } ∧
      ∀ v ∈ pool, vars' v = vars v := by
  let vars' := Function.update vars st.fresh (a.meaning .shapes vars StandardShape.const)
  have hsol' := hsol.update hc (a.meaning .shapes vars StandardShape.const)
  have hsame (v : Int) (hv : v ∈ pool) : vars' v = vars v := by
    have := hc.fresh v hv
    exact Function.update_of_ne (by omega) _ _
  have hfresh : (Formula.leaf 0 (Leaf.var st.fresh)).Within .lettered :=
    Fragment.lettered.leaf_var st.fresh
  have hvalue : (Formula.leaf 0 (Leaf.var st.fresh)).value .shapes vars' StandardShape.const =
      a.meaning .shapes vars StandardShape.const :=
    Function.update_self ..
  have hmeaning {c : Leaf} (hk : c.kind = .var) (hpool : c.value ∈ pool) :
      c.meaning .shapes vars' StandardShape.const = c.meaning .shapes vars StandardShape.const := by
    simp only [Leaf.meaning, Leaf.isVariable_of_kind hk, if_true, hsame _ hpool]
  -- The fresh variable is not bound, so nothing can be reached from it.
  have hstuck {s : Substitution} {c : Leaf} (hs : s.value? st.fresh = none)
      (hpool : c.value ∈ pool) : ∀ u ∈ (Formula.leaf 0 (Leaf.var st.fresh)).vars,
        ¬Relation.ReflTransGen s.Needs u c.value := by
    intro u hu hpath
    obtain rfl : u = st.fresh := by simpa [eq_comm] using hu
    have heq := Substitution.eq_of_path hs hpath
    have hlt := hc.fresh _ hpool
    omega
  obtain ⟨s, hs, hsat⟩ := hsol'.bindings.exists_bind (Leaf.isVariable_of_kind ha) hfresh
    (hstuck hc.value?_fresh hapool) ((hmeaning ha hapool).trans hvalue.symm)
  have hunbound' : s.value? st.fresh = none := by
    have := hc.fresh _ hapool
    rw [Substitution.value?_bind_of_ne hs (by omega), hc.value?_fresh]
  obtain ⟨s', hs', hsat'⟩ := hsat.exists_bind (Leaf.isVariable_of_kind hb) hfresh
    (hstuck hunbound' hbpool) ((hmeaning hb hbpool).trans (heq.symm.trans hvalue.symm))
  exact ⟨s, s', vars', hs, hs', ⟨hsat', hsol'.queue⟩, hsame⟩

/-- Two leaves of the same value that stand for the same constant or variable are equal. -/
theorem leaf_eq_of_value {i j : Nat} {a b : Leaf} (ha : a.Regular) (hb : b.Regular)
    (hkind : a.kind = b.kind) (hvalue : a.kind = .var → a.value = b.value)
    (heq : (Formula.leaf i a).value .shapes vars StandardShape.const =
      (Formula.leaf j b).value .shapes vars StandardShape.const) : a = b := by
  have heq := congrArg Subtype.val heq
  rw [Formula.value_shapes_leaf ha, Formula.value_shapes_leaf hb] at heq
  obtain ⟨k, op, v⟩ := a
  obtain ⟨k', op', v'⟩ := b
  obtain rfl : k = k' := hkind
  cases k with
  | unknown => exact absurd rfl ha.1
  | const => simpa [Formula.instantiate, Leaf.isVariable] using heq
  | var =>
      obtain rfl : v = v' := hvalue rfl
      obtain rfl | rfl := ha.2 <;> obtain rfl | rfl := hb.2
      · rfl
      · exact absurd heq.symm (Formula.negate_ne (vars v).2)
      · exact absurd heq (Formula.negate_ne (vars v).2)
      · rfl

/-- A constant has not the value of a compound formula. -/
theorem const_ne_node {i j : Nat} {a : Leaf} {c : Connective} {l r : Formula Nat}
    (ha : a.Regular) (hk : a.kind ≠ .var) (hc : c ≠ .disjunction) :
    (Formula.leaf i a).value .shapes vars StandardShape.const ≠
      (Formula.node j c l r).value .shapes vars StandardShape.const := by
  intro heq
  have heq := congrArg Subtype.val heq
  have hvar : a.isVariable = false := by simpa [Leaf.isVariable] using hk
  rw [Formula.value_shapes_leaf ha, Formula.value_shapes_node hc, Formula.instantiate, hvar] at heq
  cases heq

/-- Two formulas of the same value meet. -/
theorem exists_meets (hsol : st.Solved .shapes vars StandardShape.const) (hc : st.Contained n pool)
    (hl : l.Within .standard) (hr : r.Within .standard) (hlpool : l.Fits n pool)
    (hrpool : r.Fits n pool)
    (heq : l.value .shapes vars StandardShape.const = r.value .shapes vars StandardShape.const) :
    ∃ st' vars', st.Meets l r st' ∧ st'.Solved .shapes vars' StandardShape.const ∧
      ∀ v ∈ pool, vars' v = vars v := by
  cases l with
  | node i c l₁ l₂ =>
      cases r with
      | node j c' r₁ r₂ =>
          have hparts := congrArg Subtype.val heq
          rw [Formula.value_shapes_node hl.1, Formula.value_shapes_node hr.1] at hparts
          obtain ⟨-, rfl, hleft, hright⟩ := Formula.node.inj hparts
          refine ⟨_, vars, .parts i j c l₁ l₂ r₁ r₂, ⟨hsol.bindings, fun p hp => ?_⟩, by simp⟩
          obtain hp | hp := List.mem_append.mp hp
          · exact hsol.queue p hp
          · obtain rfl | rfl : p = (l₁.place, r₁.place) ∨ p = (l₂.place, r₂.place) := by
              simpa using hp
            · simpa using Subtype.ext hleft
            · simpa using Subtype.ext hright
      | leaf j b =>
          by_cases hb : b.kind = .var
          · obtain ⟨s, hs, hsol'⟩ := exists_bind_rigid hsol hb hl trivial heq.symm
            exact ⟨_, vars, .right j hb trivial hs, hsol', by simp⟩
          · exact absurd heq.symm (const_ne_node hr hb hl.1)
  | leaf i a =>
      cases r with
      | node j c r₁ r₂ =>
          by_cases ha : a.kind = .var
          · obtain ⟨s, hs, hsol'⟩ := exists_bind_rigid hsol ha hr trivial heq
            exact ⟨_, vars, .left i ha trivial hs, hsol', by simp⟩
          · exact absurd heq (const_ne_node hl ha hr.1)
      | leaf j b =>
          have hknown : a.kind ≠ .unknown ∧ b.kind ≠ .unknown := ⟨hl.1, hr.1⟩
          cases ha : a.kind with
          | unknown => exact absurd ha hknown.1
          | const =>
              cases hb : b.kind with
              | unknown => exact absurd hb hknown.2
              | const =>
                  obtain rfl := leaf_eq_of_value hl hr (ha.trans hb.symm) (by simp [ha]) heq
                  exact ⟨st, vars, .same i j hknown.1, hsol, by simp⟩
              | var =>
                  obtain ⟨s, hs, hsol'⟩ := exists_bind_rigid hsol hb hl ha heq.symm
                  exact ⟨_, vars, .right j hb ha hs, hsol', by simp⟩
          | var =>
              cases hb : b.kind with
              | unknown => exact absurd hb hknown.2
              | const =>
                  obtain ⟨s, hs, hsol'⟩ := exists_bind_rigid hsol ha hr hb heq
                  exact ⟨_, vars, .left i ha hb hs, hsol', by simp⟩
              | var =>
                  by_cases hv : a.value = b.value
                  · obtain rfl := leaf_eq_of_value hl hr (ha.trans hb.symm) (fun _ => hv) heq
                    exact ⟨st, vars, .same i j hknown.1, hsol, by simp⟩
                  · obtain ⟨s, s', vars', hs, hs', hsol', hsame⟩ := exists_bind_fresh hsol hc ha hb
                      (mem_of_fits ha hlpool) (mem_of_fits hb hrpool) heq
                    exact ⟨_, vars', .fresh i j ha hb hv hs hs', hsol', hsame⟩

theorem exists_step (hst : st.Proper .standard) (hc : st.Contained n pool)
    (hsol : st.Solved .shapes vars StandardShape.const) (hl : l.Within .standard)
    (hr : r.Within .standard) (hlpool : l.Fits n pool) (hrpool : r.Fits n pool)
    (heq : l.value .shapes vars StandardShape.const = r.value .shapes vars StandardShape.const) :
    ∃ st' pool' vars', st.step l r = .ok st' ∧ st'.Contained n pool' ∧ pool ⊆ pool' ∧
      st'.Solved .shapes vars' StandardShape.const ∧ ∀ v ∈ pool, vars' v = vars v := by
  have hs := hst.bindings
  obtain ⟨l', hl', hloose⟩ := Substitution.exists_chase hs.filled hs.acyclic l
  obtain ⟨r', hr', hloose'⟩ := Substitution.exists_chase hs.filled hs.acyclic r
  have hwithin : st.bindings.Within .lettered :=
    fun v t ht => (hs.within v t ht).mono Fragment.standard_le
  have heq' : l'.value .shapes vars StandardShape.const =
      r'.value .shapes vars StandardShape.const := by
    rw [hsol.bindings.chase hwithin (hl.mono Fragment.standard_le) hl', heq,
      hsol.bindings.chase hwithin (hr.mono Fragment.standard_le) hr']
  have hlfits := hc.bindings.chase hlpool hl'
  have hrfits := hc.bindings.chase hrpool hr'
  obtain ⟨st', vars', hmeets, hsol', hsame⟩ := exists_meets hsol hc
    (Substitution.within_chase hs.within hl hl') (Substitution.within_chase hs.within hr hr')
    hlfits hrfits heq'
  obtain ⟨pool', hsub, -, hc'⟩ := hc.meets hst hlfits hrfits hloose hloose' hmeets
  refine ⟨st', pool', vars', ?_, hc', hsub, hsol', hsame⟩
  rw [step, hl', hr']
  exact meet_of_meets hmeets

end State

open State

end Unification

open Unification

end Detachment

import Detachment.Proofs.Expansion
import Mathlib.Algebra.BigOperators.Group.List.Basic
import Mathlib.Data.Finset.Card
import Mathlib.Order.Monotone.Basic

/-!
# Unification comes to an end

A state of the algorithm is weighed by the sizes that the left sides of its pairs have once the
bindings are expanded. Each step takes at least one node away, so the budget suffices if it exceeds
the size to which an operand can grow.

That size is bounded because the bindings are few and their values small. A step binds one variable,
or it binds two and brings in a fresh one. So with `n` variables at the start there are never more
than `2 * n` bindings. Their values are parts of the operands, up to a negation.
-/
namespace Detachment

/-- Formulas as the numbers of their nodes. -/
def Meaning.sizes : Meaning Nat where
  neg := id
  op _ x y := 1 + x + y
  neg_neg _ := rfl
  neg_implication _ _ := rfl
  neg_disjunction _ _ := rfl
  neg_xor _ _ := rfl

namespace Formula

variable {α : Type} {σ : Int → Nat}

/-- The size of a formula whose variables have been replaced by formulas of the given sizes. -/
def weight (σ : Int → Nat) (t : Formula α) : Nat :=
  t.value .sizes σ fun _ => 1

theorem weight_leaf (s : α) (a : Leaf) :
    (leaf s a).weight σ = if a.isVariable then σ a.value else 1 := by
  unfold weight value Leaf.meaning
  cases a.negated <;> rfl

theorem weight_node (s : α) (c : Connective) (l r : Formula α) :
    (node s c l r).weight σ = 1 + l.weight σ + r.weight σ := rfl

@[simp] theorem weight_place (t : Formula α) : t.place.weight σ = t.weight σ :=
  value_place ..

theorem weight_negate (t : Formula α) : t.negate.weight σ = t.weight σ := by
  induction t with
  | leaf s a => simp [negate, weight_leaf]
  | node s c l r ihl ihr => cases c <;> simp [negate, weight_node, ihl, ihr]

@[simp] theorem weight_signed (b : Bool) (t : Formula α) : (t.signed b).weight σ = t.weight σ := by
  cases b with
  | false => rfl
  | true => exact t.weight_negate

theorem weight_congr {τ : Int → Nat} {t : Formula α} (h : ∀ v ∈ t.vars, σ v = τ v) :
    t.weight σ = t.weight τ :=
  value_congr _ h

theorem weight_pos (hσ : ∀ v, 0 < σ v) (t : Formula α) : 0 < t.weight σ := by
  cases t with
  | leaf s a =>
      rw [weight_leaf]
      split
      · exact hσ _
      · omega
  | node s c l r =>
      rw [weight_node]
      omega

theorem weight_le {b : Nat} (hb : 0 < b) (hσ : ∀ v, σ v ≤ b) (t : Formula α) :
    t.weight σ ≤ t.size * b := by
  induction t with
  | leaf s a =>
      have := hσ a.value
      rw [weight_leaf, size, Nat.one_mul]
      split <;> omega
  | node s c l r ihl ihr =>
      rw [weight_node, size, Nat.add_mul, Nat.add_mul]
      omega

theorem le_weight_of_mem {t : Formula α} {v : Int} (h : v ∈ t.vars) : σ v ≤ t.weight σ := by
  induction t with
  | leaf s a =>
      have hnum : a.varNumber? = some v := by simpa using h
      obtain ⟨hvar, rfl⟩ := Leaf.varNumber?_eq_some.mp hnum
      rw [weight_leaf, if_pos hvar]
  | node s c l r ihl ihr =>
      rw [vars_node, List.mem_append] at h
      rw [weight_node]
      obtain h | h := h
      · have := ihl h
        omega
      · have := ihr h
        omega

theorem length_vars_le (t : Formula α) : t.vars.length ≤ t.size := by
  induction t with
  | leaf s a => cases h : a.varNumber? <;> simp [h, size]
  | node s c l r ihl ihr =>
      rw [vars_node, List.length_append, size]
      omega

/-- No more than `n` nodes, and no variables but those of the pool. -/
def Fits (n : Nat) (pool : Finset Int) (t : Formula α) : Prop :=
  t.size ≤ n ∧ ∀ v ∈ t.vars, v ∈ pool

variable {n : Nat} {pool : Finset Int}

theorem Fits.signed {t : Formula α} (h : t.Fits n pool) (b : Bool) : (t.signed b).Fits n pool := by
  simpa [Fits] using h

theorem Fits.parts {s : α} {c : Connective} {l r : Formula α} (h : (node s c l r).Fits n pool) :
    l.place.Fits n pool ∧ r.place.Fits n pool := by
  obtain ⟨hsize, hvars⟩ := h
  rw [size] at hsize
  simp only [vars_node, List.mem_append] at hvars
  simp only [Fits, size_place, vars_place]
  exact ⟨⟨by omega, fun v hv => hvars v (.inl hv)⟩, by omega, fun v hv => hvars v (.inr hv)⟩

theorem Fits.mono {t : Formula α} {pool' : Finset Int} (h : t.Fits n pool) (hpool : pool ⊆ pool') :
    t.Fits n pool' :=
  ⟨h.1, fun v hv => hpool (h.2 v hv)⟩

end Formula

namespace Substitution

variable {n : Nat} {pool : Finset Int} {s s' : Substitution}

/-- All bound variables belong to the pool, and all values fit. -/
def Fits (n : Nat) (pool : Finset Int) (s : Substitution) : Prop :=
  ∀ v t, s.value? v = some t → v ∈ pool ∧ t.Fits n pool

theorem Fits.mono {pool' : Finset Int} (h : s.Fits n pool) (hpool : pool ⊆ pool') :
    s.Fits n pool' :=
  fun v t ht => ⟨hpool (h v t ht).1, (h v t ht).2.mono hpool⟩

theorem Fits.chase (h : s.Fits n pool) {k : Nat} {t t' : Formula Nat} (ht : t.Fits n pool)
    (hchase : s.chase k t = some t') : t'.Fits n pool :=
  chase_preserves (fun _ _ v w _ hw _ => (h v w hw).2.signed _) hchase ht

theorem Fits.bind (h : s.Fits n pool) {a : Leaf} {t : Formula Nat} (ha : a.value ∈ pool)
    (ht : t.Fits n pool) (hbind : s.bind a t = .ok s') : s'.Fits n pool := by
  intro v w hw
  rw [value?_bind hbind] at hw
  split at hw
  · rename_i hv
    obtain rfl := Option.some.inj hw
    exact ⟨hv ▸ ha, ht.signed _⟩
  · exact h v w hw

theorem Proper.lookup_eq_none {F : Fragment} (hs : s.Proper F) {v : Int} (h : s.value? v = none) :
    s.lookup v = none :=
  lookup_eq_none_of_filled hs.filled h

theorem Proper.length_bind {F : Fragment} (hs : s.Proper F) {a : Leaf} {t : Formula Nat}
    (ha : s.value? a.value = none) (hbind : s.bind a t = .ok s') : s'.length = s.length + 1 := by
  obtain ⟨-, rfl⟩ := bind_eq_ok.mp hbind
  have hkeep : s.filter (·.1 != a.value) = s := by
    refine List.filter_eq_self.mpr fun b hb => ?_
    rw [bne_comm]
    exact List.lookup_eq_none_iff.mp (hs.lookup_eq_none ha) b hb
  rw [insert, List.length_cons, hkeep]

/-- The bound variables are different members of the pool. -/
theorem Proper.length_le {F : Fragment} (hs : s.Proper F) (h : s.Fits n pool) :
    s.length ≤ pool.card := by
  have hsub : (s.map Prod.fst).toFinset ⊆ pool := by
    intro v hv
    rw [List.mem_toFinset] at hv
    obtain ⟨⟨v, x⟩, hb, rfl⟩ := List.mem_map.mp hv
    obtain ⟨t, rfl⟩ := Option.isSome_iff_exists.mp (hs.filled _ hb)
    exact (h v t (value?_of_mem hs.nodup hb)).1
  have hcard := Finset.card_le_card hsub
  rwa [List.toFinset_card_of_nodup hs.nodup, List.length_map] at hcard

/-- Sizes for the variables that agree with all bindings but those of `pending`. No value of the
others mentions a variable of `pending`. -/
structure Sized (s : Substitution) (bound : Nat) (pending : List Int) (σ : Int → Nat) : Prop where
  pos : ∀ v, 0 < σ v
  le : ∀ v, σ v ≤ bound
  satisfied : ∀ v t, s.value? v = some t → v ∉ pending → σ v = t.weight σ
  settled : ∀ v t, s.value? v = some t → v ∉ pending → ∀ u ∈ t.vars, u ∉ pending

/-- A variable that needs no pending one can be given its size. -/
theorem Sized.step {b : Nat} {pending : List Int} {σ : Int → Nat} (h : s.Sized b pending σ)
    {v : Int} {t : Formula Nat} (hv : v ∈ pending) (ht : s.value? v = some t) (hsize : t.size ≤ n)
    (hn : 0 < n) (hfree : ∀ u ∈ pending, ¬s.Needs v u) :
    s.Sized (b * n) (pending.filter (· != v)) (Function.update σ v (t.weight σ)) := by
  have hb : 0 < b := (h.pos 0).trans_le (h.le 0)
  have hfree' : ∀ u ∈ t.vars, u ∉ pending := fun u hu hmem => hfree u hmem ⟨t, ht, hu⟩
  have hpending {u : Int} : u ∉ pending.filter (· != v) ↔ u ∉ pending ∨ u = v := by
    simp [imp_iff_not_or]
  -- The values of `v` and of the variables that are not pending do not mention `v`.
  have hkeep {w : Formula Nat} (hw : ∀ u ∈ w.vars, u ∉ pending) :
      w.weight (Function.update σ v (t.weight σ)) = w.weight σ := by
    refine Formula.weight_congr fun u hu => Function.update_of_ne ?_ _ _
    rintro rfl
    exact hw _ hu hv
  constructor
  case pos =>
    intro u
    by_cases hu : u = v
    · rw [hu, Function.update_self]
      exact t.weight_pos h.pos
    · rw [Function.update_of_ne hu]
      exact h.pos u
  case le =>
    intro u
    by_cases hu : u = v
    · rw [hu, Function.update_self]
      calc t.weight σ ≤ t.size * b := t.weight_le hb h.le
        _ ≤ n * b := Nat.mul_le_mul_right _ hsize
        _ = b * n := Nat.mul_comm ..
    · rw [Function.update_of_ne hu]
      exact (h.le u).trans (Nat.le_mul_of_pos_right _ hn)
  case satisfied =>
    intro u w hw hu
    by_cases huv : u = v
    · subst huv
      obtain rfl : t = w := Option.some.inj (ht.symm.trans hw)
      rw [Function.update_self, hkeep hfree']
    · have hu := (hpending.mp hu).resolve_right huv
      rw [Function.update_of_ne huv, hkeep (h.settled u w hw hu), h.satisfied u w hw hu]
  case settled =>
    intro u w hw hu x hx
    refine hpending.mpr (.inl ?_)
    by_cases huv : u = v
    · subst huv
      obtain rfl : t = w := Option.some.inj (ht.symm.trans hw)
      exact hfree' x hx
    · exact h.settled u w hw ((hpending.mp hu).resolve_right huv) x hx

theorem Sized.exists_satisfied {b : Nat} {pending : List Int} {σ : Int → Nat}
    (h : s.Sized b pending σ) (hac : s.Acyclic) (hbound : ∀ v ∈ pending, ∃ t, s.value? v = some t)
    (hn : 0 < n) (hsize : ∀ v t, s.value? v = some t → t.size ≤ n) :
    ∃ τ, s.Sized (b * n ^ pending.length) [] τ := by
  induction hk : pending.length using Nat.strongRecOn generalizing b pending σ with
  | _ k ih =>
      by_cases hne : pending = []
      · subst hne hk
        exact ⟨σ, by simpa using h⟩
      obtain ⟨v, hv, hfree⟩ := hac.exists_independent hne
      obtain ⟨t, ht⟩ := hbound v hv
      have hlt : (pending.filter (· != v)).length < pending.length :=
        List.length_filter_lt_length_iff_exists.mpr ⟨v, hv, by simp⟩
      obtain ⟨τ, hτ⟩ := ih _ (hk ▸ hlt) (h.step hv ht (hsize v t ht) hn hfree)
        (fun u hu => hbound u (List.mem_filter.mp hu).1) rfl
      refine ⟨τ, hτ.pos, fun u => (hτ.le u).trans ?_, hτ.satisfied, hτ.settled⟩
      calc b * n * n ^ (pending.filter (· != v)).length
          = b * n ^ ((pending.filter (· != v)).length + 1) := by
            rw [Nat.mul_assoc, Nat.pow_succ, Nat.mul_comm n]
        _ ≤ b * n ^ k := Nat.mul_le_mul_left _ (Nat.pow_le_pow_right hn (by omega))

/-- Acyclic bindings fix the sizes to which their variables grow: at most the power of the size of
the values by the number of bindings. -/
theorem Proper.exists_sizes {F : Fragment} (hs : s.Proper F) (hn : 0 < n)
    (hsize : ∀ v t, s.value? v = some t → t.size ≤ n) :
    ∃ σ : Int → Nat, (∀ v, 0 < σ v ∧ σ v ≤ n ^ s.length) ∧
      s.Satisfied .sizes σ fun _ => 1 := by
  have hbound : ∀ v ∈ s.map Prod.fst, ∃ t, s.value? v = some t := by
    intro v hv
    obtain ⟨⟨v, x⟩, hb, rfl⟩ := List.mem_map.mp hv
    obtain ⟨t, rfl⟩ := Option.isSome_iff_exists.mp (hs.filled _ hb)
    exact ⟨t, value?_of_mem hs.nodup hb⟩
  have hkeys {v : Int} {t : Formula Nat} (ht : s.value? v = some t) : v ∈ s.map Prod.fst :=
    List.mem_map_of_mem (f := Prod.fst) (mem_of_value? ht)
  have hstart : s.Sized 1 (s.map Prod.fst) fun _ => 1 :=
    ⟨fun _ => Nat.one_pos, fun _ => Nat.le_refl 1, fun v t ht hv => absurd (hkeys ht) hv,
      fun v t ht hv => absurd (hkeys ht) hv⟩
  obtain ⟨σ, hσ⟩ := hstart.exists_satisfied hs.acyclic hbound hn hsize
  refine ⟨σ, fun v => ⟨hσ.pos v, ?_⟩, fun v t ht => hσ.satisfied v t ht List.not_mem_nil⟩
  simpa using hσ.le v

theorem Satisfied.weight_chase {σ : Int → Nat} (hsat : s.Satisfied .sizes σ fun _ => 1) {k : Nat}
    {t t' : Formula Nat} (h : s.chase k t = some t') : t'.weight σ = t.weight σ := by
  refine chase_preserves (P := fun x => x.weight σ = t.weight σ) (fun i a v w hv hw hx => ?_) h rfl
  obtain ⟨hvar, rfl⟩ := Leaf.varNumber?_eq_some.mp hv
  rw [Formula.weight_signed, ← hx, Formula.weight_leaf, if_pos hvar]
  exact (hsat _ w hw).symm

end Substitution

namespace Unification

namespace State

variable {n : Nat} {pool : Finset Int} {st st' : State} {l r : Formula Nat} {F : Fragment}

/-- What keeps a state small: everything fits, and the pool has grown by no more than half the
number of bindings. -/
structure Confined (n : Nat) (pool : Finset Int) (st : State) : Prop where
  bindings : st.bindings.Fits n pool
  queue : ∀ p ∈ st.queue, p.1.Fits n pool ∧ p.2.Fits n pool
  card : 2 * pool.card ≤ 2 * n + st.bindings.length

/-- A small state whose fresh variable lies beyond the pool. -/
structure Contained (n : Nat) (pool : Finset Int) (st : State) : Prop
    extends Confined n pool st where
  fresh : ∀ v ∈ pool, v < st.fresh

theorem Confined.length_le (h : st.Confined n pool) (hst : st.Proper F) :
    st.bindings.length ≤ 2 * n := by
  have := hst.bindings.length_le h.bindings
  have := h.card
  omega

theorem Confined.refresh (h : st.Confined n pool) (v : Int) :
    State.Confined n pool { st with fresh := v } :=
  ⟨h.bindings, h.queue, h.card⟩

theorem Contained.value?_fresh (h : st.Contained n pool) : st.bindings.value? st.fresh = none := by
  cases hx : st.bindings.value? st.fresh with
  | none => rfl
  | some t =>
      have := h.fresh _ (h.bindings _ t hx).1
      omega

theorem Confined.pop {rest : List (Formula Nat × Formula Nat)} (h : st.Confined n pool)
    (hq : st.queue = (l, r) :: rest) :
    (l.Fits n pool ∧ r.Fits n pool) ∧ State.Confined n pool { st with queue := rest } := by
  have hqueue := h.queue
  rw [hq, List.forall_mem_cons] at hqueue
  exact ⟨hqueue.1, h.bindings, hqueue.2, h.card⟩

theorem Contained.pop {rest : List (Formula Nat × Formula Nat)} (h : st.Contained n pool)
    (hq : st.queue = (l, r) :: rest) :
    (l.Fits n pool ∧ r.Fits n pool) ∧ State.Contained n pool { st with queue := rest } := by
  obtain ⟨hfits, hrest⟩ := h.toConfined.pop hq
  exact ⟨hfits, hrest, h.fresh⟩

theorem mem_of_fits {i : Nat} {a : Leaf} (ha : a.kind = .var)
    (h : (Formula.leaf i a).Fits n pool) : a.value ∈ pool :=
  h.2 _ (by simp [Leaf.varNumber?_of_kind ha])

/-- A step that brings in the fresh variable adds it to the pool and two bindings with it. Every
other step leaves the fresh variable and the pool as they are. -/
theorem Confined.meets (h : st.Confined n pool) (hst : st.Proper F) (hl : l.Fits n pool)
    (hr : r.Fits n pool) (hloose : st.bindings.Loose l) (hloose' : st.bindings.Loose r)
    (hmeets : st.Meets l r st') :
    (st'.fresh = st.fresh ∧ st.bindings.length ≤ st'.bindings.length ∧ st'.Confined n pool) ∨
      (st'.fresh = st.fresh + 1 ∧ st'.bindings.length = st.bindings.length + 2 ∧
        st'.Confined n (insert st.fresh pool)) := by
  cases hmeets with
  | parts i j c l r l' r' =>
      refine .inl ⟨rfl, Nat.le_refl _, h.bindings, fun p hp => ?_, h.card⟩
      obtain hp | hp := List.mem_append.mp hp
      · exact h.queue p hp
      · obtain rfl | rfl : p = (l.place, l'.place) ∨ p = (r.place, r'.place) := by simpa using hp
        · exact ⟨hl.parts.1, hr.parts.1⟩
        · exact ⟨hl.parts.2, hr.parts.2⟩
  | same i j ha => exact .inl ⟨rfl, Nat.le_refl _, h⟩
  | left i ha ht hbind =>
      have hlength := hst.bindings.length_bind (hloose _ (Leaf.varNumber?_of_kind ha)) hbind
      have hcard := h.card
      exact .inl ⟨rfl, by dsimp only; omega, h.bindings.bind (mem_of_fits ha hl) hr hbind, h.queue,
        by dsimp only; omega⟩
  | right j hb ht hbind =>
      have hlength := hst.bindings.length_bind (hloose' _ (Leaf.varNumber?_of_kind hb)) hbind
      have hcard := h.card
      exact .inl ⟨rfl, by dsimp only; omega, h.bindings.bind (mem_of_fits hb hr) hl hbind, h.queue,
        by dsimp only; omega⟩
  | @fresh i j a b s s' ha hb hne hbind hbind' =>
      have hsub : pool ⊆ insert st.fresh pool := Finset.subset_insert _ _
      have ha' := hloose _ (Leaf.varNumber?_of_kind ha)
      have hb' := hloose' _ (Leaf.varNumber?_of_kind hb)
      have hfresh : (Formula.leaf 0 (Leaf.var st.fresh)).Within F := F.leaf_var st.fresh
      have hmid := (Substitution.value?_bind_of_ne hbind hne.symm).trans hb'
      have hlength := hst.bindings.length_bind ha' hbind
      have hlength' := (hst.bindings.bind ha' hfresh hbind).length_bind hmid hbind'
      have hleaf : (Formula.leaf 0 (Leaf.var st.fresh)).Fits n (insert st.fresh pool) := by
        have := hl.1
        exact ⟨this, by simp⟩
      refine .inr ⟨rfl, by dsimp only; omega, ?_, fun p hp => ?_, ?_⟩
      · exact ((h.bindings.mono hsub).bind (hsub (mem_of_fits ha hl)) hleaf hbind).bind
          (hsub (mem_of_fits hb hr)) hleaf hbind'
      · exact ⟨(h.queue p hp).1.mono hsub, (h.queue p hp).2.mono hsub⟩
      · have hcard := h.card
        have := Finset.card_insert_le st.fresh pool
        dsimp only
        omega

theorem Contained.meets (h : st.Contained n pool) (hst : st.Proper F) (hl : l.Fits n pool)
    (hr : r.Fits n pool) (hloose : st.bindings.Loose l) (hloose' : st.bindings.Loose r)
    (hmeets : st.Meets l r st') :
    ∃ pool', pool ⊆ pool' ∧ pool' ⊆ insert st.fresh pool ∧ st'.Contained n pool' := by
  obtain ⟨hsame, -, hc⟩ | ⟨hnext, -, hc⟩ := h.toConfined.meets hst hl hr hloose hloose' hmeets
  · exact ⟨pool, subset_rfl, Finset.subset_insert _ _, hc, hsame ▸ h.fresh⟩
  · refine ⟨insert st.fresh pool, Finset.subset_insert _ _, subset_rfl, hc, fun v hv => ?_⟩
    obtain rfl | hv := Finset.mem_insert.mp hv
    · omega
    · have := h.fresh v hv
      omega

/-- A step leaves the bindings that there are. -/
theorem value?_of_meets (hloose : st.bindings.Loose l) (hloose' : st.bindings.Loose r)
    (h : st.Meets l r st') {v : Int} {t : Formula Nat} (hv : st.bindings.value? v = some t) :
    st'.bindings.value? v = some t := by
  have hkeep {s s' : Substitution} {a : Leaf} {w : Formula Nat} (ha : s.value? a.value = none)
      (hbind : s.bind a w = .ok s') (hv : s.value? v = some t) : s'.value? v = some t := by
    have hne : v ≠ a.value := by
      rintro rfl
      rw [ha] at hv
      cases hv
    rw [Substitution.value?_bind_of_ne hbind hne, hv]
  cases h with
  | parts => exact hv
  | same => exact hv
  | left i ha ht hbind => exact hkeep (hloose _ (Leaf.varNumber?_of_kind ha)) hbind hv
  | right j hb ht hbind => exact hkeep (hloose' _ (Leaf.varNumber?_of_kind hb)) hbind hv
  | @fresh i j a b s s' ha hb hne hbind hbind' =>
      have hmid := (Substitution.value?_bind_of_ne hbind hne.symm).trans
        (hloose' _ (Leaf.varNumber?_of_kind hb))
      exact hkeep hmid hbind' (hkeep (hloose _ (Leaf.varNumber?_of_kind ha)) hbind hv)

/-- The sizes of the left sides of all pairs after expansion. -/
def weight (σ : Int → Nat) (st : State) : Nat :=
  (st.queue.map fun p => p.1.weight σ).sum

theorem weight_meets {σ : Int → Nat} (hσ : ∀ v, 0 < σ v) (h : st.Meets l r st') :
    st'.weight σ < st.weight σ + l.weight σ := by
  have hpos := l.weight_pos hσ
  cases h with
  | parts i j c l r l' r' =>
      simp only [weight, List.map_append, List.sum_append, List.map_cons, List.map_nil,
        List.sum_cons, List.sum_nil, Formula.weight_place, Formula.weight_node]
      omega
  | same => omega
  | left => exact Nat.lt_add_of_pos_right hpos
  | right => exact Nat.lt_add_of_pos_right hpos
  | fresh => exact Nat.lt_add_of_pos_right hpos

end State

open State

variable {n : Nat} {pool : Finset Int}

/-- If the loop runs out of steps, it has come to a state whose bindings give the first queue a
weight of no less than the number of steps. -/
theorem weight_of_loopBy_eq_none {F : Fragment} {fit : Int → Int} {fuel : Nat} {st : State}
    (hst : st.Proper F) (hc : st.Confined n pool) (h : loopBy fit fuel st = none) :
    ∃ (st' : State) (pool' : Finset Int), st'.Proper F ∧ st'.Confined n pool' ∧
      ∀ σ : Int → Nat, (∀ v, 0 < σ v) → st'.bindings.Satisfied .sizes σ (fun _ => 1) →
        st.bindings.Satisfied .sizes σ (fun _ => 1) ∧ fuel ≤ st.weight σ := by
  induction fuel generalizing st pool with
  | zero => exact ⟨st, pool, hst, hc, fun σ _ hsat => ⟨hsat, Nat.zero_le _⟩⟩
  | succ fuel ih =>
      obtain ⟨-, hloop⟩ | ⟨l, r, rest, hq, ⟨e, -, hloop⟩ | ⟨st₁, hstep, hloop⟩⟩ :=
        loopBy_succ fit fuel st
      · rw [h] at hloop
        cases hloop
      · rw [h] at hloop
        cases hloop
      obtain ⟨hhead, hrest⟩ := hst.pop hq
      obtain ⟨hfits, hcrest⟩ := hc.pop hq
      obtain ⟨l', r', hl', hr', hwl, hwr, hloose, hloose', hmeets⟩ :=
        step_cases hrest hhead.1 hhead.2 hstep
      obtain ⟨pool₁, hc₁⟩ : ∃ pool₁, st₁.Confined n pool₁ := by
        obtain ⟨-, -, hc₁⟩ | ⟨-, -, hc₁⟩ := hcrest.meets hrest (hc.bindings.chase hfits.1 hl')
          (hc.bindings.chase hfits.2 hr') hloose hloose' hmeets
        · exact ⟨_, hc₁⟩
        · exact ⟨_, hc₁⟩
      obtain ⟨st', pool', hst', hc', hweigh⟩ :=
        ih ((hrest.step hhead.1 hhead.2 hstep).refresh _) (hc₁.refresh _) (hloop ▸ h)
      refine ⟨st', pool', hst', hc', fun σ hσ hsat => ?_⟩
      obtain ⟨hsat₁, hfuel⟩ := hweigh σ hσ hsat
      have hfuel : fuel ≤ st₁.weight σ := hfuel
      have hsat₀ : st.bindings.Satisfied .sizes σ fun _ => 1 :=
        fun v t ht => hsat₁ v t (value?_of_meets hloose hloose' hmeets ht)
      refine ⟨hsat₀, ?_⟩
      have hchase : l'.weight σ = l.weight σ := hsat₀.weight_chase hl'
      have hweight : st.weight σ = l.weight σ + State.weight σ { st with queue := rest } := by
        simp [State.weight, hq]
      have hlt := weight_meets hσ hmeets
      omega

end Unification

namespace Formula

theorem le_maxVariable {α : Type} {t : Formula α} {v : Int} (h : v ∈ t.vars) :
    v ≤ t.maxVariable := by
  unfold maxVariable
  cases hm : t.vars.max? with
  | none =>
      rw [List.max?_eq_none_iff] at hm
      rw [hm] at h
      cases h
  | some m => exact (List.max?_eq_some_iff.mp hm).2 v h

end Formula

open Unification

variable {l r : Formula Nat} {floor : Int}

/-- The state in which unification begins. -/
def Unification.State.initial (floor : Int) (l r : Formula Nat) : State :=
  { bindings := [], fresh := max floor (max l.maxVariable r.maxVariable + 1), queue := [(l, r)] }

theorem Unification.State.proper_initial {F : Fragment} (floor : Int) (hl : l.Within F)
    (hr : r.Within F) : (State.initial floor l r).Proper F :=
  ⟨Substitution.proper_nil F, by simpa [State.initial] using ⟨hl, hr⟩⟩

/-- In the beginning everything fits, also if the pool has some more variables below the fresh
one. -/
theorem Unification.State.contained_initial_append (floor : Int) (l r : Formula Nat)
    {more : List Int} (hmore : ∀ v ∈ more, v < (State.initial floor l r).fresh) :
    (State.initial floor l r).Contained (l.size + r.size + more.length)
      (l.vars ++ r.vars ++ more).toFinset where
  bindings := by simp [State.initial, Substitution.Fits, Substitution.value?]
  queue := by
    simp only [State.initial, List.mem_singleton, forall_eq, Formula.Fits, List.mem_toFinset,
      List.mem_append]
    exact ⟨⟨by omega, fun v hv => .inl (.inl hv)⟩, by omega, fun v hv => .inl (.inr hv)⟩
  fresh := by
    intro v hv
    rw [List.mem_toFinset, List.mem_append, List.mem_append] at hv
    obtain hv | hv := hv
    · have hmax : v ≤ max l.maxVariable r.maxVariable := by
        obtain hv | hv := hv
        · exact le_max_of_le_left (Formula.le_maxVariable hv)
        · exact le_max_of_le_right (Formula.le_maxVariable hv)
      have := le_max_right floor (max l.maxVariable r.maxVariable + 1)
      dsimp only [State.initial]
      omega
    · exact hmore v hv
  card := by
    have hcard := List.toFinset_card_le (l.vars ++ r.vars ++ more)
    rw [List.length_append, List.length_append] at hcard
    have := l.length_vars_le
    have := r.length_vars_le
    omega

theorem Unification.State.contained_initial (floor : Int) (l r : Formula Nat) :
    (State.initial floor l r).Contained (l.size + r.size) (l.vars ++ r.vars).toFinset := by
  have hmore : ∀ v ∈ ([] : List Int), v < (State.initial floor l r).fresh := by simp
  simpa using contained_initial_append floor l r hmore

/-- The budget is larger than anything that the operands can grow to. -/
theorem lt_budget (n : Nat) : n * n ^ (2 * n) < budget n := by
  calc n * n ^ (2 * n) = n ^ (2 * n + 1) := by rw [Nat.pow_succ, Nat.mul_comm]
    _ ≤ (n + 2) ^ (2 * n + 1) := Nat.pow_le_pow_left (by omega) _
    _ < (n + 2) ^ (2 * n + 4) := Nat.pow_lt_pow_right (by omega) (by omega)

/-- The budget suffices to work off the queue, however fresh variables are stored. -/
theorem exists_loopBy_eq_some (fit : Int → Int) (fresh : Int) (l r : Formula Nat) :
    ∃ x, loopBy fit (budget (l.size + r.size)) ⟨[], fresh, [(l, r)]⟩ = some x := by
  by_contra hnone
  have hloop := Option.eq_none_iff_forall_ne_some.mpr fun x hx => hnone ⟨x, hx⟩
  have hc := (State.contained_initial 0 l r).toConfined.refresh fresh
  obtain ⟨st', pool, hst', hc', hweigh⟩ := weight_of_loopBy_eq_none
    ((State.proper_initial 0 l.within_full r.within_full).refresh fresh) hc hloop
  have hn : 0 < l.size + r.size := Nat.add_pos_left l.size_pos _
  obtain ⟨σ, hσ, hsat⟩ := hst'.bindings.exists_sizes hn fun v t ht => (hc'.bindings v t ht).2.1
  have hle (v : Int) : σ v ≤ (l.size + r.size) ^ (2 * (l.size + r.size)) :=
    (hσ v).2.trans (Nat.pow_le_pow_right hn (hc'.length_le hst'))
  have hbudget : budget (l.size + r.size) ≤ State.weight σ ⟨[], fresh, [(l, r)]⟩ :=
    (hweigh σ (fun v => (hσ v).1) hsat).2
  have hweight : State.weight σ ⟨[], fresh, [(l, r)]⟩ = l.weight σ := by
    simp [State.weight]
  have hgrow : l.weight σ ≤ (l.size + r.size) * (l.size + r.size) ^ (2 * (l.size + r.size)) :=
    (l.weight_le (Nat.pow_pos hn) hle).trans (Nat.mul_le_mul_right _ (Nat.le_add_right _ _))
  have := lt_budget (l.size + r.size)
  omega

theorem exists_loop_eq_some (floor : Int) (l r : Formula Nat) :
    ∃ x, loop (budget (l.size + r.size)) (State.initial floor l r) = some x :=
  exists_loopBy_eq_some id _ l r

/-- Unification answers what its loop does, once the bindings are expanded. -/
theorem unifyAbove_eq (floor : Int) (l r : Formula Nat) :
    unifyAbove floor l r = match loop (budget (l.size + r.size)) (State.initial floor l r) with
      | none => .error .emptyOperand
      | some (.error e) => .error e
      | some (.ok s) => s.expand :=
  rfl

end Detachment

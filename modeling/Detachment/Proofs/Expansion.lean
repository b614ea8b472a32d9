import Detachment.Proofs.Unifier
import Mathlib.Data.Fintype.Card
import Mathlib.Data.Fintype.EquivFin
import Mathlib.Data.Fintype.Sets
import Mathlib.Order.WellFounded

/-!
# Expanding the bindings

The bindings found by unification are expanded one at a time, each when all bound variables that it
mentions have been expanded before. There always is one to go on with, since the bindings are
acyclic. The result binds the same variables, mentions none of them in its values, and gives every
variable the value that the original bindings ask for.
-/
namespace Detachment.Substitution

/-- What holds between turns of the loop that expands the bindings `s`: those of `pending` are left
as they are in `s`, and those of `done` are expanded. -/
structure Expanding (F : Fragment) (s pending done : Substitution) : Prop where
  nodup : (done.map Prod.fst).Nodup
  filled : ∀ b ∈ done, b.2.isSome
  pending_sub : ∀ b ∈ pending, b ∈ s
  fresh : ∀ b ∈ pending, done.lookup b.1 = none
  within : done.Within F
  bound : ∀ v w, done.value? v = some w → ∃ t, s.value? v = some t
  solved : ∀ v w, done.value? v = some w → ∀ u ∈ w.vars, s.value? u = none
  split : ∀ v t, s.value? v = some t → (v, some t) ∈ pending ∨
    (∃ w, done.value? v = some w) ∧ ∀ u ∈ t.vars, ∀ b ∈ pending, b.1 ≠ u
  expanded : ∀ v w t, done.value? v = some w → s.value? v = some t → w = apply done t

variable {F : Fragment} {s pending done : Substitution}

theorem Expanding.start : Expanding F s s [] where
  nodup := by simp
  filled := by simp
  pending_sub _ h := h
  fresh := by simp
  within := by simp [Within, value?]
  bound := by simp [value?]
  solved := by simp [value?]
  split _ _ h := .inl (mem_of_value? h)
  expanded _ _ _ h := by simp [value?] at h

theorem Expanding.solved_done (h : Expanding F s pending done) : done.Solved := by
  intro v w hw u hu
  cases hx : done.value? u with
  | none => rfl
  | some x =>
      obtain ⟨t, ht⟩ := h.bound u x hx
      rw [h.solved v w hw u hu] at ht
      cases ht

theorem value?_cons (s : Substitution) (u v : Int) (t : Formula Nat) :
    Substitution.value? ((v, some t) :: s) u = if u = v then some t else s.value? u := by
  unfold value?
  rw [List.lookup_cons]
  by_cases h : u = v
  · simp [h]
  · simp [h, beq_false_of_ne h]

theorem value?_cons_cases {u v : Int} {t w : Formula Nat}
    (h : Substitution.value? ((v, some t) :: s) u = some w) :
    (u = v ∧ w = t) ∨ s.value? u = some w := by
  rw [value?_cons] at h
  split at h
  · rename_i hu
    exact .inl ⟨hu, (Option.some.inj h).symm⟩
  · exact .inr h

/-- A new binding changes nothing for a formula that does not mention its variable. -/
theorem apply_cons {v : Int} (w : Formula Nat) {t : Formula Nat} (h : v ∉ t.vars) :
    apply ((v, some w) :: s) t = s.apply t := by
  refine apply_congr fun u hu => ?_
  have hne : u ≠ v := fun he => h (he ▸ hu)
  rw [value?_cons, if_neg hne]

/-- A formula that mentions no pending variable mentions no bound one once it is expanded. -/
theorem Expanding.value?_of_mem_vars_apply (h : Expanding F s pending done) {t : Formula Nat}
    (hready : ∀ u ∈ t.vars, ∀ b ∈ pending, b.1 ≠ u) {u : Int} (hu : u ∈ (apply done t).vars) :
    s.value? u = none := by
  obtain ⟨hut, hud⟩ | ⟨y, -, w, hw, hu⟩ := (mem_vars_apply h.solved_done).mp hu
  · cases hus : s.value? u with
    | none => rfl
    | some z =>
        obtain hpend | ⟨⟨w, hw⟩, -⟩ := h.split u z hus
        · exact absurd rfl (hready u hut _ hpend)
        · rw [hud] at hw
          cases hw
  · exact h.solved y w hw u hu

/-- Expanding the value of `v`, which mentions no pending variable. -/
theorem Expanding.step {v : Int} {t : Formula Nat} (hs : s.Proper F)
    (h : Expanding F s pending done) (hmem : (v, some t) ∈ pending)
    (hready : ∀ u ∈ t.vars, ∀ b ∈ pending, b.1 ≠ u) :
    Expanding F s (pending.filter (·.1 != v)) ((v, some (apply done t)) :: done) := by
  have hsub : ∀ b ∈ pending.filter (·.1 != v), b ∈ pending ∧ b.1 ≠ v := fun b hb => by
    simpa using hb
  have hv : s.value? v = some t := value?_of_mem hs.nodup (h.pending_sub _ hmem)
  constructor
  case nodup =>
    rw [List.map_cons, List.nodup_cons]
    refine ⟨fun hmem' => ?_, h.nodup⟩
    obtain ⟨b, hb, he⟩ := List.mem_map.mp hmem'
    have hnone := List.lookup_eq_none_iff.mp (h.fresh _ hmem) b hb
    simp [he] at hnone
  case filled => exact List.forall_mem_cons.mpr ⟨rfl, h.filled⟩
  case pending_sub => exact fun b hb => h.pending_sub b (hsub b hb).1
  case fresh =>
    intro b hb
    obtain ⟨hb, hne⟩ := hsub b hb
    rw [List.lookup_cons, beq_false_of_ne hne]
    exact h.fresh b hb
  case within =>
    intro u w hw
    obtain ⟨rfl, rfl⟩ | hw := value?_cons_cases hw
    · exact within_apply h.within (hs.within u t hv)
    · exact h.within u w hw
  case bound =>
    intro u w hw
    obtain ⟨rfl, rfl⟩ | hw := value?_cons_cases hw
    · exact ⟨t, hv⟩
    · exact h.bound u w hw
  case solved =>
    intro u w hw
    obtain ⟨rfl, rfl⟩ | hw := value?_cons_cases hw
    · exact fun x hx => h.value?_of_mem_vars_apply hready hx
    · exact h.solved u w hw
  case split =>
    intro u x hx
    by_cases hu : u = v
    · subst hu
      obtain rfl : t = x := Option.some.inj (hv.symm.trans hx)
      refine .inr ⟨⟨_, by rw [value?_cons, if_pos rfl]⟩, fun y hy b hb => ?_⟩
      exact hready y hy b (hsub b hb).1
    · obtain hpend | ⟨⟨w, hw⟩, hfree⟩ := h.split u x hx
      · exact .inl (by simpa [hu] using hpend)
      · refine .inr ⟨⟨w, by rw [value?_cons, if_neg hu, hw]⟩, fun y hy b hb => ?_⟩
        exact hfree y hy b (hsub b hb).1
  case expanded =>
    -- No expanded formula mentions `v`, whose value is all that is new.
    intro u w x hw hx
    obtain ⟨rfl, rfl⟩ | hw := value?_cons_cases hw
    · obtain rfl : t = x := Option.some.inj (hv.symm.trans hx)
      exact (apply_cons _ fun hmem' => hready _ hmem' _ hmem rfl).symm
    · rw [h.expanded u w x hw hx]
      refine (apply_cons _ fun hmem' => ?_).symm
      obtain hpend | ⟨-, hfree⟩ := h.split u x hx
      · have hnone := h.fresh _ hpend
        rw [value?_eq_some.mp hw] at hnone
        cases hnone
      · exact hfree v hmem' _ hmem rfl

theorem lookup_eq_none_of_isBound {s : Substitution} {u : Int} (h : (!s.isBound u) = true) :
    ∀ b ∈ s, b.1 ≠ u := by
  intro b hb he
  have hnone : s.lookup u = none := by simpa [isBound] using h
  have := List.lookup_eq_none_iff.mp hnone b hb
  simp [he] at this

/-- Whether a value mentions none of the variables bound in `all`. -/
def ready (all : Substitution) (b : Int × Sheet) : Bool :=
  b.2.all fun t => t.vars.all fun u => !all.isBound u

theorem expandLoop_zero_eq_ok {all done done' : Substitution} :
    expandLoop 0 all done = .ok done' ↔ all = [] ∧ done = done' := by
  cases all with
  | nil => simp [expandLoop]
  | cons b all => simp [expandLoop]

/-- One turn of the loop that ends in success. -/
theorem expandLoop_succ_eq_ok {fuel : Nat} {all done done' : Substitution} :
    expandLoop (fuel + 1) all done = .ok done' ↔ (all = [] ∧ done = done') ∨
      (∃ u, all.find? all.ready = some (u, none) ∧
        expandLoop fuel (all.filter (·.1 != u)) ((u, none) :: done) = .ok done') ∨
      ∃ u t, all.find? all.ready = some (u, some t) ∧ (apply done t).hasVariable u = false ∧
        expandLoop fuel (all.filter (·.1 != u)) ((u, some (apply done t)) :: done) =
          .ok done' := by
  cases all with
  | nil => simp [expandLoop]
  | cons b all =>
      obtain ⟨v, x⟩ := b
      have hready : (fun b : Int × Sheet => b.2.all fun t => t.vars.all fun u =>
          !isBound ((v, x) :: all) u) = ready ((v, x) :: all) := rfl
      rw [expandLoop]
      dsimp only
      rw [hready]
      rcases List.find? (ready ((v, x) :: all)) ((v, x) :: all) with _ | ⟨u, _ | t⟩
      · simp
      · simp
      · by_cases hocc : (apply done t).hasVariable u <;> simp [hocc]

/-- What every expansion of a value preserves holds at the end. -/
theorem Expanding.preserves {P : Substitution → Prop} {fuel : Nat} {done' : Substitution}
    (hs : s.Proper F)
    (hstep : ∀ pending done v t, Expanding F s pending done → s.value? v = some t → P done →
      P ((v, some (apply done t)) :: done))
    (h : Expanding F s pending done) (hP : P done)
    (hloop : expandLoop fuel pending done = .ok done') : Expanding F s [] done' ∧ P done' := by
  induction fuel generalizing pending done with
  | zero =>
      obtain ⟨rfl, rfl⟩ := expandLoop_zero_eq_ok.mp hloop
      exact ⟨h, hP⟩
  | succ fuel ih =>
      obtain ⟨rfl, rfl⟩ | ⟨u, hfind, -⟩ | ⟨u, t, hfind, -, hloop⟩ :=
        expandLoop_succ_eq_ok.mp hloop
      · exact ⟨h, hP⟩
      · have hmem := h.pending_sub _ (List.mem_of_find?_eq_some hfind)
        simpa using hs.filled _ hmem
      · have hready := List.find?_some hfind
        simp only [ready, Option.all_some, List.all_eq_true] at hready
        have hmem := List.mem_of_find?_eq_some hfind
        exact ih (h.step hs hmem fun x hx => lookup_eq_none_of_isBound (hready x hx))
          (hstep _ _ u t h (value?_of_mem hs.nodup (h.pending_sub _ hmem)) hP) hloop

theorem Expanding.of_expandLoop {fuel : Nat} {done' : Substitution} (hs : s.Proper F)
    (h : Expanding F s pending done) (hloop : expandLoop fuel pending done = .ok done') :
    Expanding F s [] done' :=
  (h.preserves (P := fun _ => True) hs (fun _ _ _ _ _ _ _ => trivial) trivial hloop).1

theorem sorted_perm (s : Substitution) : s.sorted.Perm s :=
  List.mergeSort_perm s _

theorem value?_sorted (hnd : (s.map Prod.fst).Nodup) (v : Int) :
    s.sorted.value? v = s.value? v := by
  have hlook : s.sorted.lookup v = s.lookup v := by
    cases hx : s.lookup v with
    | none =>
        rw [List.lookup_eq_none_iff] at hx ⊢
        exact fun b hb => hx b (s.sorted_perm.mem_iff.mp hb)
    | some x =>
        refine lookup_of_mem ?_ (s.sorted_perm.mem_iff.mpr (mem_of_lookup hx))
        exact (s.sorted_perm.map Prod.fst).nodup_iff.mpr hnd
  rw [value?, value?, hlook]

/-- The substitution `s'` binds the same variables as `s`, mentions none of them in its values, and
binds each to what its value in `s` becomes if `s'` is applied to it. -/
structure Expanded (F : Fragment) (s s' : Substitution) : Prop where
  nodup : (s'.map Prod.fst).Nodup
  filled : ∀ b ∈ s', b.2.isSome
  within : s'.Within F
  solved : s'.Solved
  bound_iff : ∀ v, s'.value? v = none ↔ s.value? v = none
  expanded : ∀ v t, s.value? v = some t → s'.value? v = some (s'.apply t)

/-- Expanding the bindings `s` to `s'` solves them. -/
structure Expansion (F : Fragment) (s s' : Substitution) : Prop extends Expanded F s s' where
  satisfied : ∀ {D : Type} (M : Meaning D) (vars consts : Int → D),
    s.Satisfied M (s'.assign M vars consts) consts

theorem expand_eq_ok {s' : Substitution} :
    s.expand = .ok s' ↔ ∃ done, expandLoop s.length s [] = .ok done ∧ done.sorted = s' := by
  unfold expand
  cases expandLoop s.length s [] with
  | error e => simp [Except.map]
  | ok done => simp [Except.map]

theorem expanded_of_expand {s' : Substitution} (hs : s.Proper F) (h : s.expand = .ok s') :
    Expanded F s s' := by
  obtain ⟨done, hloop, rfl⟩ := expand_eq_ok.mp h
  have hdone := Expanding.start.of_expandLoop hs hloop
  have hvalue (v : Int) := value?_sorted hdone.nodup v
  refine ⟨(done.sorted_perm.map Prod.fst).nodup_iff.mpr hdone.nodup,
    fun b hb => hdone.filled b (done.sorted_perm.mem_iff.mp hb), fun v w hw => ?_,
    fun v w hw u hu => ?_, fun v => ?_, fun v t ht => ?_⟩
  · rw [hvalue] at hw
    exact hdone.within v w hw
  · rw [hvalue] at hw ⊢
    exact hdone.solved_done v w hw u hu
  · rw [hvalue]
    cases ht : s.value? v with
    | none =>
        refine iff_of_true ?_ rfl
        cases hw : done.value? v with
        | none => rfl
        | some w =>
            obtain ⟨t, ht'⟩ := hdone.bound v w hw
            rw [ht] at ht'
            cases ht'
    | some t =>
        obtain hpend | ⟨⟨w, hw⟩, -⟩ := hdone.split v t ht
        · cases hpend
        · simp [hw]
  · obtain hpend | ⟨⟨w, hw⟩, -⟩ := hdone.split v t ht
    · cases hpend
    · rw [hvalue, hw, hdone.expanded v w t hw ht, apply_congr fun u _ => hvalue u]

theorem expansion_of_expand {s' : Substitution} (hF : F ≤ .lettered) (hs : s.Proper F)
    (h : s.expand = .ok s') : Expansion F s s' := by
  have hexp := expanded_of_expand hs h
  refine ⟨hexp, fun M vars consts v t ht => ?_⟩
  rw [assign_of_some (hexp.expanded v t ht)]
  exact value_apply M (fun v w hw => (hexp.within v w hw).mono hF) hexp.solved t

/-- Among finitely many variables there is one that needs none of them. -/
theorem Acyclic.exists_independent (hac : s.Acyclic) {keys : List Int} (hne : keys ≠ []) :
    ∃ v ∈ keys, ∀ u ∈ keys, ¬s.Needs v u := by
  let below : {v // v ∈ keys} → {v // v ∈ keys} → Prop :=
    fun u v => Relation.TransGen s.Needs v.1 u.1
  have htrans : IsTrans _ below := ⟨fun _ _ _ huv hvw => hvw.trans huv⟩
  have hirrefl : Std.Irrefl below := ⟨fun v => hac v.1⟩
  obtain ⟨k, hk⟩ := List.exists_mem_of_ne_nil keys hne
  obtain ⟨v, -, hmin⟩ := (Finite.wellFounded_of_trans_of_irrefl below).has_min Set.univ
    ⟨⟨k, hk⟩, trivial⟩
  exact ⟨v.1, v.2, fun u hu hneeds => hmin ⟨u, hu⟩ trivial (.single hneeds)⟩

/-- What holds of a variable if it holds of all that it needs holds of every variable. -/
theorem Acyclic.induction (hac : s.Acyclic) {P : Int → Prop}
    (hstep : ∀ v, (∀ u, s.Needs v u → P u) → P v) (v : Int) : P v := by
  classical
  by_contra hv
  -- A variable without the property needs another one, so it is bound.
  have hmem {u : Int} (hu : ¬P u) : u ∈ (s.map Prod.fst).filter (¬P ·) := by
    have hneeds : ∃ x, s.Needs u x := by
      by_contra hnone
      exact hu (hstep u fun x hx => absurd ⟨x, hx⟩ hnone)
    obtain ⟨x, t, ht, -⟩ := hneeds
    exact List.mem_filter.mpr
      ⟨List.mem_map_of_mem (f := Prod.fst) (mem_of_value? ht), by simpa using hu⟩
  obtain ⟨x, hx, hfree⟩ := hac.exists_independent (List.ne_nil_of_mem (hmem hv))
  have hnot : ¬P x := by simpa using (List.mem_filter.mp hx).2
  refine hnot (hstep x fun u hu => ?_)
  by_contra hbad
  exact hfree u (hmem hbad) hu

theorem Expanding.exists_ready (hs : s.Proper F) (h : Expanding F s pending done)
    (hne : pending ≠ []) : ∃ v t, pending.find? pending.ready = some (v, some t) := by
  obtain ⟨v, hv, hfree⟩ := hs.acyclic.exists_independent
    (show pending.map Prod.fst ≠ [] by simpa using hne)
  obtain ⟨⟨v, x⟩, hmem, rfl⟩ := List.mem_map.mp hv
  have hready : pending.ready (v, x) = true := by
    cases x with
    | none => rfl
    | some t =>
        simp only [ready, Option.all_some, List.all_eq_true, Bool.not_eq_true', isBound,
          Option.isSome_eq_false_iff, Option.isNone_iff_eq_none, List.lookup_eq_none_iff]
        intro u hu b hb
        have hneeds : s.Needs v u := ⟨t, value?_of_mem hs.nodup (h.pending_sub _ hmem), hu⟩
        have hne : u ≠ b.1 := by
          rintro rfl
          exact hfree _ (List.mem_map_of_mem hb) hneeds
        simpa using hne
  obtain ⟨⟨u, y⟩, hfind⟩ := Option.isSome_iff_exists.mp
    (List.find?_isSome.mpr ⟨_, hmem, hready⟩)
  have hfilled := hs.filled _ (h.pending_sub _ (List.mem_of_find?_eq_some hfind))
  obtain ⟨t, rfl⟩ := Option.isSome_iff_exists.mp hfilled
  exact ⟨u, t, hfind⟩

theorem Expanding.exists_expandLoop {fuel : Nat} (hs : s.Proper F)
    (h : Expanding F s pending done) (hfuel : pending.length ≤ fuel) :
    ∃ done', expandLoop fuel pending done = .ok done' := by
  induction fuel generalizing pending done with
  | zero =>
      have hnil : pending = [] := List.eq_nil_of_length_eq_zero (by omega)
      exact ⟨done, expandLoop_zero_eq_ok.mpr ⟨hnil, rfl⟩⟩
  | succ fuel ih =>
      by_cases hne : pending = []
      · exact ⟨done, expandLoop_succ_eq_ok.mpr (.inl ⟨hne, rfl⟩)⟩
      obtain ⟨v, t, hfind⟩ := h.exists_ready hs hne
      have hmem := List.mem_of_find?_eq_some hfind
      have hready : ∀ u ∈ t.vars, ∀ b ∈ pending, b.1 ≠ u := by
        have := List.find?_some hfind
        simp only [ready, Option.all_some, List.all_eq_true] at this
        exact fun u hu => lookup_eq_none_of_isBound (this u hu)
      have hocc : (apply done t).hasVariable v = false := by
        rw [Formula.hasVariable, ← Bool.not_eq_true, List.contains_iff_mem]
        intro hv
        have hunbound := h.value?_of_mem_vars_apply hready hv
        rw [value?_of_mem hs.nodup (h.pending_sub _ hmem)] at hunbound
        cases hunbound
      have hlt : (pending.filter (·.1 != v)).length < pending.length :=
        List.length_filter_lt_length_iff_exists.mpr ⟨_, hmem, by simp⟩
      obtain ⟨done', hloop⟩ := ih (h.step hs hmem hready) (by omega)
      exact ⟨done', expandLoop_succ_eq_ok.mpr (.inr (.inr ⟨v, t, hfind, hocc, hloop⟩))⟩

theorem Proper.exists_expand (hs : s.Proper F) : ∃ s', s.expand = .ok s' := by
  obtain ⟨done, hloop⟩ := (Expanding.start (F := F)).exists_expandLoop hs (Nat.le_refl _)
  exact ⟨done.sorted, expand_eq_ok.mpr ⟨done, hloop, rfl⟩⟩

end Detachment.Substitution

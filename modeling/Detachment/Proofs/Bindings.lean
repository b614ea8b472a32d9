import Detachment.Unification
import Detachment.Proofs.Instantiation
import Mathlib.Algebra.GroupWithZero.Nat
import Mathlib.Data.List.Perm.Subperm
import Mathlib.Logic.Relation

/-!
# Bindings on the way to a unifier

While two formulas are unified, the value of a bound variable may mention other bound variables. A
variable *needs* the variables of its value. The occurs check keeps this relation free of cycles, so
following a variable through the bindings comes to an end at something that is not bound, within the
number of steps that `chase` is given.
-/
namespace Detachment

namespace Formula

variable {α : Type}

/-- The number of a formula that is a variable or its negation. -/
def rootVariable? : Formula α → Option Int
  | leaf _ a => a.varNumber?
  | node _ _ _ _ => none

theorem rootVariable?_signed (b : Bool) (t : Formula α) :
    (t.signed b).rootVariable? = t.rootVariable? := by
  cases b with
  | false => rfl
  | true =>
      cases t with
      | leaf s a => exact a.varNumber?_negate
      | node s c l r => cases c <;> rfl

theorem mem_vars_of_rootVariable? {t : Formula α} {u : Int} (h : t.rootVariable? = some u) :
    u ∈ t.vars := by
  cases t with
  | leaf s a =>
      rw [rootVariable?] at h
      simp [h]
  | node s c l r => cases h

end Formula

namespace Substitution

variable {s : Substitution} {u v : Int} {t : Formula Nat}

/-! ### Looking up -/

theorem value?_eq_some : s.value? v = some t ↔ s.lookup v = some (some t) := by
  unfold value?
  cases s.lookup v <;> simp

theorem mem_of_lookup {s : Substitution} {x : Sheet} (h : s.lookup v = some x) : (v, x) ∈ s := by
  obtain ⟨l₁, l₂, rfl, -⟩ := List.lookup_eq_some_iff.mp h
  simp

theorem lookup_of_mem {s : Substitution} {x : Sheet} (hnd : (s.map Prod.fst).Nodup)
    (h : (v, x) ∈ s) : s.lookup v = some x := by
  obtain ⟨l₁, l₂, rfl⟩ := List.append_of_mem h
  refine List.lookup_eq_some_iff.mpr ⟨l₁, l₂, rfl, fun p hp => ?_⟩
  rw [List.map_append, List.map_cons, List.nodup_append] at hnd
  have hne := hnd.2.2 p.1 (List.mem_map_of_mem hp) v (by simp)
  simpa [bne_iff_ne] using hne.symm

theorem value?_of_mem (hnd : (s.map Prod.fst).Nodup) (h : (v, some t) ∈ s) : s.value? v = some t :=
  value?_eq_some.mpr (lookup_of_mem hnd h)

theorem mem_of_value? (h : s.value? v = some t) : (v, some t) ∈ s :=
  mem_of_lookup (value?_eq_some.mp h)

/-- If no variable is bound to a blank sheet, one without a value is not bound. -/
theorem lookup_eq_none_of_filled (hfill : ∀ b ∈ s, b.2.isSome) (h : s.value? v = none) :
    s.lookup v = none := by
  cases hx : s.lookup v with
  | none => rfl
  | some x =>
      obtain ⟨t, rfl⟩ := Option.isSome_iff_exists.mp (hfill _ (mem_of_lookup hx))
      rw [value?_eq_some.mpr hx] at h
      cases h

theorem lookup_filter_ne (s : Substitution) (h : u ≠ v) :
    (s.filter (·.1 != v)).lookup u = s.lookup u := by
  induction s with
  | nil => rfl
  | cons b s ih =>
      obtain ⟨k, x⟩ := b
      by_cases hk : k = v
      · subst hk
        have hu : (u == k) = false := beq_false_of_ne h
        simp [List.lookup_cons, hu, ih]
      · by_cases hu : u = k
        · subst hu
          simp [hk]
        · have hu' : (u == k) = false := beq_false_of_ne hu
          simp [hk, List.lookup_cons, hu', ih]

theorem lookup_insert (s : Substitution) (u v : Int) (x : Sheet) :
    (s.insert v x).lookup u = if u = v then some x else s.lookup u := by
  unfold insert
  by_cases h : u = v
  · simp [h]
  · have hu : (u == v) = false := beq_false_of_ne h
    rw [List.lookup_cons, hu, lookup_filter_ne s h, if_neg h]

theorem value?_insert (s : Substitution) (u v : Int) (t : Formula Nat) :
    (s.insert v (some t)).value? u = if u = v then some t else s.value? u := by
  unfold value?
  rw [lookup_insert]
  split <;> rfl

theorem nodup_insert (hnd : (s.map Prod.fst).Nodup) (v : Int) (x : Sheet) :
    ((s.insert v x).map Prod.fst).Nodup := by
  unfold insert
  rw [List.map_cons, List.nodup_cons]
  constructor
  · simp
  · exact hnd.sublist (List.filter_sublist.map _)

/-! ### Which variables need which -/

def Needs (s : Substitution) (v u : Int) : Prop :=
  ∃ t, s.value? v = some t ∧ u ∈ t.vars

def Acyclic (s : Substitution) : Prop :=
  ∀ v, ¬Relation.TransGen s.Needs v v

/-- The value of `v` is the variable `u` or its negation. -/
def Hops (s : Substitution) (v u : Int) : Prop :=
  ∃ t, s.value? v = some t ∧ t.rootVariable? = some u

/-- Following a variable from value to value never leads back to it. -/
def Straight (s : Substitution) : Prop :=
  ∀ v, ¬Relation.TransGen s.Hops v v

theorem Hops.needs (h : s.Hops v u) : s.Needs v u := by
  obtain ⟨t, ht, hu⟩ := h
  exact ⟨t, ht, Formula.mem_vars_of_rootVariable? hu⟩

theorem Acyclic.straight (h : s.Acyclic) : s.Straight :=
  fun v hv => h v (Relation.TransGen.mono (fun _ _ => Hops.needs) v v hv)

/-- From a variable that is not bound there is no way on. -/
theorem eq_of_path (hu : s.value? u = none) (h : Relation.ReflTransGen s.Needs u v) : u = v := by
  obtain heq | ⟨x, ⟨t, ht, -⟩, -⟩ := h.cases_head
  · exact heq
  · rw [hu] at ht
    cases ht

theorem needs_insert (hv : s.value? v = none) {x y : Int} :
    (s.insert v (some t)).Needs x y ↔ (x = v ∧ y ∈ t.vars) ∨ s.Needs x y := by
  unfold Needs
  rw [value?_insert]
  by_cases hx : x = v
  · subst hx
    simp [hv]
  · simp [hx]

/-- A path of the extended bindings leads through old ones only, or else old ones lead to `v`. -/
theorem path_of_insert (hv : s.value? v = none) {x w : Int}
    (h : Relation.ReflTransGen (s.insert v (some t)).Needs x w) :
    Relation.ReflTransGen s.Needs x w ∨ Relation.ReflTransGen s.Needs x v := by
  induction h using Relation.ReflTransGen.head_induction_on with
  | refl => exact .inl .refl
  | head hstep _ ih =>
      obtain ⟨rfl, -⟩ | hold := (needs_insert hv).mp hstep
      · exact .inr .refl
      · exact ih.imp (.head hold) (.head hold)

theorem cycle_of_insert (hv : s.value? v = none) {x w : Int}
    (h : Relation.TransGen (s.insert v (some t)).Needs x w) :
    Relation.TransGen s.Needs x w ∨
      Relation.ReflTransGen (s.insert v (some t)).Needs x v ∧
        ∃ u ∈ t.vars, Relation.ReflTransGen (s.insert v (some t)).Needs u w := by
  induction h with
  | single hstep =>
      obtain ⟨rfl, hmem⟩ | hold := (needs_insert hv).mp hstep
      · exact .inr ⟨.refl, _, hmem, .refl⟩
      · exact .inl (.single hold)
  | tail hpath hstep ih =>
      obtain hleft | ⟨hx, u, hu, hright⟩ := ih
      · obtain ⟨rfl, hmem⟩ | hold := (needs_insert hv).mp hstep
        · exact .inr ⟨hpath.to_reflTransGen, _, hmem, .refl⟩
        · exact .inl (hleft.tail hold)
      · exact .inr ⟨hx, u, hu, hright.tail hstep⟩

/-- Binding a variable to a formula that does not lead back to it makes no cycle. -/
theorem acyclic_insert (hs : s.Acyclic) (hv : s.value? v = none)
    (hno : ∀ u ∈ t.vars, ¬Relation.ReflTransGen s.Needs u v) :
    (s.insert v (some t)).Acyclic := by
  intro x hcycle
  obtain hold | ⟨hxv, u, hu, hux⟩ := cycle_of_insert hv hcycle
  · exact hs x hold
  · obtain h | h := path_of_insert hv (hux.trans hxv)
    · exact hno u hu h
    · exact hno u hu h

/-! ### The occurs check -/

/-- The number of variable occurrences in the values of the variables not yet followed. -/
def remaining (s : Substitution) (seen : List Int) : Nat :=
  ((s.filter (·.1 ∉ seen)).map fun b => b.2.elim 0 fun t => t.vars.length).sum

theorem remaining_nil (s : Substitution) : s.remaining [] = s.occurrences := by
  have h (n : Nat) : s.foldl (fun n b => n + b.2.elim 0 fun t => t.vars.length) n =
      n + s.remaining [] := by
    induction s generalizing n with
    | nil => simp [remaining]
    | cons b s ih =>
        rw [List.foldl_cons, ih]
        simp [remaining, Nat.add_assoc]
  rw [occurrences, h, Nat.zero_add]

theorem remaining_cons_le (s : Substitution) (u : Int) (seen : List Int) :
    s.remaining (u :: seen) ≤ s.remaining seen := by
  induction s with
  | nil => exact Nat.le_refl _
  | cons b s ih =>
      unfold remaining at ih ⊢
      by_cases hs : b.1 ∈ seen
      · simpa [hs] using ih
      · by_cases hu : b.1 = u
        · simp only [hu, List.mem_cons, true_or, not_true_eq_false, decide_false, List.filter_cons]
          split <;> simp_all; omega
        · simpa [hs, hu] using ih

theorem remaining_of_value? {seen : List Int} (hu : u ∉ seen) (h : s.value? u = some t) :
    t.vars.length + s.remaining (u :: seen) ≤ s.remaining seen := by
  induction s with
  | nil => simp [value?] at h
  | cons b s ih =>
      obtain ⟨k, x⟩ := b
      by_cases hk : u = k
      · subst hk
        have hx : x = some t := by simpa [value?_eq_some] using h
        have hle := remaining_cons_le s u seen
        unfold remaining at hle ⊢
        simp [hu, hx]
        simpa using hle
      · have hk' : (u == k) = false := beq_false_of_ne hk
        have hrest : Substitution.value? s u = some t := by
          rw [value?_eq_some] at h ⊢
          rwa [List.lookup_cons, hk'] at h
        have hle := ih hrest
        unfold remaining at hle ⊢
        by_cases hs : k ∈ seen
        · simpa [hs] using hle
        · simp [hs, Ne.symm hk]
          simp at hle
          omega

/-- If the loop does not find `v`, then everything it has met is closed under `Needs` and does not
contain `v`. -/
theorem closed_of_reachesLoop {fuel : Nat} (pending seen : List Int)
    (h : s.reachesLoop v fuel pending seen = false)
    (hfuel : pending.length + s.remaining seen ≤ fuel) (hv : v ∉ seen)
    (hseen : ∀ x ∈ seen, ∀ y, s.Needs x y → y ∈ seen ∨ y ∈ pending) :
    ∃ met : List Int, pending ⊆ met ∧ seen ⊆ met ∧ v ∉ met ∧
      ∀ x ∈ met, ∀ y, s.Needs x y → y ∈ met := by
  induction fuel generalizing pending seen with
  | zero =>
      have hnil : pending = [] := List.eq_nil_of_length_eq_zero (by omega)
      subst hnil
      exact ⟨seen, by simp, by simp, hv, fun x hx y hy => by simpa using hseen x hx y hy⟩
  | succ fuel ih =>
      cases pending with
      | nil => exact ⟨seen, by simp, by simp, hv, fun x hx y hy => by simpa using hseen x hx y hy⟩
      | cons u pending =>
          rw [List.length_cons] at hfuel
          rw [reachesLoop] at h
          by_cases huv : u = v
          · simp [huv] at h
          rw [if_neg huv] at h
          by_cases hus : u ∈ seen
          · rw [if_pos (by simpa using hus)] at h
            obtain ⟨met, hpend, hmore, hmet⟩ := ih _ _ h (by omega) hv (by
              intro x hx y hy
              obtain hy | hy := hseen x hx y hy
              · exact .inl hy
              · obtain rfl | hy := List.mem_cons.mp hy
                · exact .inl hus
                · exact .inr hy)
            exact ⟨met, List.cons_subset.mpr ⟨hmore hus, hpend⟩, hmore, hmet⟩
          · rw [if_neg (by simpa using hus)] at h
            have hlen : (((s.value? u).map Formula.vars).getD []).length + s.remaining (u :: seen) ≤
                s.remaining seen := by
              cases hu : s.value? u with
              | none => simpa using remaining_cons_le s u seen
              | some t => simpa using remaining_of_value? hus hu
            obtain ⟨met, hpend, hmore, hmet⟩ := ih _ _ h (by rw [List.length_append]; omega)
              (by simp [hv, Ne.symm huv]) (by
                intro x hx y hy
                obtain rfl | hx := List.mem_cons.mp hx
                · obtain ⟨t, ht, hy⟩ := hy
                  exact .inr (by simp [ht, hy])
                · obtain hy | hy := hseen x hx y hy
                  · exact .inl (by simp [hy])
                  · obtain rfl | hy := List.mem_cons.mp hy
                    · exact .inl (by simp)
                    · exact .inr (by simp [hy]))
            obtain ⟨hu, hmore⟩ := List.cons_subset.mp hmore
            exact ⟨met, List.cons_subset.mpr ⟨hu, fun x hx => hpend (by simp [hx])⟩, hmore, hmet⟩

/-- A variable that the occurs check does not find in a formula is not needed by it. -/
theorem not_path_of_reaches (h : s.reaches v t = false) :
    ∀ u ∈ t.vars, ¬Relation.ReflTransGen s.Needs u v := by
  obtain ⟨met, hpend, -, hv, hclosed⟩ := closed_of_reachesLoop t.vars [] h
    (Nat.le_of_eq (by rw [remaining_nil])) (by simp) (by simp)
  intro u hu hpath
  have hmem : ∀ w, Relation.ReflTransGen s.Needs u w → w ∈ met := by
    intro w hw
    induction hw with
    | refl => exact hpend hu
    | tail _ hstep ih => exact hclosed _ ih _ hstep
  exact hv (hmem v hpath)

theorem exists_path_of_reachesLoop {fuel : Nat} {pending seen : List Int}
    (h : s.reachesLoop v fuel pending seen = true) :
    ∃ u ∈ pending, Relation.ReflTransGen s.Needs u v := by
  induction fuel generalizing pending seen with
  | zero => cases h
  | succ fuel ih =>
      cases pending with
      | nil => cases h
      | cons u pending =>
          rw [reachesLoop] at h
          split at h
          · rename_i huv
            exact ⟨u, by simp, huv ▸ .refl⟩
          · split at h
            · obtain ⟨x, hx, hpath⟩ := ih h
              exact ⟨x, by simp [hx], hpath⟩
            · obtain ⟨x, hx, hpath⟩ := ih h
              obtain hx | hx := List.mem_append.mp hx
              · cases hw : s.value? u with
                | none => simp [hw] at hx
                | some w =>
                    have hneeds : s.Needs u x := ⟨w, hw, by simpa [hw] using hx⟩
                    exact ⟨u, by simp, .head hneeds hpath⟩
              · exact ⟨x, by simp [hx], hpath⟩

/-- The occurs check finds a variable if and only if the formula needs it. -/
theorem reaches_iff :
    s.reaches v t = true ↔ ∃ u ∈ t.vars, Relation.ReflTransGen s.Needs u v := by
  refine ⟨exists_path_of_reachesLoop, fun ⟨u, hu, hpath⟩ => ?_⟩
  by_contra hnot
  exact not_path_of_reaches (by simpa using hnot) u hu hpath

theorem reaches_eq_false (h : ∀ u ∈ t.vars, ¬Relation.ReflTransGen s.Needs u v) :
    s.reaches v t = false := by
  rw [← Bool.not_eq_true, reaches_iff]
  rintro ⟨u, hu, hpath⟩
  exact h u hu hpath

/-! ### Following variables -/

/-- A formula that is a variable but not bound, or no variable at all. -/
def Loose (s : Substitution) : Formula Nat → Prop
  | .leaf _ a => ∀ v, a.varNumber? = some v → s.value? v = none
  | .node _ _ _ _ => True

theorem chase_of_loose (hfill : ∀ b ∈ s, b.2.isSome) (h : s.Loose t) (n : Nat) :
    s.chase n t = some t := by
  cases n with
  | zero => rw [chase]
  | succ n =>
      cases t with
      | node i c l r => rfl
      | leaf i a =>
          rw [chase]
          cases hv : a.varNumber? with
          | none => rfl
          | some v => simp [lookup_eq_none_of_filled hfill (h v hv)]

/-- What holds of a formula holds of what it is followed to, if each hop keeps it. -/
theorem chase_preserves {P : Formula Nat → Prop}
    (hop : ∀ i a v w, a.varNumber? = some v → s.value? v = some w → P (.leaf i a) →
      P (w.signed a.negated))
    {n : Nat} {t t' : Formula Nat} (h : s.chase n t = some t') (ht : P t) : P t' := by
  induction n generalizing t with
  | zero =>
      cases t <;> simp only [chase, Option.some.injEq] at h <;> exact h ▸ ht
  | succ n ih =>
      cases t with
      | node i c l r =>
          simp only [chase, Option.some.injEq] at h
          exact h ▸ ht
      | leaf i a =>
          rw [chase] at h
          cases hv : a.varNumber? with
          | none =>
              simp only [hv, Option.bind_none, Option.some.injEq] at h
              exact h ▸ ht
          | some v =>
              cases hx : s.lookup v with
              | none =>
                  simp only [hv, Option.bind_some, hx, Option.some.injEq] at h
                  exact h ▸ ht
              | some x =>
                  cases x with
                  | none => simp [hv, hx] at h
                  | some w =>
                      simp only [hv, Option.bind_some, hx] at h
                      exact ih h (hop i a v w hv (value?_eq_some.mpr hx) ht)

theorem length_le_of_bound {xs : List Int} (hnd : xs.Nodup)
    (h : ∀ x ∈ xs, ∃ w, s.value? x = some w) : xs.length ≤ s.length := by
  have hsub : xs ⊆ s.map Prod.fst := by
    intro x hx
    obtain ⟨w, hw⟩ := h x hx
    exact List.mem_map_of_mem (f := Prod.fst) (mem_of_value? hw)
  simpa using (hnd.subperm hsub).length_le

/-- The variables `seen` have been followed to `t`. As there are no loops, they are all different,
and there are no more of them than bindings. -/
theorem exists_chase_of_seen (hfill : ∀ b ∈ s, b.2.isSome) (hs : s.Straight) {n : Nat}
    {t : Formula Nat} (seen : List Int) (hn : s.length ≤ n + seen.length) (hnd : seen.Nodup)
    (hbound : ∀ x ∈ seen, ∃ w, s.value? x = some w)
    (hpath : ∀ x ∈ seen, ∀ u, t.rootVariable? = some u → Relation.TransGen s.Hops x u) :
    ∃ t', s.chase n t = some t' ∧ s.Loose t' := by
  have hnew {v : Int} (hv : t.rootVariable? = some v) : v ∉ seen :=
    fun hmem => hs v (hpath v hmem v hv)
  induction n generalizing t seen with
  | zero =>
      cases t with
      | node i c l r => exact ⟨_, rfl, trivial⟩
      | leaf i a =>
          refine ⟨_, rfl, fun v hv => ?_⟩
          by_contra hw
          obtain ⟨w, hw⟩ := Option.ne_none_iff_exists'.mp hw
          have hlen := length_le_of_bound (List.nodup_cons.mpr ⟨hnew hv, hnd⟩)
            (List.forall_mem_cons.mpr ⟨⟨w, hw⟩, hbound⟩)
          rw [List.length_cons] at hlen
          omega
  | succ n ih =>
      cases t with
      | node i c l r => exact ⟨_, rfl, trivial⟩
      | leaf i a =>
          rw [chase]
          cases hv : a.varNumber? with
          | none => exact ⟨_, rfl, fun v h => by simp [hv] at h⟩
          | some v =>
              cases hx : s.lookup v with
              | none =>
                  refine ⟨.leaf i a, by simp [hx], fun u hu => ?_⟩
                  obtain rfl : v = u := by simpa [hv] using hu
                  simp [value?, hx]
              | some x =>
                  obtain ⟨w, rfl⟩ := Option.isSome_iff_exists.mp (hfill _ (mem_of_lookup hx))
                  have hw : s.value? v = some w := value?_eq_some.mpr hx
                  simp only [Option.bind_some, hx]
                  have hpath' : ∀ x ∈ v :: seen, ∀ u, (w.signed a.negated).rootVariable? = some u →
                      Relation.TransGen s.Hops x u := by
                    intro x hxs u hu
                    rw [Formula.rootVariable?_signed] at hu
                    have hstep : s.Hops v u := ⟨w, hw, hu⟩
                    obtain rfl | hxs := List.mem_cons.mp hxs
                    · exact .single hstep
                    · exact (hpath x hxs v hv).tail hstep
                  exact ih (v :: seen) (by simp; omega) (List.nodup_cons.mpr ⟨hnew hv, hnd⟩)
                    (by simpa using ⟨⟨w, hw⟩, hbound⟩) hpath'
                    (fun hv hmem => hs _ (hpath' _ hmem _ hv))

theorem Straight.exists_chase (hs : s.Straight) (hfill : ∀ b ∈ s, b.2.isSome) {n : Nat}
    (hn : s.length ≤ n) (t : Formula Nat) : ∃ t', s.chase n t = some t' ∧ s.Loose t' :=
  exists_chase_of_seen hfill hs [] (by simpa using hn) (by simp) (by simp) (by simp)

theorem exists_chase (hfill : ∀ b ∈ s, b.2.isSome) (hac : s.Acyclic) (t : Formula Nat) :
    ∃ t', s.chase s.length t = some t' ∧ s.Loose t' :=
  hac.straight.exists_chase hfill (Nat.le_refl _) t

end Substitution

end Detachment

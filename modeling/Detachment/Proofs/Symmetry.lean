import Detachment.Proofs.SolvedForm

/-!
# Unification is symmetric

If the operands are exchanged, then so are the two sides of every pair that is worked off. Apart
from this the run changes in one respect only: of two variables that meet, the other one is bound to
the fresh variable first. So the two runs keep the same bindings, in whichever order, and the order
is lost when they are expanded. A run that fails does so where the other one fails, with the sides
of its error exchanged.
-/
namespace Detachment

namespace UnifyError

/-- The error with its left and its right side exchanged. -/
def swap : UnifyError → UnifyError
  | operatorClash l r => operatorClash r l
  | constantClash l r => constantClash r l
  | mismatch l r => mismatch r l
  | emptyOperand => emptyOperand
  | polarityClash v => polarityClash v
  | occursCheck v t => occursCheck v t
  | cycle v => cycle v

theorem swap_swap (e : UnifyError) : e.swap.swap = e := by
  cases e <;> rfl

@[simp] theorem swap_inj {e e' : UnifyError} : e.swap = e'.swap ↔ e = e' :=
  (Function.LeftInverse.injective swap_swap).eq_iff

end UnifyError

/-! ### Bindings in another order -/

namespace Substitution

/-- The same variables are bound to the same values, in whichever order. -/
def Equiv (s s' : Substitution) : Prop :=
  ∀ v, s.lookup v = s'.lookup v

variable {F : Fragment} {s s' : Substitution} {a b : Leaf} {t : Formula Nat}

theorem Equiv.value?_eq (h : s.Equiv s') (v : Int) : s.value? v = s'.value? v := by
  rw [value?, value?, h v]

theorem Equiv.needs_eq (h : s.Equiv s') : s.Needs = s'.Needs := by
  funext v u
  simp only [Needs, h.value?_eq v]

theorem Equiv.reaches_eq (h : s.Equiv s') (v : Int) (t : Formula Nat) :
    s.reaches v t = s'.reaches v t := by
  rw [Bool.eq_iff_iff, reaches_iff, reaches_iff, h.needs_eq]

theorem Equiv.chase_eq (h : s.Equiv s') (n : Nat) (t : Formula Nat) :
    s.chase n t = s'.chase n t := by
  have hlookup : (fun v => s.lookup v) = fun v => s'.lookup v := funext h
  induction n generalizing t with
  | zero => rw [chase, chase]
  | succ n ih =>
      cases t with
      | node i c l r => rfl
      | leaf i a => simp only [chase, hlookup, ih]

/-- A formula is followed to the same end. -/
theorem Equiv.chase_length_eq (h : s.Equiv s') (hs : s.Proper F) (hs' : s'.Proper F)
    (t : Formula Nat) : s.chase s.length t = s'.chase s'.length t := by
  obtain ⟨u, -, hu⟩ := hs.exists_chase_eq t
  obtain ⟨u', -, hu'⟩ := hs'.exists_chase_eq t
  calc s.chase s.length t = some u := hu _ (Nat.le_refl _)
    _ = s.chase (s.length + s'.length) t := (hu _ (Nat.le_add_right _ _)).symm
    _ = s'.chase (s.length + s'.length) t := h.chase_eq _ t
    _ = some u' := hu' _ (Nat.le_add_left _ _)
    _ = s'.chase s'.length t := (hu' _ (Nat.le_refl _)).symm

theorem Equiv.insert (h : s.Equiv s') (v : Int) (x : Sheet) :
    (s.insert v x).Equiv (s'.insert v x) := by
  intro w
  rw [lookup_insert, lookup_insert, h w]

theorem Equiv.insert_insert (h : s.Equiv s') {u v : Int} (hne : u ≠ v) (x y : Sheet) :
    ((s.insert u x).insert v y).Equiv ((s'.insert v y).insert u x) := by
  intro w
  simp only [lookup_insert, h w]
  by_cases hu : w = u
  · subst hu
    simp [hne]
  · simp [hu]

theorem Equiv.exists_bind (h : s.Equiv s') {s₁ : Substitution} (hbind : s.bind a t = .ok s₁) :
    ∃ s₁', s'.bind a t = .ok s₁' ∧ s₁.Equiv s₁' := by
  obtain ⟨hno, rfl⟩ := bind_eq_ok.mp hbind
  rw [h.reaches_eq] at hno
  exact ⟨_, bind_eq_ok.mpr ⟨hno, rfl⟩, h.insert _ _⟩

theorem Equiv.bind_eq_error (h : s.Equiv s') {e : UnifyError} (hbind : s.bind a t = .error e) :
    s'.bind a t = .error e := by
  rw [Substitution.bind_eq_error] at hbind ⊢
  rwa [← h.reaches_eq]

/-- A variable that is not bound can be the value of another one. -/
theorem bind_unbound {u : Int} (hu : s.value? u = none) (ha : u ≠ a.value) :
    s.bind a (.leaf 0 (.var u)) =
      .ok (s.insert a.value (some ((Formula.leaf 0 (.var u)).signed a.negated))) := by
  refine bind_eq_ok.mpr ⟨reaches_eq_false fun x hx hpath => ?_, rfl⟩
  obtain rfl : x = u := by simpa [eq_comm] using hx
  exact ha (eq_of_path hu hpath)

/-- A variable that is not bound can be the value of two others. -/
theorem bind_bind_unbound {u : Int} (hu : s.value? u = none) (ha : u ≠ a.value)
    (hb : u ≠ b.value) :
    ∃ s₁, s.bind a (.leaf 0 (.var u)) = .ok s₁ ∧ s₁.bind b (.leaf 0 (.var u)) =
      .ok ((s.insert a.value (some ((Formula.leaf 0 (.var u)).signed a.negated))).insert b.value
        (some ((Formula.leaf 0 (.var u)).signed b.negated))) := by
  refine ⟨_, bind_unbound hu ha, bind_unbound ?_ hb⟩
  rw [value?_insert, if_neg ha, hu]

/-- Bindings in ascending order are determined by the values of their variables. -/
theorem eq_of_value?_eq (hnd : (s.map Prod.fst).Nodup) (hnd' : (s'.map Prod.fst).Nodup)
    (hfilled : ∀ b ∈ s, b.2.isSome) (hfilled' : ∀ b ∈ s', b.2.isSome)
    (hsorted : s.Pairwise fun b b' => b.1 ≤ b'.1) (hsorted' : s'.Pairwise fun b b' => b.1 ≤ b'.1)
    (h : ∀ v, s.value? v = s'.value? v) : s = s' := by
  have hmem : ∀ b, b ∈ s ↔ b ∈ s' := by
    rintro ⟨v, x⟩
    constructor
    · intro hb
      obtain ⟨t, rfl⟩ := Option.isSome_iff_exists.mp (hfilled _ hb)
      exact mem_of_value? ((h v).symm.trans (value?_of_mem hnd hb))
    · intro hb
      obtain ⟨t, rfl⟩ := Option.isSome_iff_exists.mp (hfilled' _ hb)
      exact mem_of_value? ((h v).trans (value?_of_mem hnd' hb))
  have hperm : s.Perm s' :=
    (List.perm_ext_iff_of_nodup (List.Nodup.of_map _ hnd) (List.Nodup.of_map _ hnd')).mpr hmem
  refine hperm.eq_of_pairwise (fun b b' hb hb' hle hle' => ?_) hsorted hsorted'
  have hkey : b.1 = b'.1 := Int.le_antisymm hle hle'
  exact List.inj_on_of_nodup_map hnd hb ((hmem b').mpr hb') hkey

theorem pairwise_of_expand (h : s.expand = .ok s') : s'.Pairwise fun b b' => b.1 ≤ b'.1 := by
  obtain ⟨done, -, rfl⟩ := expand_eq_ok.mp h
  have hsorted : (sorted done).Pairwise fun b b' => decide (b.1 ≤ b'.1) = true :=
    List.pairwise_mergeSort (fun a b c hab hbc => by simp at *; omega)
      (fun a b => by simp; omega) done
  simpa using hsorted

/-- The order of the bindings is lost when they are expanded. -/
theorem Equiv.expand_eq (h : s.Equiv s') (hs : s.Proper F) (hs' : s'.Proper F) :
    s.expand = s'.expand := by
  obtain ⟨r, hr⟩ := hs.exists_expand
  obtain ⟨r', hr'⟩ := hs'.exists_expand
  have hexp := expanded_of_expand hs hr
  have hexp' := expanded_of_expand hs' hr'
  -- The expanded values of the variables that a variable needs determine its own.
  have hvalue (v : Int) : r.value? v = r'.value? v := by
    induction v using hs.acyclic.induction with
    | hstep v ih =>
        cases ht : s.value? v with
        | none =>
            rw [(hexp.bound_iff v).mpr ht, (hexp'.bound_iff v).mpr ((h.value?_eq v).symm.trans ht)]
        | some t =>
            rw [hexp.expanded v t ht, hexp'.expanded v t ((h.value?_eq v).symm.trans ht),
              apply_congr fun u hu => ih u ⟨t, ht, hu⟩]
  rw [hr, hr', eq_of_value?_eq hexp.nodup hexp'.nodup hexp.filled hexp'.filled
    (pairwise_of_expand hr) (pairwise_of_expand hr') hvalue]

end Substitution

/-! ### Mirrored runs -/

namespace Unification.State

/-- The same state with the sides of all pairs exchanged. -/
structure Mirrors (st st' : State) : Prop where
  bindings : st.bindings.Equiv st'.bindings
  fresh : st.fresh = st'.fresh
  queue : st'.queue = st.queue.map Prod.swap

variable {F : Fragment} {n : Nat} {pool : Finset Int} {st st' st₁ : State} {l r : Formula Nat}
  {e : UnifyError}

/-- Two variables of the pool can be bound to the fresh one, whatever the order of the bindings. -/
theorem Contained.exists_bind_bind (hc : st.Contained n pool) {s : Substitution}
    (hs : st.bindings.Equiv s) {a b : Leaf} (ha : a.value ∈ pool) (hb : b.value ∈ pool) :
    ∃ s₁, s.bind a (.leaf 0 (.var st.fresh)) = .ok s₁ ∧
      s₁.bind b (.leaf 0 (.var st.fresh)) = .ok ((s.insert a.value
        (some ((Formula.leaf 0 (.var st.fresh)).signed a.negated))).insert b.value
          (some ((Formula.leaf 0 (.var st.fresh)).signed b.negated))) := by
  have hlt := hc.fresh a.value ha
  have hlt' := hc.fresh b.value hb
  exact Substitution.bind_bind_unbound ((hs.value?_eq _).symm.trans hc.value?_fresh) (by omega)
    (by omega)

theorem Mirrors.meets (h : st.Mirrors st') (hc : st.Contained n pool) (hl : l.Fits n pool)
    (hr : r.Fits n pool) (hmeets : st.Meets l r st₁) :
    ∃ st₁', st'.Meets r l st₁' ∧ st₁.Mirrors st₁' := by
  cases hmeets with
  | parts i j c l₁ r₁ l₂ r₂ =>
      exact ⟨_, .parts j i c l₂ r₂ l₁ r₁, h.bindings, h.fresh, by simp [h.queue]⟩
  | same i j ha => exact ⟨st', .same j i ha, h⟩
  | left i ha ht hbind =>
      obtain ⟨s', hs', hequiv⟩ := h.bindings.exists_bind hbind
      exact ⟨_, .right i ha ht hs', hequiv, h.fresh, h.queue⟩
  | right j hb ht hbind =>
      obtain ⟨s', hs', hequiv⟩ := h.bindings.exists_bind hbind
      exact ⟨_, .left j hb ht hs', hequiv, h.fresh, h.queue⟩
  | @fresh i j a b _ _ ha hb hne hbind hbind' =>
      obtain ⟨-, rfl⟩ := Substitution.bind_eq_ok.mp hbind
      obtain ⟨-, rfl⟩ := Substitution.bind_eq_ok.mp hbind'
      -- The other run binds `b` first.
      obtain ⟨s, hs, hs'⟩ :=
        hc.exists_bind_bind h.bindings (mem_of_fits hb hr) (mem_of_fits ha hl)
      have hequiv := h.bindings.insert_insert hne
        (some ((Formula.leaf 0 (.var st.fresh)).signed a.negated))
        (some ((Formula.leaf 0 (.var st.fresh)).signed b.negated))
      rw [h.fresh] at hs hs'
      refine ⟨_, .fresh j i hb ha hne.symm hs hs', ?_, congrArg (· + 1) h.fresh, h.queue⟩
      rwa [← h.fresh]

theorem Mirrors.clashes (h : st.Mirrors st') (hc : st.Contained n pool) (hl : l.Fits n pool)
    (hr : r.Fits n pool) (hclash : st.Clashes l r e) : st'.Clashes r l e.swap := by
  cases hclash with
  | connectives i j _ _ _ _ hne => exact .connectives j i _ _ _ _ hne.symm
  | constants i j ha hb hne => exact .constants j i hb ha (Ne.symm hne)
  | @signs i j a b ha hb hv hne =>
      rw [UnifyError.swap, hv]
      exact .signs j i hb ha hv.symm (Ne.symm hne)
  | left i ha ht hbind =>
      obtain ⟨-, rfl⟩ := Substitution.bind_eq_error.mp hbind
      exact .right i ha ht (h.bindings.bind_eq_error hbind)
  | right j hb ht hbind =>
      obtain ⟨-, rfl⟩ := Substitution.bind_eq_error.mp hbind
      exact .left j hb ht (h.bindings.bind_eq_error hbind)
  | fresh i j ha hb hne hbind =>
      -- Nothing can be reached from the fresh variable, so this does not happen.
      obtain ⟨s, hs, hs'⟩ :=
        hc.exists_bind_bind (fun _ => rfl) (mem_of_fits ha hl) (mem_of_fits hb hr)
      rw [hs] at hbind
      cases hs'.symm.trans hbind
  | unknown i j hkind => exact .unknown j i hkind.symm
  | leafNode i j c l r ha => exact .nodeLeaf j i c l r ha
  | nodeLeaf i j c l r hb => exact .leafNode j i c l r hb

section step

variable (h : st.Mirrors st') (hst : st.Proper F) (hst' : st'.Proper F)
  (hc : st.Contained n pool) (hl : l.Fits n pool) (hr : r.Fits n pool)
include h hst hst' hc hl hr

/-- Both runs follow a pair to the same two formulas. -/
theorem Mirrors.exists_step_eq :
    ∃ l' r', l'.Fits n pool ∧ r'.Fits n pool ∧ st.step l r = st.meet l' r' ∧
      st'.step r l = st'.meet r' l' := by
  have hs := hst.bindings
  obtain ⟨l', hl', -⟩ := Substitution.exists_chase hs.filled hs.acyclic l
  obtain ⟨r', hr', -⟩ := Substitution.exists_chase hs.filled hs.acyclic r
  refine ⟨l', r', hc.bindings.chase hl hl', hc.bindings.chase hr hr', ?_, ?_⟩
  · rw [step, hl', hr']
  · rw [step, ← h.bindings.chase_length_eq hs hst'.bindings r,
      ← h.bindings.chase_length_eq hs hst'.bindings l, hl', hr']

theorem Mirrors.step (hstep : st.step l r = .ok st₁) :
    ∃ st₁', st'.step r l = .ok st₁' ∧ st₁.Mirrors st₁' := by
  obtain ⟨l', r', hl', hr', heq, heq'⟩ := h.exists_step_eq hst hst' hc hl hr
  rw [heq] at hstep
  obtain ⟨st₁', hmeets, hmirrors⟩ := h.meets hc hl' hr' (meets_of_meet hstep)
  exact ⟨st₁', heq'.trans (meet_of_meets hmeets), hmirrors⟩

theorem Mirrors.step_eq_error (hstep : st.step l r = .error e) :
    st'.step r l = .error e.swap := by
  obtain ⟨l', r', hl', hr', heq, heq'⟩ := h.exists_step_eq hst hst' hc hl hr
  rw [heq] at hstep
  exact heq'.trans (meet_of_clashes (h.clashes hc hl' hr' (clashes_of_meet hstep)))

end step

theorem Mirrors.pop {rest : List (Formula Nat × Formula Nat)} (h : st.Mirrors st')
    (hq : st.queue = (l, r) :: rest) :
    st'.queue = (r, l) :: rest.map Prod.swap ∧
      State.Mirrors { st with queue := rest } { st' with queue := rest.map Prod.swap } := by
  refine ⟨?_, h.bindings, h.fresh, rfl⟩
  rw [h.queue, hq]
  rfl

theorem Mirrors.turn (h : st.Mirrors st') (hst : st.Proper F) (hst' : st'.Proper F)
    (hc : st.Contained n pool) (hturn : st.Turn st₁) :
    ∃ st₁', st'.Turn st₁' ∧ st₁.Mirrors st₁' := by
  obtain ⟨l, r, rest, hq, hstep⟩ := hturn
  obtain ⟨hq', hpopped⟩ := h.pop hq
  obtain ⟨hfits, hc'⟩ := hc.pop hq
  obtain ⟨st₁', hstep', hmirrors⟩ :=
    hpopped.step (hst.pop hq).2 (hst'.pop hq').2 hc' hfits.1 hfits.2 hstep
  exact ⟨st₁', ⟨r, l, _, hq', hstep'⟩, hmirrors⟩

/-- Whatever one run comes to, the other comes to its mirror image in as many turns. -/
theorem Mirrors.runs {k : Nat} (h : st.Mirrors st') (hst : st.Proper F) (hst' : st'.Proper F)
    (hc : st.Contained n pool) (hruns : st.Runs k st₁) :
    ∃ st₁', st'.Runs k st₁' ∧ st₁.Mirrors st₁' := by
  induction hruns with
  | start => exact ⟨st', .start, h⟩
  | turn hruns hturn ih =>
      obtain ⟨st₂', hruns', hmirrors⟩ := ih
      obtain ⟨pool', -, hc', -⟩ := hruns.contained hst hc
      obtain ⟨st₃', hturn', hmirrors'⟩ :=
        hmirrors.turn (hruns.proper hst) (hruns'.proper hst') hc' hturn
      exact ⟨st₃', .turn hruns' hturn', hmirrors'⟩

theorem mirrors_initial (floor : Int) (l r : Formula Nat) :
    (State.initial floor l r).Mirrors (State.initial floor r l) where
  bindings _ := rfl
  fresh := by simp only [State.initial, Int.max_comm l.maxVariable]
  queue := rfl

end Unification.State

open Unification

/-- Exchanging the operands exchanges the sides of the error, if there is one, and nothing else. -/
theorem unifyAbove_swap (floor : Int) (l r : Formula Nat) :
    unifyAbove floor r l = (unifyAbove floor l r).mapError UnifyError.swap := by
  have hst := State.proper_initial floor l.within_full r.within_full
  have hst' := State.proper_initial floor r.within_full l.within_full
  have hc := State.contained_initial floor l r
  obtain ⟨n, st, hruns, hend⟩ := exists_runs_of_unifyAbove floor l r
  obtain ⟨st', hruns', h⟩ := (State.mirrors_initial floor l r).runs hst hst' hc hruns
  have hproper := hruns.proper hst
  have hproper' := hruns'.proper hst'
  obtain ⟨hq, s, hexpand, hs⟩ | ⟨x, y, rest, e, hq, hstep, he⟩ := hend
  · have hq' : st'.queue = [] := by rw [h.queue, hq, List.map_nil]
    rw [h.bindings.expand_eq hproper.bindings hproper'.bindings] at hexpand
    rw [hs, unifyAbove_of_runs hruns' hq' hexpand]
    rfl
  · obtain ⟨pool, -, hcontained, -⟩ := hruns.contained hst hc
    obtain ⟨hfits, hc'⟩ := hcontained.pop hq
    obtain ⟨hq', hpopped⟩ := h.pop hq
    have hstep' := hpopped.step_eq_error (hproper.pop hq).2 (hproper'.pop hq').2 hc' hfits.1
      hfits.2 hstep
    rw [he, unifyAbove_eq_error_of_runs hruns' hq' hstep']
    rfl

theorem Sheet.unifyAbove_swap (floor : Int) (l r : Sheet) :
    Sheet.unifyAbove floor r l = (Sheet.unifyAbove floor l r).mapError UnifyError.swap := by
  cases l with
  | none => cases r <;> rfl
  | some l =>
      cases r with
      | none => rfl
      | some r => exact Detachment.unifyAbove_swap floor l r

/-- Unification is symmetric, whatever its operands and the floor. Both orders of the operands have
the same unifier. If one of them fails, then so does the other, for the same reason and with the
left and the right side of it exchanged. -/
theorem unification_symmetric (floor : Int) (l r : Sheet) :
    (∀ s, Sheet.unifyAbove floor l r = .ok s ↔ Sheet.unifyAbove floor r l = .ok s) ∧
      ∀ e, Sheet.unifyAbove floor l r = .error e ↔
        Sheet.unifyAbove floor r l = .error e.swap := by
  rw [Sheet.unifyAbove_swap floor l r]
  cases Sheet.unifyAbove floor l r with
  | ok s => simp [Except.mapError]
  | error e => simp [Except.mapError]

end Detachment

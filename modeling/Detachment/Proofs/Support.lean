import Detachment.Chain
import Detachment.Proofs.Journal
import Mathlib.Data.List.Perm.Subperm
import Mathlib.Data.Set.Basic
import Mathlib.Logic.Relation

/-!
# What a proof rests on

The derivation of a formula cites the formulas it was obtained from, and the formulas that are
reached in this way make up the support of a proof. The breadth-first search for its premises meets
the whole support. So either it comes upon a formula of the support that has no derivation and says
which, or all of them are recorded and it finds exactly those among them that are premises.
-/
namespace Detachment

theorem Derivation.parents_of_premise {d : Derivation} (h : d.rule = .premise) :
    d.parents = [] := by
  simp [parents, h]

theorem Derivation.length_parents_le (d : Derivation) : d.parents.length ≤ 2 := by
  unfold parents
  cases d.rule <;> simp

namespace Ledger

/-- The derivation of `f` names `p` as one of its premises. -/
def Cites (ledger : Ledger) (f p : String) : Prop :=
  ∃ d, ledger[f]? = some d ∧ p ∈ d.parents

/-- The formula itself, those that its derivation cites, and so on. -/
def support (ledger : Ledger) (proof : String) : Set String :=
  {f | Relation.ReflTransGen ledger.Cites proof f}

/-- Every derivation is kept under its own formula. -/
def Keyed (ledger : Ledger) : Prop :=
  ∀ (f : String) (d : Derivation), ledger[f]? = some d → d.formula = f

variable {ledger : Ledger} {proof f p : String} {d : Derivation}

theorem Keyed.add (h : ledger.Keyed) (d : Derivation) : (ledger.add d).Keyed := by
  intro f e he
  rw [Ledger.add, Std.HashMap.getElem?_insertIfNew] at he
  split at he
  · rename_i hf
    cases he
    simpa using hf.1
  · exact h f e he

/-- Whatever derivations a ledger is made of, it keeps them under their formulas. -/
theorem keyed_foldl (ds : List Derivation) : (ds.foldl Ledger.add ∅).Keyed := by
  have hkeyed (ledger : Ledger) (h : ledger.Keyed) : (ds.foldl Ledger.add ledger).Keyed := by
    induction ds generalizing ledger with
    | nil => exact h
    | cons d ds ih => exact ih _ (h.add d)
  exact hkeyed ∅ fun f d hd => by simp at hd

theorem mem_support_self (ledger : Ledger) (proof : String) : proof ∈ ledger.support proof :=
  Relation.ReflTransGen.refl

theorem support_cited (hf : f ∈ ledger.support proof) (h : ledger.Cites f p) :
    p ∈ ledger.support proof :=
  Relation.ReflTransGen.tail hf h

/-- A set that is closed under citing contains the support of each of its members. -/
theorem support_induction {P : String → Prop} (hproof : P proof)
    (hcites : ∀ f p, P f → ledger.Cites f p → P p) (hf : f ∈ ledger.support proof) : P f := by
  induction hf with
  | refl => exact hproof
  | tail _ hstep ih => exact hcites _ _ ih hstep

theorem mem_of_getElem? (h : ledger[f]? = some d) : f ∈ ledger := by
  rw [Std.HashMap.mem_iff_isSome_getElem?, h]
  rfl

theorem not_mem_of_getElem? (h : ledger[f]? = none) : f ∉ ledger := by
  rw [Std.HashMap.mem_iff_isSome_getElem?, h]
  exact Bool.false_ne_true

theorem exists_of_mem (h : f ∈ ledger) : ∃ d, ledger[f]? = some d :=
  Option.isSome_iff_exists.mp (Std.HashMap.mem_iff_isSome_getElem?.mp h)

/-- There are no more different formulas with a derivation than the ledger has entries. -/
theorem length_le_size {fs : List String} (hnd : fs.Nodup) (h : ∀ f ∈ fs, f ∈ ledger) :
    fs.length ≤ ledger.size := by
  have hsub : fs ⊆ ledger.keys := fun f hf => Std.HashMap.mem_keys.mpr (h f hf)
  rw [← Std.HashMap.length_keys]
  exact (hnd.subperm hsub).length_le

/-! ### Gathering the premises -/

section turn

variable (fuel : Nat) (queue : List String) {seen : List String} (found : List Derivation)

theorem gatherLoop_seen (h : f ∈ seen) :
    ledger.gatherLoop (fuel + 1) (f :: queue) seen found =
      ledger.gatherLoop fuel queue seen found := by
  rw [gatherLoop, if_pos (List.contains_iff_mem.mpr h)]

theorem gatherLoop_missing (h : f ∉ seen) (hf : ledger[f]? = none) :
    ledger.gatherLoop (fuel + 1) (f :: queue) seen found = .error (.missingDerivation f) := by
  have hseen : ¬seen.contains f = true := fun hc => h (List.contains_iff_mem.mp hc)
  rw [gatherLoop, if_neg hseen, get, hf]

theorem gatherLoop_recorded (h : f ∉ seen) (hd : ledger[f]? = some d) :
    ledger.gatherLoop (fuel + 1) (f :: queue) seen found =
      ledger.gatherLoop fuel (queue ++ d.parents) (f :: seen)
        (if d.rule = .premise then d :: found else found) := by
  have hseen : ¬seen.contains f = true := fun hc => h (List.contains_iff_mem.mp hc)
  rw [gatherLoop, if_neg hseen, get, hd]
  dsimp only
  cases hrule : d.rule with
  | premise => simp [Derivation.parents, hrule]
  | modusPonens minor major => simp [Derivation.parents, hrule]

end turn

/-- What holds between turns of the search: everything met belongs to the support, and what a
formula already seen cites has been seen or is waiting. -/
structure Gathering (ledger : Ledger) (proof : String) (queue seen : List String)
    (found : List Derivation) : Prop where
  start : proof ∈ queue ∨ proof ∈ seen
  supported : ∀ f, f ∈ queue ∨ f ∈ seen → f ∈ ledger.support proof
  nodup : seen.Nodup
  recorded : ∀ f ∈ seen, f ∈ ledger
  cited : ∀ f ∈ seen, ∀ p, ledger.Cites f p → p ∈ queue ∨ p ∈ seen
  found_nodup : (found.map Derivation.formula).Nodup
  mem_found : ∀ d, d ∈ found ↔
    d.formula ∈ seen ∧ ledger[d.formula]? = some d ∧ d.rule = .premise

namespace Gathering

variable {queue seen : List String} {found : List Derivation}

theorem initial (ledger : Ledger) (proof : String) : Gathering ledger proof [proof] [] [] where
  start := by simp
  supported := by simp [mem_support_self]
  nodup := by simp
  recorded := by simp
  cited := by simp
  found_nodup := by simp
  mem_found := by simp

theorem skip (h : Gathering ledger proof (f :: queue) seen found) (hf : f ∈ seen) :
    Gathering ledger proof queue seen found := by
  have hpop {g : String} (hg : g ∈ f :: queue ∨ g ∈ seen) : g ∈ queue ∨ g ∈ seen := by
    obtain hg | hg := hg
    · obtain rfl | hg := List.mem_cons.mp hg
      · exact .inr hf
      · exact .inl hg
    · exact .inr hg
  exact ⟨hpop h.start, fun g hg => h.supported g (hg.imp_left (List.mem_cons_of_mem f)), h.nodup,
    h.recorded, fun g hg p hp => hpop (h.cited g hg p hp), h.found_nodup, h.mem_found⟩

theorem visit (hkeyed : ledger.Keyed) (h : Gathering ledger proof (f :: queue) seen found)
    (hf : f ∉ seen) (hd : ledger[f]? = some d) :
    Gathering ledger proof (queue ++ d.parents) (f :: seen)
      (if d.rule = .premise then d :: found else found) := by
  have hformula : d.formula = f := hkeyed f d hd
  have hsupport : f ∈ ledger.support proof := h.supported f (.inl (by simp))
  have hmove {g : String} (hg : g ∈ f :: queue ∨ g ∈ seen) :
      g ∈ queue ++ d.parents ∨ g ∈ f :: seen := by
    simp only [List.mem_cons, List.mem_append] at hg ⊢
    tauto
  constructor
  case start => exact hmove h.start
  case supported =>
    intro g hg
    by_cases hparent : g ∈ d.parents
    · exact support_cited hsupport ⟨d, hd, hparent⟩
    · refine h.supported g ?_
      simp only [List.mem_cons, List.mem_append] at hg ⊢
      tauto
  case nodup => exact List.nodup_cons.mpr ⟨hf, h.nodup⟩
  case recorded => exact List.forall_mem_cons.mpr ⟨mem_of_getElem? hd, h.recorded⟩
  case cited =>
    intro g hg p hp
    obtain rfl | hg := List.mem_cons.mp hg
    · obtain ⟨e, he, hp⟩ := hp
      obtain rfl : d = e := Option.some.inj (hd.symm.trans he)
      exact .inl (List.mem_append_right _ hp)
    · exact hmove (h.cited g hg p hp)
  case found_nodup =>
    split
    · rw [List.map_cons, List.nodup_cons]
      refine ⟨fun hmem => ?_, h.found_nodup⟩
      obtain ⟨e, he, heq⟩ := List.mem_map.mp hmem
      have hseen := ((h.mem_found e).mp he).1
      rw [heq, hformula] at hseen
      exact hf hseen
    · exact h.found_nodup
  case mem_found =>
    intro e
    have hfound := h.mem_found e
    by_cases he : e.formula = f
    · -- The derivation of `f` is the only one of that formula.
      have honly : ledger[e.formula]? = some e ↔ e = d := by
        rw [he, hd, Option.some.injEq, eq_comm]
      have hnot : e ∉ found := fun hmem => hf (he ▸ (hfound.mp hmem).1)
      rw [honly]
      split
      · rename_i hrule
        constructor
        · intro hmem
          obtain rfl := (List.mem_cons.mp hmem).resolve_right hnot
          exact ⟨by simp [he], rfl, hrule⟩
        · rintro ⟨-, rfl, -⟩
          exact List.mem_cons_self
      · rename_i hrule
        refine iff_of_false hnot ?_
        rintro ⟨-, rfl, h⟩
        exact hrule h
    · have hne : e ≠ d := by
        rintro rfl
        exact he hformula
      split
      · simp [hne, hfound, he]
      · simp [hfound, he]

/-- The search comes upon a formula without a derivation, or it ends with nothing left to do. Each
formula with a derivation puts at most two into the queue. -/
theorem cases (hkeyed : ledger.Keyed) {fuel : Nat}
    (h : Gathering ledger proof queue seen found)
    (hfuel : queue.length + 2 * ledger.size ≤ fuel + 2 * seen.length) :
    (∃ f ∈ ledger.support proof, ledger[f]? = none ∧
      ledger.gatherLoop fuel queue seen found = .error (.missingDerivation f)) ∨
    ∃ seen' found', ledger.gatherLoop fuel queue seen found = .ok found'.reverse ∧
      Gathering ledger proof [] seen' found' := by
  induction fuel generalizing queue seen found with
  | zero =>
      have hlength := length_le_size h.nodup h.recorded
      have hnil : queue = [] := List.eq_nil_of_length_eq_zero (by omega)
      subst hnil
      exact .inr ⟨seen, found, rfl, h⟩
  | succ fuel ih =>
      cases queue with
      | nil => exact .inr ⟨seen, found, rfl, h⟩
      | cons f queue =>
          rw [List.length_cons] at hfuel
          by_cases hseen : f ∈ seen
          · rw [gatherLoop_seen fuel queue found hseen]
            exact ih (h.skip hseen) (by omega)
          · cases hd : ledger[f]? with
            | none =>
                exact .inl ⟨f, h.supported f (.inl (by simp)), hd,
                  gatherLoop_missing fuel queue found hseen hd⟩
            | some d =>
                rw [gatherLoop_recorded fuel queue found hseen hd]
                refine ih (h.visit hkeyed hseen hd) ?_
                have := d.length_parents_le
                rw [List.length_append, List.length_cons]
                omega

/-- When nothing is left to do, the whole support has been seen. -/
theorem mem_seen_iff (h : Gathering ledger proof [] seen found) :
    f ∈ seen ↔ f ∈ ledger.support proof := by
  constructor
  · exact fun hf => h.supported f (.inr hf)
  · refine support_induction (P := (· ∈ seen)) ?_ fun f p hf hp => ?_
    · simpa using h.start
    · simpa using h.cited f hf p hp

end Gathering

/-- The premises of a proof are gathered unless something it rests on has no derivation. -/
theorem gather_cases (hkeyed : ledger.Keyed) (proof : String) :
    (∃ f ∈ ledger.support proof, ledger[f]? = none ∧
      ledger.gather proof = .error (.missingDerivation f)) ∨
    (∀ f ∈ ledger.support proof, f ∈ ledger) ∧ ∃ ds, ledger.gather proof = .ok ds ∧
      (ds.map Derivation.formula).Nodup ∧ ∀ d, d ∈ ds ↔
        d.formula ∈ ledger.support proof ∧ ledger[d.formula]? = some d ∧ d.rule = .premise := by
  have hfuel : [proof].length + 2 * ledger.size ≤ 2 * ledger.size + 2 + 2 * 0 := by
    rw [List.length_singleton]
    omega
  obtain hmissing | ⟨seen, found, hgather, hend⟩ :=
    (Gathering.initial ledger proof).cases hkeyed hfuel
  · exact .inl hmissing
  · refine .inr ⟨fun f hf => hend.recorded f (hend.mem_seen_iff.mpr hf), found.reverse, hgather,
      ?_, fun d => ?_⟩
    · rw [List.map_reverse]
      exact (List.reverse_perm _).nodup_iff.mpr hend.found_nodup
    · rw [List.mem_reverse, hend.mem_found, hend.mem_seen_iff]

end Ledger

end Detachment

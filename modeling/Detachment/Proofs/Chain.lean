import Detachment.Proofs.Support
import Mathlib.Data.List.Forall2
import Mathlib.Data.Set.Card

/-!
# Replaying a proof

If everything that a proof rests on has a derivation, then the replay succeeds and tells each
formula of the support once: first the premises, then what is derived, and the proved formula last.
A step refers to the steps of the formulas that its derivation cites.

Formulas are visited depth first. The visits that are under way form a path of citations down to the
formula just visited. So a formula that is cited while its own visit is under way rests on the one
that cites it, and all other cited formulas are numbered before. If the ledger is not circular,
steps therefore refer to earlier ones only.
-/
namespace Detachment.Ledger

variable {ledger : Ledger} {proof f : String} {d : Derivation}

open Relation

/-! ### The order of the steps -/

namespace Trail

variable {t t' t'' : Trail}

/-- Some derivation of the trail is one of `f`. -/
def Numbered (t : Trail) (f : String) : Prop :=
  ∃ d ∈ t.order, d.formula = f

theorem isSome_number? : (t.number? f).isSome = true ↔ t.Numbered f := by
  simp [number?, Numbered, List.findIdx?_isSome]

theorem Numbered.mono (h : t.Numbered f) (hpre : t.order <+: t'.order) : t'.Numbered f := by
  obtain ⟨d, hd, hf⟩ := h
  exact ⟨d, hpre.subset hd, hf⟩

/-- What holds of a trail all along. The derivations belong to the support of a proof, no two of
them are of the same formula, and each comes after those it cites, unless the visit of a cited
formula has led to it. -/
structure Orderly (ledger : Ledger) (proof : String) (t : Trail) : Prop where
  recorded : ∀ d ∈ t.order, d.formula ∈ ledger.support proof ∧ ledger[d.formula]? = some d
  nodup : (t.order.map Derivation.formula).Nodup
  after : ∀ (i : Nat) (d : Derivation), t.order[i]? = some d → ∀ p ∈ d.parents,
    (∃ j < i, ∃ e, t.order[j]? = some e ∧ e.formula = p) ∨
      p ∈ t.entered ∧ ReflTransGen ledger.Cites p d.formula
  entered_nodup : t.entered.Nodup
  entered_mem : ∀ f ∈ t.entered, f ∈ ledger

theorem Orderly.enter (h : t.Orderly ledger proof) (hf : f ∈ ledger) (hnew : f ∉ t.entered) :
    Orderly ledger proof { t with entered := f :: t.entered } where
  recorded := h.recorded
  nodup := h.nodup
  after i d hd p hp := (h.after i d hd p hp).imp_right fun hp => ⟨List.mem_cons_of_mem f hp.1, hp.2⟩
  entered_nodup := List.nodup_cons.mpr ⟨hnew, h.entered_nodup⟩
  entered_mem := List.forall_mem_cons.mpr ⟨hf, h.entered_mem⟩

theorem Orderly.snoc (h : t.Orderly ledger proof) (hf : d.formula ∈ ledger.support proof)
    (hd : ledger[d.formula]? = some d) (hnew : ¬t.Numbered d.formula)
    (hparents : ∀ p ∈ d.parents,
      t.Numbered p ∨ p ∈ t.entered ∧ ReflTransGen ledger.Cites p d.formula) :
    Orderly ledger proof { t with order := t.order ++ [d] } where
  recorded := by
    intro e he
    obtain he | he := List.mem_append.mp he
    · exact h.recorded e he
    · obtain rfl := List.mem_singleton.mp he
      exact ⟨hf, hd⟩
  nodup := by
    rw [List.map_append, List.nodup_append]
    refine ⟨h.nodup, by simp, ?_⟩
    rintro x hx y hy rfl
    obtain ⟨e, he, rfl⟩ := List.mem_map.mp hx
    exact hnew ⟨e, he, by simpa using hy⟩
  after := by
    intro i e he p hp
    dsimp only at he ⊢
    obtain hi | hi := Nat.lt_or_ge i t.order.length
    · rw [List.getElem?_append_left hi] at he
      refine (h.after i e he p hp).imp_left ?_
      rintro ⟨j, hj, x, hx, hxp⟩
      exact ⟨j, hj, x, by rw [List.getElem?_append_left (by omega), hx], hxp⟩
    · rw [List.getElem?_append_right hi] at he
      obtain ⟨hzero, rfl⟩ : i - t.order.length = 0 ∧ d = e := by
        simpa [List.getElem?_singleton] using he
      refine (hparents p hp).imp_left ?_
      rintro ⟨x, hx, hxp⟩
      obtain ⟨j, hj, rfl⟩ := List.mem_iff_getElem.mp hx
      exact ⟨j, by omega, _, by rw [List.getElem?_append_left hj, List.getElem?_eq_getElem hj],
        hxp⟩
  entered_nodup := h.entered_nodup
  entered_mem := h.entered_mem

/-- The trail `t'` goes on from `t`. It numbers every formula whose visit it has begun, and none
whose visit was under way. -/
structure Extends (t t' : Trail) : Prop where
  order : t.order <+: t'.order
  entered : t.entered <:+ t'.entered
  closed : ∀ f ∈ t'.entered, f ∈ t.entered ∨ t'.Numbered f
  kept : ∀ f ∈ t.entered, t'.Numbered f → t.Numbered f

theorem Extends.refl (t : Trail) : t.Extends t :=
  ⟨List.prefix_rfl, List.suffix_rfl, fun _ hf => .inl hf, fun _ _ hf => hf⟩

theorem Extends.trans (h : t.Extends t') (h' : t'.Extends t'') : t.Extends t'' where
  order := h.order.trans h'.order
  entered := h.entered.trans h'.entered
  closed f hf := by
    obtain hf | hf := h'.closed f hf
    · exact (h.closed f hf).imp_right fun hn => hn.mono h'.order
    · exact .inr hf
  kept f hf hn := h.kept f hf (h'.kept f (h.entered.subset hf) hn)

/-- A visit ends by numbering its formula. -/
theorem Extends.close (h : Extends { t with entered := d.formula :: t.entered } t')
    (hnew : d.formula ∉ t.entered) : t.Extends { t' with order := t'.order ++ [d] } where
  order := h.order.trans (List.prefix_append _ _)
  entered := (List.suffix_cons _ _).trans h.entered
  closed f hf := by
    obtain hf | hf := h.closed f hf
    · obtain rfl | hf := List.mem_cons.mp hf
      · exact .inr ⟨d, by simp, rfl⟩
      · exact .inl hf
    · exact .inr (hf.mono (List.prefix_append _ _))
  kept f hf hn := by
    obtain ⟨e, he, rfl⟩ := hn
    obtain he | he := List.mem_append.mp he
    · exact h.kept _ (List.mem_cons_of_mem _ hf) ⟨e, he, rfl⟩
    · obtain rfl := List.mem_singleton.mp he
      exact absurd hf hnew

/-- The visits that are under way lead to `f`. -/
def Leads (ledger : Ledger) (f : String) (t : Trail) : Prop :=
  ∀ e ∈ t.entered, t.Numbered e ∨ ReflTransGen ledger.Cites e f

theorem Leads.enter (h : t.Leads ledger f) :
    Leads ledger f { t with entered := f :: t.entered } := by
  intro e he
  obtain rfl | he := List.mem_cons.mp he
  · exact .inr .refl
  · exact h e he

theorem Leads.extend (h : t.Leads ledger f) (hext : t.Extends t') : t'.Leads ledger f := by
  intro e he
  obtain he | he := hext.closed e he
  · exact (h e he).imp_left fun hn => hn.mono hext.order
  · exact .inl he

end Trail

open Trail

/-- What a visit of `f` comes to. If `f` has no number afterwards, its visit was under way
before. -/
structure Visited (ledger : Ledger) (proof f : String) (t t' : Trail) : Prop where
  extension : t.Extends t'
  orderly : t'.Orderly ledger proof
  numbered : t'.Numbered f ∨ f ∈ t.entered

/-- Visits of several formulas, one after the other. -/
theorem visited_foldl {fuel : Nat} (ps : List String)
    (ih : ∀ p ∈ ps, ∀ t : Trail, t.Orderly ledger proof → t.Leads ledger f →
      ledger.size < fuel + t.entered.length → ledger.Visited proof p t (ledger.visit fuel p t))
    {t : Trail} (ht : t.Orderly ledger proof) (hleads : t.Leads ledger f)
    (hfuel : ledger.size < fuel + t.entered.length) :
    let t' := ps.foldl (fun t p => ledger.visit fuel p t) t
    t.Extends t' ∧ t'.Orderly ledger proof ∧ ∀ p ∈ ps, t'.Numbered p ∨ p ∈ t.entered := by
  induction ps generalizing t with
  | nil => exact ⟨.refl t, ht, by simp⟩
  | cons p ps ihps =>
      have hp := ih p (by simp) t ht hleads hfuel
      have hlength := hp.extension.entered.length_le
      obtain ⟨hext, horderly, hnum⟩ := ihps (fun q hq => ih q (by simp [hq])) hp.orderly
        (hleads.extend hp.extension) (by omega)
      refine ⟨hp.extension.trans hext, horderly, fun q hq => ?_⟩
      obtain rfl | hq := List.mem_cons.mp hq
      · exact hp.numbered.imp_left fun hn => hn.mono hext.order
      · obtain hq | hq := hnum q hq
        · exact .inl hq
        · exact (hp.extension.closed q hq).symm.imp_left fun hn => hn.mono hext.order

/-- A visit numbers its formula after what it rests on. Its fuel suffices, since no formula is
entered twice. -/
theorem visited_visit (hkeyed : ledger.Keyed) (hrec : ∀ f ∈ ledger.support proof, f ∈ ledger)
    {fuel : Nat} {f : String} (hf : f ∈ ledger.support proof) {t : Trail}
    (ht : t.Orderly ledger proof) (hleads : t.Leads ledger f)
    (hfuel : ledger.size < fuel + t.entered.length) :
    ledger.Visited proof f t (ledger.visit fuel f t) := by
  induction fuel generalizing f t with
  | zero =>
      have := length_le_size ht.entered_nodup ht.entered_mem
      omega
  | succ fuel ih =>
      rw [visit]
      split
      · rename_i hseen
        rw [Bool.or_eq_true, isSome_number?, List.contains_iff_mem] at hseen
        exact ⟨.refl t, ht, hseen⟩
      · rename_i hseen
        rw [Bool.or_eq_true, isSome_number?, List.contains_iff_mem, not_or] at hseen
        obtain ⟨hnum, hnew⟩ := hseen
        obtain ⟨d, hd⟩ := exists_of_mem (hrec f hf)
        obtain rfl := hkeyed f d hd
        rw [hd]
        dsimp only
        -- What `d` cites is visited with the visit of `d` under way.
        have hcites : ∀ p ∈ d.parents, ledger.Cites d.formula p := fun p hp => ⟨d, hd, hp⟩
        obtain ⟨hext, horderly, hparents⟩ := visited_foldl d.parents
          (fun p hp t' ht' hl hfuel' => ih (support_cited hf (hcites p hp)) ht'
            (fun e he => (hl e he).imp_right fun hpath => hpath.tail (hcites p hp)) hfuel')
          (ht.enter (hrec _ hf) hnew) hleads.enter (by rw [List.length_cons]; omega)
        refine ⟨hext.close hnew, horderly.snoc hf hd ?_ fun p hp => ?_, .inl ⟨d, by simp, rfl⟩⟩
        · exact fun hn => hnum (hext.kept d.formula (by simp) hn)
        · obtain hp | hp := hparents p hp
          · exact .inl hp
          · have hmem := hext.entered.subset hp
            exact (hleads.enter p hp).imp (fun hn => hn.mono hext.order) fun hpath => ⟨hmem, hpath⟩

/-- A visit of a formula without a number ends with it. -/
theorem getLast?_visit {fuel : Nat} {t : Trail} (hd : ledger[f]? = some d) (hnum : ¬t.Numbered f)
    (hnew : f ∉ t.entered) : (ledger.visit (fuel + 1) f t).order.getLast? = some d := by
  have hseen : ¬((t.number? f).isSome || t.entered.contains f) = true := by
    rw [Bool.or_eq_true, isSome_number?, List.contains_iff_mem]
    exact fun h => h.elim hnum hnew
  rw [visit, if_neg hseen, hd]
  simp

/-- A trail of the whole support of a proof, premises first and the proved formula last. -/
structure Trail.Complete (ledger : Ledger) (proof : String) (t : Trail) : Prop where
  recorded : ∀ d ∈ t.order, d.formula ∈ ledger.support proof ∧ ledger[d.formula]? = some d
  nodup : (t.order.map Derivation.formula).Nodup
  numbered : ∀ f ∈ ledger.support proof, t.Numbered f
  after : ∀ (i : Nat) (d : Derivation), t.order[i]? = some d → ∀ p ∈ d.parents,
    (∃ j < i, ∃ e, t.order[j]? = some e ∧ e.formula = p) ∨ ReflTransGen ledger.Cites p d.formula
  premises_first : t.order.Pairwise fun d d' => d'.rule = .premise → d.rule = .premise
  last : ∃ d, t.order.getLast? = some d ∧ d.formula = proof

/-- If a list without repetitions begins with all premises of the support, there are none among the
rest. -/
theorem pairwise_premises {ds order : List Derivation} (hds : ∀ d, d ∈ ds ↔
      d.formula ∈ ledger.support proof ∧ ledger[d.formula]? = some d ∧ d.rule = .premise)
    (hpre : ds <+: order) (hnodup : (order.map Derivation.formula).Nodup)
    (hrecorded : ∀ d ∈ order, d.formula ∈ ledger.support proof ∧ ledger[d.formula]? = some d) :
    order.Pairwise fun d d' => d'.rule = .premise → d.rule = .premise := by
  obtain ⟨rest, rfl⟩ := hpre
  rw [List.map_append, List.nodup_append] at hnodup
  have hpremises : ∀ d ∈ ds, d.rule = .premise := fun d hd => ((hds d).mp hd).2.2
  have hderived : ∀ d ∈ rest, d.rule ≠ .premise := by
    intro d hd hrule
    obtain ⟨hf, hledger⟩ := hrecorded d (List.mem_append_right _ hd)
    have hmem := (hds d).mpr ⟨hf, hledger, hrule⟩
    exact hnodup.2.2 _ (List.mem_map_of_mem hmem) _ (List.mem_map_of_mem hd) rfl
  refine List.pairwise_append.mpr ⟨?_, ?_, fun d hd _ _ _ => hpremises d hd⟩
  · exact List.pairwise_of_forall_mem_list fun d hd _ _ _ => hpremises d hd
  · exact List.pairwise_of_forall_mem_list fun _ _ d' hd' h => absurd h (hderived d' hd')

/-- A premise rests on nothing but itself. -/
theorem eq_of_mem_support (hd : ledger[proof]? = some d) (hrule : d.rule = .premise)
    (hf : f ∈ ledger.support proof) : f = proof := by
  refine support_induction (P := (· = proof)) rfl ?_ hf
  rintro f p rfl ⟨e, he, hp⟩
  obtain rfl : d = e := Option.some.inj (hd.symm.trans he)
  rw [Derivation.parents_of_premise hrule] at hp
  cases hp

theorem complete_visit (hkeyed : ledger.Keyed) (hrec : ∀ f ∈ ledger.support proof, f ∈ ledger)
    {ds : List Derivation} (hnodup : (ds.map Derivation.formula).Nodup)
    (hds : ∀ d, d ∈ ds ↔
      d.formula ∈ ledger.support proof ∧ ledger[d.formula]? = some d ∧ d.rule = .premise) :
    (ledger.visit (ledger.size + 1) proof ⟨ds, []⟩).Complete ledger proof := by
  have hself := mem_support_self ledger proof
  have hstart : Orderly ledger proof ⟨ds, []⟩ := by
    refine ⟨fun d hd => ⟨((hds d).mp hd).1, ((hds d).mp hd).2.1⟩, hnodup, fun i d hd p hp => ?_,
      by simp, by simp⟩
    have hrule := ((hds d).mp (List.mem_of_getElem? hd)).2.2
    rw [Derivation.parents_of_premise hrule] at hp
    cases hp
  have hvisited : ledger.Visited proof proof ⟨ds, []⟩
      (ledger.visit (ledger.size + 1) proof ⟨ds, []⟩) :=
    visited_visit hkeyed hrec hself hstart (by simp [Leads]) (by simp)
  obtain ⟨hext, horderly, hnum⟩ := hvisited
  have hproof := hnum.resolve_right List.not_mem_nil
  constructor
  case recorded => exact horderly.recorded
  case nodup => exact horderly.nodup
  case numbered =>
    -- Every visit that was begun has come to its end.
    intro f hf
    refine support_induction hproof ?_ hf
    rintro f p ⟨d, hd, rfl⟩ ⟨e, he, hp⟩
    obtain rfl : d = e := Option.some.inj ((horderly.recorded d hd).2.symm.trans he)
    obtain ⟨i, hi⟩ := List.mem_iff_getElem?.mp hd
    obtain ⟨j, -, x, hx, hxp⟩ | ⟨hp, -⟩ := horderly.after i d hi p hp
    · exact ⟨x, List.mem_of_getElem? hx, hxp⟩
    · exact (hext.closed p hp).resolve_left List.not_mem_nil
  case after => exact fun i d hd p hp => (horderly.after i d hd p hp).imp_right fun h => h.2
  case premises_first => exact pairwise_premises hds hext.order horderly.nodup horderly.recorded
  case last =>
    obtain ⟨d, hd⟩ := exists_of_mem (hrec proof hself)
    by_cases hrule : d.rule = .premise
    · obtain ⟨x, hx, -⟩ := hproof
      have hlast := List.getLast?_eq_some_getLast (List.ne_nil_of_mem hx)
      have hmem := (horderly.recorded _ (List.mem_of_getLast? hlast)).1
      exact ⟨_, hlast, eq_of_mem_support hd hrule hmem⟩
    · refine ⟨d, getLast?_visit hd ?_ (by simp), hkeyed proof d hd⟩
      rintro ⟨e, he, rfl⟩
      obtain ⟨-, hledger, hpremise⟩ := (hds e).mp he
      exact hrule (Option.some.inj (hd.symm.trans hledger) ▸ hpremise)

/-! ### The steps -/

theorem exists_mapM {ε α β : Type} {f : α → Except ε β} {R : α → β → Prop} {xs : List α}
    (h : ∀ x ∈ xs, ∃ y, f x = .ok y ∧ R x y) : ∃ ys, xs.mapM f = .ok ys ∧ List.Forall₂ R xs ys := by
  induction xs with
  | nil => exact ⟨[], rfl, .nil⟩
  | cons x xs ih =>
      obtain ⟨y, hy, hR⟩ := h x (by simp)
      obtain ⟨ys, hys, hall⟩ := ih fun z hz => h z (by simp [hz])
      refine ⟨y :: ys, ?_, .cons hR hall⟩
      rw [List.mapM_cons, hy, hys]
      rfl

/-- A step tells a derivation, with the numbers that the trail gives to its premises. -/
structure Tells (t : Trail) (d : Derivation) (number : Nat) (s : Step) : Prop where
  number_eq : s.number = number
  formula_eq : s.formula = d.formula
  rule : (d.rule = .premise ∧ s.premises = none) ∨
    ∃ minor major i j, d.rule = .modusPonens minor major ∧ t.number? minor = some i ∧
      t.number? major = some j ∧ s.premises = some (i, j)

theorem exists_step {t : Trail} (h : ∀ p ∈ d.parents, t.Numbered p) (n : Nat) :
    ∃ s, t.step n d = .ok s ∧ Tells t d n s := by
  unfold Trail.step
  dsimp only
  cases hrule : d.rule with
  | premise => exact ⟨_, rfl, rfl, rfl, .inl ⟨hrule, rfl⟩⟩
  | modusPonens minor major =>
      have hnumber {p : String} (hp : p ∈ d.parents) : ∃ i, t.number? p = some i :=
        Option.isSome_iff_exists.mp (isSome_number?.mpr (h p hp))
      obtain ⟨i, hi⟩ := hnumber (p := minor) (by simp [Derivation.parents, hrule])
      obtain ⟨j, hj⟩ := hnumber (p := major) (by simp [Derivation.parents, hrule])
      refine ⟨⟨n, d.formula, some (i, j)⟩, ?_, rfl, rfl,
        .inr ⟨minor, major, i, j, hrule, hi, hj, rfl⟩⟩
      simp only [hi, hj]
      rfl

/-- The steps tell the derivations of the trail in their order. -/
structure Trail.Told (t : Trail) (steps : List Step) : Prop where
  length_eq : steps.length = t.order.length
  tells : ∀ (i : Nat) (d : Derivation) (s : Step), t.order[i]? = some d → steps[i]? = some s →
    Tells t d (i + 1) s

theorem Trail.Complete.exists_steps {t : Trail} (h : t.Complete ledger proof) :
    ∃ steps, ((t.order.zipIdx 1).mapM fun x => t.step x.2 x.1) = .ok steps ∧ t.Told steps := by
  have hstep : ∀ x ∈ t.order.zipIdx 1, ∃ s, t.step x.2 x.1 = .ok s ∧ Tells t x.1 x.2 s := by
    intro x hx
    refine exists_step (fun p hp => ?_) x.2
    obtain ⟨hf, hledger⟩ := h.recorded x.1 (List.fst_mem_of_mem_zipIdx hx)
    exact h.numbered p (support_cited hf ⟨x.1, hledger, hp⟩)
  obtain ⟨steps, hsteps, htells⟩ := exists_mapM hstep
  obtain ⟨hlength, hget⟩ := List.forall₂_iff_get.mp htells
  rw [List.length_zipIdx] at hlength
  refine ⟨steps, hsteps, hlength.symm, fun i d s hd hs => ?_⟩
  obtain ⟨hi, rfl⟩ := List.getElem?_eq_some_iff.mp hd
  obtain ⟨hi', rfl⟩ := List.getElem?_eq_some_iff.mp hs
  have htell := hget i (by simpa using hi) hi'
  simpa [Nat.add_comm] using htell

namespace Trail

variable {t : Trail} {steps : List Step}

theorem Told.exists_step (h : t.Told steps) {i : Nat} (hd : t.order[i]? = some d) :
    ∃ s, steps[i]? = some s ∧ Tells t d (i + 1) s := by
  obtain ⟨hi, -⟩ := List.getElem?_eq_some_iff.mp hd
  have hs := List.getElem?_eq_getElem (h.length_eq.symm ▸ hi)
  exact ⟨_, hs, h.tells i d _ hd hs⟩

theorem Told.exists_derivation (h : t.Told steps) {s : Step} (hs : s ∈ steps) :
    ∃ i d, steps[i]? = some s ∧ t.order[i]? = some d ∧ Tells t d (i + 1) s := by
  obtain ⟨i, hi⟩ := List.mem_iff_getElem?.mp hs
  obtain ⟨hlt, -⟩ := List.getElem?_eq_some_iff.mp hi
  have hd := List.getElem?_eq_getElem (h.length_eq ▸ hlt)
  exact ⟨i, _, hi, hd, h.tells i _ s hd hi⟩

theorem Told.map_formula (h : t.Told steps) :
    steps.map Step.formula = t.order.map Derivation.formula := by
  refine List.ext_getElem (by simp [h.length_eq]) fun i hi hi' => ?_
  rw [List.length_map] at hi hi'
  have htell := h.tells i _ _ (List.getElem?_eq_getElem hi') (List.getElem?_eq_getElem hi)
  rw [List.getElem_map, List.getElem_map, htell.formula_eq]

theorem Told.map_number (h : t.Told steps) :
    steps.map Step.number = List.range' 1 t.order.length := by
  refine List.ext_getElem (by simp [h.length_eq]) fun i hi hi' => ?_
  rw [List.length_map] at hi
  have htell := h.tells i _ _ (List.getElem?_eq_getElem (h.length_eq ▸ hi))
    (List.getElem?_eq_getElem hi)
  rw [List.getElem_map, List.getElem_range', htell.number_eq]
  omega

theorem exists_of_number? {n : Nat} (h : t.number? f = some n) :
    ∃ i d, n = i + 1 ∧ t.order[i]? = some d ∧ d.formula = f := by
  obtain ⟨i, hi, rfl⟩ := Option.map_eq_some_iff.mp h
  obtain ⟨hlt, hf, -⟩ := List.findIdx?_eq_some_iff_getElem.mp hi
  exact ⟨i, _, rfl, List.getElem?_eq_getElem hlt, by simpa using hf⟩

theorem Complete.index_eq (h : t.Complete ledger proof) {i j : Nat} {e : Derivation}
    (hi : t.order[i]? = some d) (hj : t.order[j]? = some e) (hde : d.formula = e.formula) :
    i = j := by
  obtain ⟨hlt, -⟩ := List.getElem?_eq_some_iff.mp hi
  refine (List.getElem?_inj (by simpa using hlt) h.nodup).mp ?_
  rw [List.getElem?_map, List.getElem?_map, hi, hj, Option.map_some, Option.map_some, hde]

theorem Complete.ncard_support (h : t.Complete ledger proof) :
    (ledger.support proof).ncard = t.order.length := by
  have hset : ledger.support proof = ((t.order.map Derivation.formula).toFinset : Set String) := by
    ext f
    rw [Finset.mem_coe, List.mem_toFinset, List.mem_map]
    constructor
    · exact h.numbered f
    · rintro ⟨d, hd, rfl⟩
      exact (h.recorded d hd).1
  rw [hset, Set.ncard_coe_finset, List.toFinset_card_of_nodup h.nodup, List.length_map]

end Trail

/-- The steps tell the support of a proof: each formula once, premises first and the proved formula
last, and with each derived formula the numbers of the two that its derivation cites. A cited step
comes before the citing one, unless its formula rests on that of the citing step. -/
structure Recounts (ledger : Ledger) (proof : String) (steps : List Step) : Prop where
  numbers : steps.map Step.number = List.range' 1 (ledger.support proof).ncard
  nodup : (steps.map Step.formula).Nodup
  mem_iff : ∀ f, f ∈ steps.map Step.formula ↔ f ∈ ledger.support proof
  premises_first : steps.Pairwise fun s s' => s'.premises = none → s.premises = none
  rule : ∀ s ∈ steps, ∃ d, ledger[s.formula]? = some d ∧
    ((d.rule = .premise ∧ s.premises = none) ∨ ∃ a ∈ steps, ∃ b ∈ steps,
      d.rule = .modusPonens a.formula b.formula ∧ s.premises = some (a.number, b.number))
  earlier : ∀ s ∈ steps, ∀ a ∈ steps, ledger.Cites s.formula a.formula →
    a.number < s.number ∨ ReflTransGen ledger.Cites a.formula s.formula
  last : ∃ s, steps.getLast? = some s ∧ s.formula = proof

theorem Trail.Complete.recounts {t : Trail} {steps : List Step} (h : t.Complete ledger proof)
    (htold : t.Told steps) : ledger.Recounts proof steps where
  numbers := by rw [htold.map_number, h.ncard_support]
  nodup := htold.map_formula ▸ h.nodup
  mem_iff := by
    intro f
    rw [htold.map_formula, List.mem_map]
    constructor
    · rintro ⟨d, hd, rfl⟩
      exact (h.recorded d hd).1
    · exact h.numbered f
  premises_first := by
    rw [List.pairwise_iff_getElem]
    intro i j hi hj hij hnone
    have htell {k : Nat} (hk : k < steps.length) :=
      htold.tells k _ _ (List.getElem?_eq_getElem (htold.length_eq ▸ hk))
        (List.getElem?_eq_getElem hk)
    have hfirst := List.pairwise_iff_getElem.mp h.premises_first i j (htold.length_eq ▸ hi)
      (htold.length_eq ▸ hj) hij
    obtain ⟨hrule, -⟩ | ⟨_, _, _, _, -, -, -, hsome⟩ := (htell hj).rule
    · obtain ⟨-, hpremises⟩ | ⟨_, _, _, _, hrule', -⟩ := (htell hi).rule
      · exact hpremises
      · rw [hfirst hrule] at hrule'
        cases hrule'
    · rw [hnone] at hsome
      cases hsome
  rule := by
    intro s hs
    obtain ⟨i, d, -, hd, htell⟩ := htold.exists_derivation hs
    rw [htell.formula_eq]
    refine ⟨d, (h.recorded d (List.mem_of_getElem? hd)).2, htell.rule.imp_right ?_⟩
    rintro ⟨minor, major, m, n, hrule, hm, hn, hpremises⟩
    have hstep {p : String} {k : Nat} (hk : t.number? p = some k) :
        ∃ a ∈ steps, a.formula = p ∧ a.number = k := by
      obtain ⟨j, e, rfl, he, rfl⟩ := exists_of_number? hk
      obtain ⟨a, ha, htell'⟩ := htold.exists_step he
      exact ⟨a, List.mem_of_getElem? ha, htell'.formula_eq, htell'.number_eq⟩
    obtain ⟨a, ha, rfl, rfl⟩ := hstep hm
    obtain ⟨b, hb, rfl, rfl⟩ := hstep hn
    exact ⟨a, ha, b, hb, hrule, hpremises⟩
  earlier := by
    intro s hs a ha hcites
    obtain ⟨i, d, -, hd, htell⟩ := htold.exists_derivation hs
    obtain ⟨k, e, -, he, htell'⟩ := htold.exists_derivation ha
    rw [htell.formula_eq, htell'.formula_eq] at hcites ⊢
    obtain ⟨x, hx, hparent⟩ := hcites
    obtain rfl : d = x :=
      Option.some.inj ((h.recorded d (List.mem_of_getElem? hd)).2.symm.trans hx)
    refine (h.after i d hd _ hparent).imp_left ?_
    rintro ⟨j, hj, y, hy, hye⟩
    have hjk := h.index_eq hy he hye
    rw [htell.number_eq, htell'.number_eq]
    omega
  last := by
    obtain ⟨d, hlast, hformula⟩ := h.last
    rw [List.getLast?_eq_getElem?] at hlast
    obtain ⟨s, hs, htell⟩ := htold.exists_step hlast
    refine ⟨s, ?_, htell.formula_eq.trans hformula⟩
    rw [List.getLast?_eq_getElem?, htold.length_eq, hs]

/-- Replaying a proof fails if something that it rests on has no derivation, and then it says what.
Otherwise it succeeds, even if the ledger is circular. -/
theorem chain_cases (hkeyed : ledger.Keyed) (proof : String) :
    (∃ f ∈ ledger.support proof, ledger[f]? = none ∧
      ledger.chain proof = .error (.missingDerivation f)) ∨
    (∀ f ∈ ledger.support proof, f ∈ ledger) ∧
      ∃ steps, ledger.chain proof = .ok steps ∧ ledger.Recounts proof steps := by
  obtain ⟨f, hf, hnone, hgather⟩ | ⟨hrec, ds, hgather, hnodup, hds⟩ := gather_cases hkeyed proof
  · refine .inl ⟨f, hf, hnone, ?_⟩
    rw [chain, hgather]
    rfl
  · have hcomplete := complete_visit hkeyed hrec hnodup hds
    obtain ⟨steps, hsteps, htold⟩ := hcomplete.exists_steps
    refine .inr ⟨hrec, steps, ?_, hcomplete.recounts htold⟩
    rw [chain, hgather]
    exact hsteps

end Detachment.Ledger

import Detachment.Deadline
import Detachment.Proofs.Clock
import Detachment.Proofs.Saturation
import Detachment.Proofs.Termination
import Mathlib.Algebra.Order.BigOperators.Group.List
import Mathlib.Algebra.Order.Group.Nat
import Mathlib.Data.Set.Finite.List

/-!
# Every search comes to an end

As long as time is left, a search stops only if it finds something or runs out of formulas. One of
the two always happens. Modus ponens brings in no constants, and a conclusion is normal, so its
variables are numbered from one on, with no gaps. A conclusion that is not too large therefore has a
text of limited length, and there are finitely many of them. No text is accepted twice, so what
remains to be done gets less with every step.
-/
namespace Detachment

/-! ### Texts of limited length -/

/-- The formulas that have no letters but variables and those numbered up to `bound`, in either
direction. -/
def Fragment.fixedUpTo (bound : Nat) : Fragment where
  leaf a := a.kind = .var ∨ a.value.natAbs ≤ bound
  op _ := True
  leaf_var _ := .inl rfl
  leaf_negate a h := by
    refine h.imp (fun hk => ?_) fun hv => by rwa [Leaf.value_negate]
    simp [Leaf.negate, hk]
  leaf_rename f a h := by
    unfold Leaf.rename
    split
    · rename_i hvar
      exact .inl (by simpa [Leaf.isVariable] using hvar)
    · exact h
  op_opposite _ _ := trivial

theorem exists_length_letter_le (bound : Nat) :
    ∃ m, ∀ v : Int, v.natAbs ≤ bound → ∀ upper, (letter v upper).length ≤ m := by
  induction bound with
  | zero =>
      refine ⟨(letter 0 true).length, fun v hv upper => ?_⟩
      obtain rfl : v = 0 := by omega
      cases upper <;> rfl
  | succ n ih =>
      obtain ⟨m, hm⟩ := ih
      refine ⟨max m (max (letter (n + 1) true).length (letter (n + 1) false).length),
        fun v hv upper => ?_⟩
      by_cases hle : v.natAbs ≤ n
      · exact le_max_of_le_left (hm v hle upper)
      · -- The sign of a number makes no difference to its letter.
        have heq : letter v upper = letter (n + 1) upper := by
          unfold letter
          rw [show v.natAbs = (n + 1 : Int).natAbs by omega]
        rw [heq]
        cases upper <;> simp

namespace Formula

variable {α : Type}

theorem length_leaf_text_le {m : Nat} {a : Leaf} (h : ∀ upper, (letter a.value upper).length ≤ m) :
    a.text.length ≤ m + 1 := by
  have hsign : (if a.label.isNegated then "!" else "").length ≤ 1 := by
    split <;> decide
  cases hk : a.kind with
  | unknown =>
      rw [Leaf.text_of_unknown hk]
      exact Nat.le_add_left ..
  | const =>
      have := h true
      simp only [Leaf.text, Label.text, Leaf.label, hk, LeafKind.toKind, String.length_append]
      exact Nat.add_comm m 1 ▸ Nat.add_le_add hsign this
  | var =>
      have := h false
      simp only [Leaf.text, Label.text, Leaf.label, hk, LeafKind.toKind, String.length_append]
      exact Nat.add_comm m 1 ▸ Nat.add_le_add hsign this

theorem innerLength_le {m : Nat} {t : Formula α}
    (h : ∀ p ∈ t.leaves, ∀ upper, (letter p.2.value upper).length ≤ m) :
    t.innerLength ≤ t.size * (m + 3) := by
  induction t with
  | leaf s a =>
      have : a.text.length ≤ m + 1 := length_leaf_text_le (h (s, a) (by simp [leaves]))
      simp only [innerLength, size]
      omega
  | node s c l r ihl ihr =>
      have hl := ihl fun p hp => h p (List.mem_append_left _ hp)
      have hr := ihr fun p hp => h p (List.mem_append_right _ hp)
      have hc : c.symbol.length = 1 := by cases c <;> rfl
      simp only [innerLength, size, hc, Nat.add_mul]
      omega

theorem length_text_le {m : Nat} {t : Formula α}
    (h : ∀ p ∈ t.leaves, ∀ upper, (letter p.2.value upper).length ≤ m) :
    t.text.length ≤ t.size * (m + 3) := by
  refine Nat.le_trans ?_ (innerLength_le h)
  rw [length_text]
  cases t with
  | leaf s a => exact Nat.le_refl _
  | node s c l r => exact Nat.le_add_right ..

/-- The variables of a normal formula are numbered up to its size. -/
theorem le_size_of_normal {t : Formula α} (h : t.normalize = t) {v : Int} (hv : v ∈ t.vars) :
    v ≤ t.size := by
  rw [← h, normalize_eq] at hv
  obtain ⟨u, hu, rfl⟩ := mem_vars_rename.mp hv
  have hindex := List.idxOf_lt_length_of_mem (mem_variableOrder.mpr hu)
  have hlength : t.variableOrder.length ≤ t.vars.length := length_eraseDups_le _
  have := t.length_vars_le
  unfold position
  omega

end Formula

theorem finite_texts (limit bound : Nat) :
    {text | ∃ f : Formula Nat, f.text = text ∧ f.Within (.fixedUpTo bound) ∧ f.normalize = f ∧
      f.size ≤ limit}.Finite := by
  obtain ⟨m, hm⟩ := exists_length_letter_le (max bound limit)
  have hchar : Finite Char := by
    refine Finite.of_injective (fun c : Char => c.val.toFin) fun c d h => ?_
    exact Char.ext (UInt32.toFin_inj.mp h)
  have hlists := List.finite_length_le Char (limit * (m + 3))
  refine (hlists.image String.ofList).subset ?_
  rintro text ⟨f, rfl, hf, hnormal, hsize⟩
  refine ⟨f.text.toList, ?_, String.ofList_toList⟩
  have hletters : ∀ p ∈ f.leaves, ∀ upper, (letter p.2.value upper).length ≤ m := by
    intro p hp
    refine hm _ ?_
    obtain hk | hv := hf.leaf_of_mem p hp
    · have hmem : p.2.value ∈ f.vars := Formula.mem_vars.mpr ⟨p, hp, Leaf.varNumber?_of_kind hk⟩
      have := pos_of_normal hnormal hmem
      have := Formula.le_size_of_normal hnormal hmem
      omega
    · exact le_max_of_le_left hv
  have hlength := (Formula.length_text_le hletters).trans (Nat.mul_le_mul_right _ hsize)
  rwa [← String.length_toList] at hlength

namespace Search

variable {s s' : Search} {limit bound : Nat}

/-! ### What remains to be done -/

/-- What holds of a search at every step: it brings in no letters but variables, and a generation
that has been begun is not at its end. -/
structure Confined (limit bound : Nat) (s : Search) : Prop where
  limit_eq : s.limit = limit
  within : ∀ f, s.Mentions f → f.Within (.fixedUpTo bound)
  busy : s.midway = true → s.waiting ≠ []

theorem exists_confined_start (limit : Nat) (targets generation : List Sheet) (journal : Journal) :
    ∃ bound, Confined limit bound (start limit targets generation journal) := by
  let numbers (x : Sheet) : List Nat := x.elim [] fun f => f.leaves.map fun p => p.2.value.natAbs
  refine ⟨(generation.flatMap numbers).sum, rfl, fun f hf => ?_, nofun⟩
  have hf : some f ∈ generation := by simpa [Mentions, start] using hf
  refine Formula.within_of_leaves (fun _ => trivial) fun p hp => .inr ?_
  refine List.le_sum_of_mem (List.mem_flatMap.mpr ⟨some f, hf, ?_⟩)
  exact List.mem_map.mpr ⟨p, hp, rfl⟩

/-- The number of texts that a search may still accept. -/
def unaccepted (texts : Finset String) (s : Search) : Nat :=
  (texts.filter (· ∉ s.known)).card

/-- The looks at the clock that a search may still take: two for each formula that is waiting or may
come to wait, and one more if a generation has to be begun. -/
def ahead (texts : Finset String) (s : Search) : Nat :=
  2 * (s.waiting.length + s.fresh.length + s.unaccepted texts) + if s.midway then 0 else 1

theorem ahead_endGeneration_le (texts : Finset String) (s : Search) :
    s.endGeneration.ahead texts ≤ 2 * (s.waiting.length + s.fresh.length + s.unaccepted texts) + 1 := by
  simp only [ahead, endGeneration, List.length_mergeSort, List.length_reverse, List.length_nil]
  change 2 * (s.fresh.length + 0 + s.unaccepted texts) + 1 ≤ _
  omega

/-- What is accepted when pairs are tried is no longer to be accepted. -/
theorem Combined.unaccepted_add {pairs : List (Sheet × Sheet)} {new : List Sheet}
    {texts : Finset String} (h : Combined pairs s s' new) (hnew : ∀ x ∈ new, x.text ∈ texts) :
    s'.unaccepted texts + new.length ≤ s.unaccepted texts := by
  have hdisjoint : Disjoint (texts.filter (· ∉ s'.known)) (new.map Sheet.text).toFinset := by
    refine Finset.disjoint_right.mpr fun text htext hopen => ?_
    obtain ⟨x, hx, rfl⟩ := List.mem_map.mp (List.mem_toFinset.mp htext)
    exact (Finset.mem_filter.mp hopen).2 ((h.mem_known _).mpr (.inr ⟨x, hx, rfl⟩))
  have hsub : texts.filter (· ∉ s'.known) ∪ (new.map Sheet.text).toFinset ⊆
      texts.filter (· ∉ s.known) := by
    intro text htext
    rw [Finset.mem_filter]
    obtain htext | htext := Finset.mem_union.mp htext
    · obtain ⟨hmem, hopen⟩ := Finset.mem_filter.mp htext
      exact ⟨hmem, fun hknown => hopen ((h.mem_known _).mpr (.inl hknown))⟩
    · obtain ⟨x, hx, rfl⟩ := List.mem_map.mp (List.mem_toFinset.mp htext)
      exact ⟨hnew x hx, h.unknown x hx⟩
  have hcard := Finset.card_le_card hsub
  rwa [Finset.card_union_of_disjoint hdisjoint, List.toFinset_card_of_nodup h.nodup,
    List.length_map] at hcard

/-- The texts that a confined search can accept. -/
noncomputable def texts (limit bound : Nat) : Finset String :=
  (finite_texts limit bound).toFinset

theorem text_mem_of_combined {pairs : List (Sheet × Sheet)} {new : List Sheet}
    (h : Combined pairs s s' new) (hlimit : s.limit = limit)
    (hpairs : ∀ p ∈ pairs, p.1.Within (.fixedUpTo bound) ∧ p.2.Within (.fixedUpTo bound)) :
    ∀ x ∈ new, x.text ∈ texts limit bound := by
  intro x hx
  obtain ⟨hgood, p, hp, rfl⟩ := h.good x hx
  have hwithin := (hpairs p hp).1.detach (hpairs p hp).2
  have hnormal := Sheet.normalize_detach p.1 p.2
  obtain ⟨⟨f, hf⟩, hsize⟩ := Sheet.exists_of_isGood hgood
  rw [hf] at hnormal hsize ⊢
  refine (finite_texts limit bound).mem_toFinset.mpr ⟨f, rfl, hwithin f hf, ?_, hlimit ▸ hsize⟩
  exact Option.some.inj hnormal

/-- Promoting a formula makes room for every conclusion that it adds. -/
theorem Confined.promote (h : Confined limit bound s) {candidate : Sheet} {rest : List Sheet}
    (hwaiting : s.waiting = candidate :: rest)
    (hs : { s with waiting := rest }.promote candidate = (false, s')) :
    s'.limit = limit ∧ s'.waiting = rest ∧ s'.midway = s.midway ∧
      s'.fresh.length + s'.unaccepted (texts limit bound) ≤
        s.fresh.length + s.unaccepted (texts limit bound) := by
  obtain ⟨-, rfl⟩ | ⟨-, -, new, hnew⟩ := promote_eq_false hs
  · exact ⟨h.limit_eq, rfl, rfl, Nat.le_refl _⟩
  · have hpromoted : ∀ x ∈ s.promoted ++ [candidate.normalize], x.Within (.fixedUpTo bound) := by
      intro x hx f hf
      subst hf
      obtain hx | hx := List.mem_append.mp hx
      · exact h.within f (.inl hx)
      · obtain ⟨g, rfl, rfl⟩ := Option.map_eq_some_iff.mp (List.mem_singleton.mp hx).symm
        exact (h.within g (.inr (.inl (by simp [hwaiting])))).normalize
    have htexts := text_mem_of_combined hnew h.limit_eq fun p hp =>
      ⟨hpromoted _ (mem_of_mem_pairings hp).1, hpromoted _ (mem_of_mem_pairings hp).2⟩
    have hroom := hnew.unaccepted_add htexts
    refine ⟨hnew.limit_eq.trans h.limit_eq, hnew.waiting_eq, hnew.midway_eq, ?_⟩
    rw [hnew.fresh_eq, List.length_append]
    change _ ≤ s.unaccepted _ at hroom
    dsimp only
    omega

theorem Confined.step (h : Confined limit bound s) (hs : s.step false = .running s') :
    Confined limit bound s' := by
  have hwithin : ∀ f, s'.Mentions f → f.Within (.fixedUpTo bound) := by
    have hmoves := moves_step s false
    rw [hs] at hmoves
    exact mentions_moves (fun f hf => hf.normalize) (fun _ _ _ hm hM hf => within_detachBy hm hM hf)
      hmoves h.within
  obtain ⟨-, hwaiting, rfl⟩ | ⟨hmidway, hwaiting, -⟩ |
    ⟨candidate, rest, s₁, hwaiting, -, hpromote, rfl⟩ := step_running hs
  · exact ⟨h.limit_eq, hwithin, fun _ => hwaiting⟩
  · exact absurd hwaiting (h.busy hmidway)
  · obtain ⟨hlimit, -⟩ := h.promote hwaiting hpromote
    refine ⟨?_, hwithin, ?_⟩
    · split <;> exact hlimit
    · split
      · nofun
      · rename_i hrest
        exact fun _ => by simpa using hrest

/-- Every step leaves less to be done. -/
theorem Confined.ahead_lt (h : Confined limit bound s) (hs : s.step false = .running s') :
    s'.ahead (texts limit bound) < s.ahead (texts limit bound) := by
  obtain ⟨hmidway, -, rfl⟩ | ⟨hmidway, hwaiting, -⟩ |
    ⟨candidate, rest, s₁, hwaiting, hmidway, hpromote, rfl⟩ := step_running hs
  · unfold ahead
    rw [hmidway]
    exact Nat.lt_succ_self _
  · exact absurd hwaiting (h.busy hmidway)
  · obtain ⟨-, hrest, hmidway₁, hroom⟩ := h.promote hwaiting hpromote
    have hbefore : s.ahead (texts limit bound) =
        2 * (rest.length + 1 + s.fresh.length + s.unaccepted (texts limit bound)) := by
      simp [ahead, hwaiting, hmidway]
    have hafter : s₁.ahead (texts limit bound) =
        2 * (rest.length + s₁.fresh.length + s₁.unaccepted (texts limit bound)) := by
      simp [ahead, hrest, hmidway₁, hmidway]
    split
    · have hturn := s₁.ahead_endGeneration_le (texts limit bound)
      rw [hrest] at hturn
      omega
    · omega

/-! ### The end -/

theorem watch_append {outcome : Outcome} {looks : List Bool}
    (h : s.watch looks = .ended outcome s') (more : List Bool) :
    s.watch (looks ++ more) = .ended outcome s' := by
  induction looks generalizing s with
  | nil => cases h
  | cons expired looks ih =>
      rw [List.cons_append, watch]
      rw [watch] at h
      cases hstep : s.step expired with
      | running s₁ =>
          rw [hstep] at h
          exact ih h
      | ended outcome₁ s₁ =>
          rw [hstep] at h
          exact h

/-- A search comes to an end of its own if time does not run out. -/
theorem Confined.exists_end (h : Confined limit bound s) :
    ∃ looks outcome s', (outcome = .found ∨ outcome = .exhausted) ∧
      s.watch (List.replicate looks false) = .ended outcome s' := by
  induction hn : s.ahead (texts limit bound) using Nat.strongRecOn generalizing s with
  | _ n ih =>
      cases hstep : s.step false with
      | running s₁ =>
          obtain ⟨looks, outcome, s', houtcome, hend⟩ :=
            ih _ (hn ▸ h.ahead_lt hstep) (h.step hstep) rfl
          refine ⟨looks + 1, outcome, s', houtcome, ?_⟩
          rw [List.replicate_succ, watch, hstep]
          exact hend
      | ended outcome s' =>
          refine ⟨1, outcome, s', ?_, by simp [watch, hstep]⟩
          obtain ⟨houtcome, -⟩ | ⟨houtcome, -⟩ := step_ended hstep
          · exact .inr houtcome
          · exact .inl houtcome

end Search

/-- A search needs no clock to come to an end. Whatever the premises, the targets and the limit on
the size of formulas, there is a number of looks at the clock, one of which begins each generation,
after which the search has found something or exhausted what there is to find, provided that the
deadline has not passed at any of them. Nor does any unification on the way run out of steps. -/
theorem Session.search_ends_of_its_own (s : Session) :
    (∃ looks outcome search, (outcome = .found ∨ outcome = .exhausted) ∧
      ∀ (d : Deadline) (readings : List Nat), (∀ now ∈ readings, d.expired now = false) →
        looks ≤ readings.length →
          s.prepare.2.watch (readings.map d.expired) = .ended outcome search) ∧
    ∀ (floor : Int) (l r : Formula Nat), ∃ answer,
      Unification.loop (Unification.budget (l.size + r.size)) (.initial floor l r) =
        some answer := by
  refine ⟨?_, exists_loop_eq_some⟩
  obtain ⟨limit, bound, hconfined⟩ : ∃ limit bound, Search.Confined limit bound s.prepare.2 :=
    ⟨_, Search.exists_confined_start ..⟩
  obtain ⟨looks, outcome, search, houtcome, hend⟩ := hconfined.exists_end
  refine ⟨looks, outcome, search, houtcome, fun d readings hleft hlooks => ?_⟩
  have hmap : readings.map d.expired =
      List.replicate looks false ++ List.replicate (readings.length - looks) false := by
    rw [List.replicate_append_replicate, List.eq_replicate_iff]
    refine ⟨by simp; omega, ?_⟩
    simpa using hleft
  rw [hmap]
  exact Search.watch_append hend _

end Detachment

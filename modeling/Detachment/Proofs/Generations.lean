import Detachment.Proofs.Search

/-!
# How a search goes on and how it ends

The moves of `Detachment.Proofs.Search` say what a search may do next, here stands what it does:
which conclusions it has accepted once a formula is promoted, what a step does as long as time is
left, and in what state a run ends. It follows that a search says that it has found something
exactly if it has promoted a formula that settles a target, and that this one is promoted last.
-/
namespace Detachment

namespace Search

variable {s s' : Search}

/-! ### Promoting a formula -/

/-- What has become of a search after trying all pairs, if no target is settled. The conclusions
accepted are `new`. -/
structure Combined (pairs : List (Sheet × Sheet)) (s s' : Search) (new : List Sheet) : Prop where
  limit_eq : s'.limit = s.limit
  targets_eq : s'.targets = s.targets
  promoted_eq : s'.promoted = s.promoted
  waiting_eq : s'.waiting = s.waiting
  midway_eq : s'.midway = s.midway
  fresh_eq : s'.fresh = new ++ s.fresh
  mem_known : ∀ text, text ∈ s'.known ↔ text ∈ s.known ∨ ∃ x ∈ new, x.text = text
  good : ∀ x ∈ new, x.isGood s.limit = true ∧ ∃ p ∈ pairs, x = p.1.detach p.2
  tried : ∀ p ∈ pairs, (p.1.detach p.2).isGood s.limit = true → (p.1.detach p.2).text ∈ s'.known
  unknown : ∀ x ∈ new, x.text ∉ s.known
  nodup : (new.map Sheet.text).Nodup

theorem Combined.nil (s : Search) : Combined [] s s [] where
  limit_eq := rfl
  targets_eq := rfl
  promoted_eq := rfl
  waiting_eq := rfl
  midway_eq := rfl
  fresh_eq := rfl
  mem_known := by simp
  good := by simp
  tried := by simp
  unknown := by simp
  nodup := by simp

/-- A pair whose conclusion is passed over changes nothing. -/
theorem Combined.pass {p : Sheet × Sheet} {pairs : List (Sheet × Sheet)} {new : List Sheet}
    (h : Combined pairs s s' new)
    (hp : (p.1.detach p.2).isGood s.limit = true → (p.1.detach p.2).text ∈ s.known) :
    Combined (p :: pairs) s s' new :=
  { h with
    good := by
      intro x hx
      obtain ⟨hgood, q, hq, rfl⟩ := h.good x hx
      exact ⟨hgood, q, List.mem_cons_of_mem _ hq, rfl⟩
    tried := by
      intro q hq hgood
      obtain rfl | hq := List.mem_cons.mp hq
      · exact (h.mem_known _).mpr (.inl (hp hgood))
      · exact h.tried q hq hgood }

/-- The search once it has kept a conclusion that settles no target. -/
def keep (s : Search) (conclusion : Sheet) (journal : Journal) : Search :=
  { s with known := s.known.insert conclusion.text, journal, fresh := conclusion :: s.fresh }

theorem Combined.keep {p : Sheet × Sheet} {pairs : List (Sheet × Sheet)} {new : List Sheet}
    {journal : Journal} (h : Combined pairs (s.keep (p.1.detach p.2) journal) s' new)
    (hgood : (p.1.detach p.2).isGood s.limit = true) (hnew : (p.1.detach p.2).text ∉ s.known) :
    Combined (p :: pairs) s s' (new ++ [p.1.detach p.2]) where
  limit_eq := h.limit_eq
  targets_eq := h.targets_eq
  promoted_eq := h.promoted_eq
  waiting_eq := h.waiting_eq
  midway_eq := h.midway_eq
  fresh_eq := by rw [h.fresh_eq, List.append_assoc]; rfl
  mem_known := by
    intro text
    rw [h.mem_known, Search.keep, Std.HashSet.mem_insert, beq_iff_eq]
    simp only [List.mem_append, List.mem_singleton, or_and_right, exists_or, exists_eq_left]
    exact or_assoc.trans (or_comm.trans or_assoc)
  good := by
    intro x hx
    obtain hx | hx := List.mem_append.mp hx
    · obtain ⟨hx, q, hq, rfl⟩ := h.good x hx
      exact ⟨hx, q, List.mem_cons_of_mem _ hq, rfl⟩
    · obtain rfl := List.mem_singleton.mp hx
      exact ⟨hgood, p, List.mem_cons_self, rfl⟩
  tried := by
    intro q hq hq'
    obtain rfl | hq := List.mem_cons.mp hq
    · exact (h.mem_known _).mpr (.inl Std.HashSet.mem_insert_self)
    · exact h.tried q hq hq'
  unknown := by
    intro x hx
    obtain hx | hx := List.mem_append.mp hx
    · exact fun hmem => h.unknown x hx (Std.HashSet.mem_insert.mpr (.inr hmem))
    · rwa [List.mem_singleton.mp hx]
  nodup := by
    rw [List.map_append, List.nodup_append]
    refine ⟨h.nodup, by simp, fun text htext text' htext' heq => ?_⟩
    obtain ⟨x, hx, rfl⟩ := List.mem_map.mp htext
    obtain rfl : text' = (p.1.detach p.2).text := by simpa using htext'
    exact h.unknown x hx (heq ▸ Std.HashSet.mem_insert_self)

theorem exists_combined {pairs : List (Sheet × Sheet)} (h : s.combine pairs = (false, s')) :
    ∃ new, Combined pairs s s' new := by
  induction pairs generalizing s with
  | nil =>
      obtain rfl := (Prod.mk.inj h).2
      exact ⟨[], .nil s⟩
  | cons p pairs ih =>
      obtain ⟨minor, major⟩ := p
      rw [combine] at h
      obtain ⟨haccept, hpass⟩ | ⟨hgood, hunknown, haccept⟩ :=
        s.accept_cases minor major (minor.detach major)
      · rw [haccept] at h
        obtain ⟨new, hnew⟩ := ih h
        exact ⟨new, hnew.pass hpass⟩
      · cases hsettles : s.settlesTarget (minor.detach major) with
        | true =>
            rw [haccept, hsettles] at h
            cases h
        | false =>
            rw [haccept, hsettles] at h
            obtain ⟨new, hnew⟩ := ih h
            exact ⟨_, hnew.keep hgood hunknown⟩

/-- If trying the pairs stops short, the formula that settles a target is promoted last. -/
theorem exists_settled_of_combine {pairs : List (Sheet × Sheet)}
    (h : s.combine pairs = (true, s')) :
    s'.targets = s.targets ∧
      ∃ x, s'.promoted = s.promoted ++ [x] ∧ (x.settled? s.targets).isSome = true := by
  induction pairs generalizing s with
  | nil => cases h
  | cons p pairs ih =>
      obtain ⟨minor, major⟩ := p
      rw [combine] at h
      obtain ⟨haccept, -⟩ | ⟨-, -, haccept⟩ := s.accept_cases minor major (minor.detach major)
      · rw [haccept] at h
        exact ih h
      · cases hsettles : s.settlesTarget (minor.detach major) with
        | true =>
            rw [haccept, hsettles] at h
            obtain rfl := (Prod.mk.inj h).2
            exact ⟨rfl, _, rfl, hsettles⟩
        | false =>
            rw [haccept, hsettles] at h
            obtain ⟨htargets, x, hpromoted, hx⟩ := ih h
            exact ⟨htargets, x, hpromoted, hx⟩

/-- A formula is passed over if it is too large. Otherwise it joins the promoted ones, settles no
target, and is tried with all of them. -/
theorem promote_eq_false {candidate : Sheet} (h : s.promote candidate = (false, s')) :
    (s.limit < candidate.size ∧ s' = s) ∨
    (candidate.size ≤ s.limit ∧ candidate.normalize.settled? s.targets = none ∧
      ∃ new, Combined (pairings s.promoted candidate.normalize)
        { s with promoted := s.promoted ++ [candidate.normalize] } s' new) := by
  unfold promote at h
  split at h
  · rename_i hsize
    dsimp only at h
    split at h
    · cases h
    · rename_i hsettles
      refine .inr ⟨hsize, ?_, exists_combined h⟩
      simpa [settlesTarget] using hsettles
  · rename_i hsize
    exact .inl ⟨Nat.lt_of_not_le hsize, (Prod.mk.inj h).2.symm⟩

/-- If a target is settled, then by the formula promoted last, and by none promoted on the way. -/
theorem promote_eq_true {candidate : Sheet} (h : s.promote candidate = (true, s')) :
    s'.targets = s.targets ∧ ∃ between x, s'.promoted = s.promoted ++ between ++ [x] ∧
      (∀ p ∈ between, p.settled? s.targets = none) ∧ (x.settled? s.targets).isSome = true := by
  unfold promote at h
  split at h
  · dsimp only at h
    split at h
    · rename_i hsettles
      obtain rfl := (Prod.mk.inj h).2
      exact ⟨rfl, [], candidate.normalize, by simp, by simp, hsettles⟩
    · rename_i hsettles
      obtain ⟨htargets, x, hx, hsome⟩ := exists_settled_of_combine h
      refine ⟨htargets, [candidate.normalize], x, hx, fun p hp => ?_, hsome⟩
      obtain rfl := List.mem_singleton.mp hp
      simpa [settlesTarget] using hsettles
  · cases h

/-! ### Steps while time is left -/

/-- A step after which the search goes on begins a generation, ends one, or promotes a formula, after
which the generation may be at its end. -/
theorem step_running (h : s.step false = .running s') :
    (s.midway = false ∧ s.waiting ≠ [] ∧ s' = { s with midway := true }) ∨
    (s.midway = true ∧ s.waiting = [] ∧ s' = s.endGeneration) ∨
    (∃ candidate rest s₁, s.waiting = candidate :: rest ∧ s.midway = true ∧
      { s with waiting := rest }.promote candidate = (false, s₁) ∧
        s' = if s₁.waiting.isEmpty then s₁.endGeneration else s₁) := by
  unfold step at h
  split at h
  · rename_i hmidway
    rw [if_neg (by simp)] at h
    split at h
    · rename_i hwaiting
      exact .inr (.inl ⟨hmidway, hwaiting, (Progress.running.inj h).symm⟩)
    · rename_i candidate rest hwaiting
      split at h
      · cases h
      · rename_i s₁ hpromote
        exact .inr (.inr ⟨candidate, rest, s₁, hwaiting, hmidway, hpromote,
          (Progress.running.inj h).symm⟩)
  · rename_i hmidway
    rw [if_neg (by simp)] at h
    split at h
    · cases h
    · rename_i hwaiting
      exact .inl ⟨by simpa using hmidway, by simpa using hwaiting, (Progress.running.inj h).symm⟩

/-- A step that ends the search finds no generation to begin, or a target settled. -/
theorem step_ended {outcome : Outcome} (h : s.step false = .ended outcome s') :
    (outcome = .exhausted ∧ s.midway = false ∧ s.waiting = [] ∧ s' = s) ∨
    (outcome = .found ∧ ∃ candidate rest, s.waiting = candidate :: rest ∧
      { s with waiting := rest }.promote candidate = (true, s')) := by
  unfold step at h
  split at h
  · rw [if_neg (by simp)] at h
    split at h
    · cases h
    · rename_i candidate rest hwaiting
      split at h
      · rename_i s₁ hpromote
        obtain ⟨rfl, rfl⟩ := Progress.ended.inj h
        exact .inr ⟨rfl, candidate, rest, hwaiting, hpromote⟩
      · cases h
  · rename_i hmidway
    rw [if_neg (by simp)] at h
    split at h
    · rename_i hwaiting
      obtain ⟨rfl, rfl⟩ := Progress.ended.inj h
      exact .inl ⟨rfl, by simpa using hmidway, by simpa using hwaiting, rfl⟩
    · cases h

/-- A run ends in a state that steps have led to: time is up there, or one more step ends it. -/
theorem run_cases {I : Search → Prop}
    (hstep : ∀ s s' : Search, I s → s.step false = .running s' → I s') (h : I s) (looks : Nat) :
    ∃ s', I s' ∧ (s.run looks = (.timedOut, if s'.midway then s'.endGeneration else s') ∨
      s'.step false = .ended (s.run looks).1 (s.run looks).2) := by
  induction looks generalizing s with
  | zero => exact ⟨s, h, .inl rfl⟩
  | succ looks ih =>
      rw [run]
      cases hs : s.step false with
      | running s₁ => exact ih (hstep s s₁ h hs)
      | ended outcome s₁ => exact ⟨s, h, .inr hs⟩

/-! ### What is found -/

/-- No promoted formula settles one of the targets. -/
structure Unsettled (targets : List Sheet) (s : Search) : Prop where
  targets_eq : s.targets = targets
  promoted : ∀ p ∈ s.promoted, p.settled? targets = none

variable {targets : List Sheet}

theorem Unsettled.promote {candidate : Sheet} (h : Unsettled targets s)
    (hs : s.promote candidate = (false, s')) : Unsettled targets s' := by
  obtain ⟨-, rfl⟩ | ⟨-, hcandidate, new, hnew⟩ := promote_eq_false hs
  · exact h
  · refine ⟨hnew.targets_eq.trans h.targets_eq, fun p hp => ?_⟩
    rw [hnew.promoted_eq, List.mem_append, List.mem_singleton] at hp
    obtain hp | rfl := hp
    · exact h.promoted p hp
    · rwa [← h.targets_eq]

theorem Unsettled.step (h : Unsettled targets s) (hs : s.step false = .running s') :
    Unsettled targets s' := by
  obtain ⟨-, -, rfl⟩ | ⟨-, -, rfl⟩ | ⟨candidate, rest, s₁, -, -, hpromote, rfl⟩ :=
    step_running hs
  · exact ⟨h.targets_eq, h.promoted⟩
  · exact ⟨h.targets_eq, h.promoted⟩
  · have hrest : Unsettled targets { s with waiting := rest } := ⟨h.targets_eq, h.promoted⟩
    have h₁ := hrest.promote hpromote
    split
    · exact ⟨h₁.targets_eq, h₁.promoted⟩
    · exact h₁

/-- The formula promoted last settles one of the targets, and no earlier one does. -/
def SettledLast (targets : List Sheet) (s : Search) : Prop :=
  ∃ earlier last, s.promoted = earlier ++ [last] ∧ (∀ p ∈ earlier, p.settled? targets = none) ∧
    (last.settled? targets).isSome = true

/-- A search that begins with nothing settled ends with the first formula that settles a target, or
leaves it so. -/
theorem Unsettled.run (h : Unsettled targets s) (looks : Nat) :
    if (s.run looks).1 = .found then SettledLast targets (s.run looks).2
    else Unsettled targets (s.run looks).2 := by
  obtain ⟨s', h', hrun | hend⟩ := run_cases (fun _ _ h hs => h.step hs) h looks
  · rw [hrun, if_neg (by simp)]
    split
    · exact ⟨h'.targets_eq, h'.promoted⟩
    · exact h'
  · obtain ⟨houtcome, -, -, hs⟩ | ⟨houtcome, candidate, rest, -, hpromote⟩ := step_ended hend
    · rw [houtcome, hs, if_neg (by simp)]
      exact h'
    · rw [if_pos houtcome]
      obtain ⟨-, between, x, hx, hbetween, hsettles⟩ := promote_eq_true hpromote
      rw [h'.targets_eq] at hbetween hsettles
      refine ⟨s'.promoted ++ between, x, hx, fun p hp => ?_, hsettles⟩
      obtain hp | hp := List.mem_append.mp hp
      · exact h'.promoted p hp
      · exact hbetween p hp

theorem Unsettled.run_eq_found_iff (h : Unsettled targets s) (looks : Nat) :
    (s.run looks).1 = .found ↔
      ∃ p ∈ (s.run looks).2.promoted, (p.settled? targets).isSome = true := by
  have hrun := h.run looks
  constructor
  · intro hfound
    rw [if_pos hfound] at hrun
    obtain ⟨earlier, last, hpromoted, -, hsettles⟩ := hrun
    exact ⟨last, by simp [hpromoted], hsettles⟩
  · rintro ⟨p, hp, hsettles⟩
    split at hrun
    · assumption
    · rw [hrun.promoted p hp] at hsettles
      cases hsettles

theorem unsettled_start (limit : Nat) (targets generation : List Sheet) (journal : Journal) :
    Unsettled targets (start limit targets generation journal) :=
  ⟨rfl, by simp [start]⟩

end Search

end Detachment

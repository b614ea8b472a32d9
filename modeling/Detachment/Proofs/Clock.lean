import Detachment.Proofs.Generations
import Detachment.Proofs.Narrative

/-!
# A search and its clock

A search looks at a clock before each generation and before each promotion. When time is up in the
midst of a generation, the rest of it is dropped, and the next look ends the search. Until then the
clock makes no difference. So a search with more time does what one with less time does and then
goes on, unless it had already come to an end of its own, and its journal continues the other one's.
-/
namespace Detachment

namespace Search

variable {s : Search}

/-! ### What the clock shows -/

/-- Take one step for each look at the clock, as long as the search goes on. -/
def watch : (expired : List Bool) → Search → Progress
  | [], s => .running s
  | expired :: later, s =>
      match s.step expired with
      | .running s => watch later s
      | .ended outcome s => .ended outcome s

/-- A clock that shows time left a number of times and then shows that it is up. The second look
then is for a search that was in the midst of a generation at the first. -/
def timer (looks : Nat) : List Bool :=
  List.replicate looks false ++ [true, true]

theorem watch_timer_zero (s : Search) :
    s.watch (timer 0) = .ended .timedOut (if s.midway then s.endGeneration else s) := by
  cases hmidway : s.midway with
  | false => simp [timer, watch, step, hmidway]
  | true => simp [timer, watch, step, hmidway, endGeneration]

/-- Under such a clock a search does what a run does with as many looks. -/
theorem watch_timer (looks : Nat) (s : Search) :
    s.watch (timer looks) = .ended (s.run looks).1 (s.run looks).2 := by
  induction looks generalizing s with
  | zero => exact watch_timer_zero s
  | succ looks ih =>
      have htimer : timer (looks + 1) = false :: timer looks := by
        rw [timer, List.replicate_succ]
        rfl
      rw [htimer, watch, run]
      cases s.step false with
      | running s₁ => exact ih s₁
      | ended outcome s₁ => rfl

/-! ### More time -/

/-- A search that came to an end of its own ends the same way with more time. -/
theorem run_add {looks : Nat} (h : (s.run looks).1 ≠ .timedOut) (more : Nat) :
    s.run (looks + more) = s.run looks := by
  induction looks generalizing s with
  | zero => exact absurd rfl h
  | succ looks ih =>
      rw [Nat.add_right_comm, run, run]
      rw [run] at h
      cases hs : s.step false with
      | running s₁ =>
          rw [hs] at h
          exact ih h
      | ended outcome s₁ => rfl

end Search

namespace Journal

/-- The second journal is the first with more derivations recorded. -/
def Continues (j j' : Journal) : Prop :=
  ∃ ds : List Derivation, j' = ds.foldl Journal.record j

theorem Continues.refl (j : Journal) : j.Continues j :=
  ⟨[], rfl⟩

theorem Continues.record {j j' : Journal} (h : j.Continues j') (d : Derivation) :
    j.Continues (j'.record d) := by
  obtain ⟨ds, rfl⟩ := h
  exact ⟨ds ++ [d], by rw [List.foldl_append]; rfl⟩

/-- Recording derivations appends their lines to the bytes of a journal. -/
theorem bytes_foldl_record (ds : List Derivation) (j : Journal) :
    (ds.foldl Journal.record j).bytes =
      j.bytes ++ (linesText (ds.map Derivation.text)).toUTF8 := by
  induction ds generalizing j with
  | nil => simp [linesText]
  | cons d ds ih =>
      rw [List.foldl_cons, ih, Journal.record]
      simp [linesText, String.toByteArray_append, ByteArray.append_assoc]

end Journal

namespace Search

theorem continues_run (s : Search) (looks : Nat) : s.journal.Continues (s.run looks).2.journal := by
  refine run_preserves (I := fun s' => s.journal.Continues s'.journal) ?_ (.refl _) looks
  intro s₁ s₂ hmove h
  obtain ⟨hsame, -⟩ | ⟨minor, major, g, -, -, -, hrecord, -⟩ := hmove.cases
  · rwa [hsame]
  · rw [hrecord]
    exact h.record _

/-- The journal of a search with more time continues that of one with less. -/
theorem continues_run_add (s : Search) (looks more : Nat) :
    (s.run looks).2.journal.Continues (s.run (looks + more)).2.journal := by
  induction looks generalizing s with
  | zero =>
      -- Nothing is recorded once time is up.
      have hzero : (s.run 0).2.journal = s.journal := by
        rw [run]
        cases s.midway <;> rfl
      rw [hzero]
      exact s.continues_run _
  | succ looks ih =>
      rw [Nat.add_right_comm, run, run]
      cases s.step false with
      | running s₁ => exact ih s₁
      | ended outcome s₁ => exact .refl _

end Search

namespace Session

variable (store : Journal → Except ProverError Journal) (s : Session)

theorem continues_solveStoring (looks more : Nat) :
    (s.solveStoring store looks).2.journal.Continues
      (s.solveStoring store (looks + more)).2.journal := by
  by_cases hready : s.phase = .ready
  · rw [solveStoring_of_ready hready, solveStoring_of_ready hready, (conclude_frame ..).2.2,
      (conclude_frame ..).2.2]
    exact s.prepare.2.continues_run_add looks more
  · rw [(solveStoring_of_not_ready store hready _).1, (solveStoring_of_not_ready store hready _).1]
    exact .refl _

theorem solveStoring_add {looks : Nat} (h : (s.prepare.2.run looks).1 ≠ .timedOut) (more : Nat) :
    s.solveStoring store (looks + more) = s.solveStoring store looks := by
  unfold solveStoring
  cases s.settled? with
  | some status => rfl
  | none =>
      dsimp only
      rw [Search.run_add h]

/-- A session with time for more looks at the clock records what one with less time records and
perhaps more after it. If the search comes to an end of its own before the shorter time is up, then
with more time it ends in the same state, and the session gives the same answer and is left the
same: with the same promoted formulas, targets, journal and narrative. -/
theorem more_time_continues {n m : Nat} (h : n ≤ m) :
    (∃ ds : List Derivation,
      (s.solveStoring store m).2.journal =
        ds.foldl Journal.record (s.solveStoring store n).2.journal ∧
      (s.solveStoring store m).2.journal.bytes =
        (s.solveStoring store n).2.journal.bytes ++
          (linesText (ds.map Derivation.text)).toUTF8) ∧
    ∀ outcome search, s.prepare.2.watch (Search.timer n) = .ended outcome search →
      outcome ≠ .timedOut →
        s.prepare.2.watch (Search.timer m) = .ended outcome search ∧
          s.solveStoring store m = s.solveStoring store n := by
  obtain ⟨more, rfl⟩ := Nat.exists_eq_add_of_le h
  constructor
  · obtain ⟨ds, hds⟩ := continues_solveStoring store s n more
    exact ⟨ds, hds, by rw [hds, Journal.bytes_foldl_record]⟩
  · intro outcome search hn houtcome
    rw [Search.watch_timer] at hn ⊢
    obtain ⟨rfl, rfl⟩ := Progress.ended.inj hn
    exact ⟨by rw [Search.run_add houtcome], solveStoring_add store s houtcome more⟩

/-- Three looks are enough to prove `C>B` from `A` and `A>B`, so that a thousand make no
difference. -/
theorem more_time_continues_ponens : 3 ≤ 1000 ∧
    ∃ search, ponens.prepare.2.watch (Search.timer 3) = .ended .found search ∧
      ponens.prepare.2.watch (Search.timer 1000) = .ended .found search ∧
        ponens.solve 1000 = ponens.solve 3 := by
  have hfound : (ponens.prepare.2.run 3).1 = .found :=
    ((Search.unsettled_start _ _ _ _).run_eq_found_iff 3).mpr settled_ponens
  have hwatch := ponens.prepare.2.watch_timer 3
  rw [hfound] at hwatch
  exact ⟨by decide, _, hwatch, (more_time_continues .ok ponens (by decide)).2 _ _ hwatch (by decide)⟩

end Session

end Detachment

import Detachment.Session
import Detachment.Proofs.Search

/-!
# Sessions

A session is begun with premises and a target. The classical schemas may be recorded in its journal
at any time, and it may be asked for a proof as often as one likes. Only the first time counts:
`Reached.exists_ready` says that a session which answers that the target is proved repeats what a
session answered that had not been asked before.
-/
namespace Detachment

/-- The uses of the deduction theorem for a target. -/
def Sheet.discharges (target : Sheet) : List Discharge :=
  (target.map Formula.discharges).getD []

/-- Lines, each of them ended. -/
def linesText (ls : List String) : String :=
  String.join (ls.map (· ++ "\n"))

namespace Session

/-- The premises together with the hypotheses of a target. -/
def assumptions (premises : List Sheet) (target : Sheet) : List Sheet :=
  premises ++ target.discharges.map fun d => some d.hypothesis

/-- The target and its conclusions. To prove one of them is enough. -/
def goals (target : Sheet) : List Sheet :=
  target :: target.discharges.map fun d => some d.conclusion

theorem foldl_say (ls : List String) (s : Session) :
    ls.foldl say s = { s with narrative := s.narrative ++ linesText ls } := by
  induction ls generalizing s with
  | nil => simp [linesText]
  | cons l ls ih => simp [ih, say, linesText, String.append_assoc]

theorem foldl_say_discharges (ds : List Discharge) (s : Session) :
    ds.foldl (fun s d => s.say d.text) s =
      { s with narrative := s.narrative ++ linesText (ds.map Discharge.text) } := by
  rw [← foldl_say, List.foldl_map]

theorem decompose_eq {s : Session} {target : Sheet} (h : s.targets = [target]) :
    s.decompose =
      { s with
        premises := assumptions s.premises target
        targets := goals target
        narrative := s.narrative ++ linesText (target.discharges.map Discharge.text) } := by
  unfold decompose
  rw [h]
  simp only [List.getLast?_singleton, Option.getD_some, foldl_say_discharges, h]
  rfl

/-- The session in which the search takes place. -/
def opened (s : Session) (target : Sheet) : Session :=
  { s with
    premises := assumptions s.premises target
    targets := goals target
    narrative := linesText (target.discharges.map Discharge.text) }

theorem prepare_eq {s : Session} {target : Sheet} (h : s.targets = [target]) :
    s.prepare = (s.opened target,
      Search.start s.settings.maxSize (goals target) (s.opened target).seeds
        ((s.opened target).seeds.foldl recordPremise s.journal)) := by
  have hs : { s with narrative := "" }.decompose = s.opened target := by
    rw [decompose_eq (s := { s with narrative := "" }) h]
    simp [opened]
  unfold prepare
  rw [hs]
  rfl

theorem mem_seeds {s : Session} {x : Sheet} (h : x ∈ s.seeds) :
    (∃ p ∈ s.premises, x = p.normalize) ∨ x = some Schemas.contraposition := by
  unfold seeds at h
  obtain h | h := List.mem_append.mp h
  · obtain ⟨p, hp, rfl⟩ := List.mem_map.mp h
    exact .inl ⟨p, hp, rfl⟩
  · split at h
    · exact .inr (List.mem_singleton.mp h)
    · cases h

/-- What a session says that has found a proof and replayed it. -/
structure Told (s : Session) (search : Search) (stored : Except ProverError Journal)
    (s' : Session) (p t : Sheet) (j : Journal) (ledger : Ledger) (steps : List Step) : Prop where
  promoted : p ∈ search.promoted
  target : t ∈ s.targets
  settles : p.settles t = true
  stored_eq : stored = .ok j
  ledger_eq : j.ledger = .ok ledger
  chain_eq : ledger.chain p.text = .ok steps
  narrative_eq : s'.narrative = s.narrative ++ chainText steps ++
    linesText (instantiation p t ++ ["proved: " ++ (s.targets.head?.getD none).text])

/-- A finished search leads to no answer but these. -/
theorem conclude_cases (s : Session) (search : Search) (stored : Except ProverError Journal) :
    ((∀ p ∈ search.promoted, p.settled? s.targets = none) ∧
      (s.conclude search stored).1 = .ok .notFound ∧
        (s.conclude search stored).2.phase = .failed) ∨
    ((s.conclude search stored).1 = .ok .proved ∧ (s.conclude search stored).2.phase = .rendered ∧
      ∃ p t j ledger steps,
        Told s search stored (s.conclude search stored).2 p t j ledger steps) ∨
    ∃ e p t, p ∈ search.promoted ∧ p.settled? s.targets = some t ∧
      (stored.bind fun j => j.ledger.bind (·.chain p.text)) = .error e ∧
        (s.conclude search stored).1 = .error e ∧ (s.conclude search stored).2.phase = .failed := by
  unfold conclude reconstruct
  cases hproof : proof? { s with premises := search.promoted, journal := search.journal } with
  | none =>
      refine .inl ⟨fun p hp => ?_, rfl, rfl⟩
      have hnone := List.findSome?_eq_none_iff.mp hproof p hp
      simpa using hnone
  | some found =>
      obtain ⟨p, hp, hfound⟩ := List.exists_of_findSome?_eq_some hproof
      obtain ⟨t, ht, rfl⟩ := Option.map_eq_some_iff.mp hfound
      dsimp only
      cases hchain : stored.bind fun j => j.ledger.bind (·.chain p.text) with
      | error e => exact .inr (.inr ⟨e, p, t, hp, ht, hchain, rfl, rfl⟩)
      | ok steps =>
          refine .inr (.inl ⟨rfl, rfl, p, t, ?_⟩)
          cases stored with
          | error e => cases hchain
          | ok j =>
              cases hledger : j.ledger with
              | error e =>
                  simp only [Except.bind, hledger] at hchain
                  cases hchain
              | ok ledger =>
                  simp only [Except.bind, hledger] at hchain
                  refine ⟨j, ledger, steps, hp, List.mem_of_find?_eq_some ht, ?_, rfl, hledger,
                    hchain, ?_⟩
                  · simpa using List.find?_some ht
                  · simp [foldl_say, say, linesText, String.append_assoc]

/-- The formulas that a search promoted and its journal are taken over as they are. -/
theorem conclude_frame (s : Session) (search : Search) (stored : Except ProverError Journal) :
    (s.conclude search stored).2.premises = search.promoted ∧
      (s.conclude search stored).2.targets = s.targets ∧
        (s.conclude search stored).2.journal = search.journal := by
  unfold conclude reconstruct
  split
  · exact ⟨rfl, rfl, rfl⟩
  · split
    · exact ⟨rfl, rfl, rfl⟩
    · simp [foldl_say, say]

/-! ### The life of a session -/

/-- The sessions that come about from a start, if `store` says what the file of a journal gives
back. -/
inductive Reached (store : Journal → Except ProverError Journal) (settings : Settings)
    (premises : List Sheet) (target : Sheet) : Session → Prop
  | start {s : Session} (h : Session.start settings premises target = .ok s) :
      Reached store settings premises target s
  | recordClassical {s : Session} (h : Reached store settings premises target s) :
      Reached store settings premises target s.recordClassical
  | solve {s : Session} (h : Reached store settings premises target s) (looks : Nat) :
      Reached store settings premises target (s.solveStoring store looks).2

variable {store : Journal → Except ProverError Journal} {settings : Settings}
  {premises : List Sheet} {target : Sheet} {s : Session}

theorem eq_of_start (h : Session.start settings premises target = .ok s) :
    s = { settings, premises, targets := [target] } := by
  unfold Session.start at h
  split at h
  · cases h
  · exact (Except.ok.inj h).symm

theorem solveStoring_of_ready (h : s.phase = .ready) (looks : Nat) :
    s.solveStoring store looks =
      s.prepare.1.conclude (s.prepare.2.run looks).2 (store (s.prepare.2.run looks).2.journal) := by
  simp [solveStoring, settled?, h]

theorem solveStoring_of_not_ready (store : Journal → Except ProverError Journal)
    (h : s.phase ≠ .ready) (looks : Nat) :
    (s.solveStoring store looks).2 = s ∧
      ((s.solveStoring store looks).1 = .ok .proved ↔ s.phase = .rendered) := by
  cases hphase : s.phase with
  | ready => exact absurd hphase h
  | rendered => simp [solveStoring, settled?, hphase]
  | failed => simp [solveStoring, settled?, hphase]

/-- Once asked, a session is not ready any more. It has found a proof exactly if it says so. -/
theorem phase_solveStoring (s : Session) (looks : Nat) :
    (s.solveStoring store looks).2.phase ≠ .ready ∧
      ((s.solveStoring store looks).1 = .ok .proved ↔
        (s.solveStoring store looks).2.phase = .rendered) := by
  by_cases hphase : s.phase = .ready
  · rw [solveStoring_of_ready hphase]
    obtain ⟨-, hanswer, hafter⟩ | ⟨hanswer, hafter, -⟩ | ⟨e, p, t, -, -, -, hanswer, hafter⟩ :=
      conclude_cases s.prepare.1 (s.prepare.2.run looks).2 (store (s.prepare.2.run looks).2.journal)
    · simp [hanswer, hafter]
    · simp [hanswer, hafter]
    · simp [hanswer, hafter]
  · obtain ⟨hsame, hanswer⟩ := solveStoring_of_not_ready store hphase looks
    rw [hsame]
    exact ⟨hphase, hanswer⟩

/-- As long as a session is ready, its premises and its target are those it was begun with. -/
theorem Reached.of_ready (h : Reached store settings premises target s)
    (hready : s.phase = .ready) :
    s.settings = settings ∧ s.premises = premises ∧ s.targets = [target] := by
  induction h with
  | start h =>
      obtain rfl := eq_of_start h
      exact ⟨rfl, rfl, rfl⟩
  | recordClassical _ ih => exact ih hready
  | solve _ looks => exact absurd hready (phase_solveStoring _ looks).1

theorem Reached.of_rendered (h : Reached store settings premises target s)
    (hrendered : s.phase = .rendered) :
    ∃ s₀ looks, Reached store settings premises target s₀ ∧ s₀.phase = .ready ∧
      (s₀.solveStoring store looks).1 = .ok .proved ∧
        (s₀.solveStoring store looks).2.narrative = s.narrative := by
  induction h with
  | start h =>
      obtain rfl := eq_of_start h
      cases hrendered
  | recordClassical _ ih => exact ih hrendered
  | @solve s₁ h₁ looks ih =>
      by_cases hphase : s₁.phase = .ready
      · exact ⟨s₁, looks, h₁, hphase, (phase_solveStoring s₁ looks).2.mpr hrendered, rfl⟩
      · rw [(solveStoring_of_not_ready store hphase looks).1] at hrendered ⊢
        exact ih hrendered

/-- A session that says that the target is proved repeats what a ready one said. -/
theorem Reached.exists_ready (h : Reached store settings premises target s) {looks : Nat}
    (hproved : (s.solveStoring store looks).1 = .ok .proved) :
    ∃ s₀ looks₀, Reached store settings premises target s₀ ∧ s₀.phase = .ready ∧
      (s₀.solveStoring store looks₀).1 = .ok .proved ∧
        (s₀.solveStoring store looks₀).2.narrative = (s.solveStoring store looks).2.narrative := by
  exact (h.solve looks).of_rendered ((phase_solveStoring s looks).2.mp hproved)

/-- A ready session that finds a proof settles one of its goals by a formula that the search came to
from the assumptions. -/
theorem Reached.told (h : Reached store settings premises target s) (hready : s.phase = .ready)
    {looks : Nat} (hproved : (s.solveStoring store looks).1 = .ok .proved) :
    ∃ p t j ledger steps, Told (s.opened target) (s.prepare.2.run looks).2
      (store (s.prepare.2.run looks).2.journal) (s.solveStoring store looks).2 p t j ledger
        steps := by
  obtain ⟨-, -, htargets⟩ := h.of_ready hready
  have hopened : s.prepare.1 = s.opened target := by rw [prepare_eq htargets]
  rw [solveStoring_of_ready hready, hopened] at hproved ⊢
  obtain ⟨-, hanswer, -⟩ | ⟨-, -, htold⟩ | ⟨e, p, t, -, -, -, hanswer, -⟩ :=
    conclude_cases (s.opened target) (s.prepare.2.run looks).2
      (store (s.prepare.2.run looks).2.journal)
  · rw [hanswer] at hproved
    cases hproved
  · exact htold
  · rw [hanswer] at hproved
    cases hproved

end Session

end Detachment

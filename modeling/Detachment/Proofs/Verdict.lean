import Detachment.Proofs.Generations
import Detachment.Proofs.Narrative

/-!
# The answer of a session

A search notices at once when it promotes a formula that settles a target, and stops. The session
then looks through all promoted formulas once more, from the first on, to find the one whose proof
it tells. Both agree: the session says `proved` exactly if the search has found something, and what
it replays is the formula promoted last. Asked again, it repeats its answer.
-/
namespace Detachment

open Text

theorem toList_linesText_cons (l : String) (ls : List String) :
    (linesText (l :: ls)).toList = l.toList ++ '\n' :: (linesText ls).toList := by
  simp [linesText, String.toList_append]

/-- A line without line feeds is found again at the end of a text, whatever the lines before it. -/
theorem getLast?_lines (ls : List String) {l : String} (h : '\n' ∉ l.toList) :
    (lines (linesText (ls ++ [l])).toList).getLast? = some l.toList := by
  have hsplit : ∃ before, splitWhere (· == '\n') (linesText (ls ++ [l])).toList =
      before ++ [l.toList, []] := by
    induction ls with
    | nil =>
        refine ⟨[], ?_⟩
        rw [List.nil_append, toList_linesText_cons, splitWhere_append (beq_newline_eq_false h) rfl]
        rfl
    | cons l' ls ih =>
        obtain ⟨before, hbefore⟩ := ih
        refine ⟨splitWhere (· == '\n') l'.toList ++ before, ?_⟩
        rw [List.cons_append, toList_linesText_cons, splitWhere_separator _ rfl, hbefore,
          List.append_assoc]
  obtain ⟨before, hbefore⟩ := hsplit
  simp [lines, hbefore]

namespace Sheet

variable {p t : Sheet} {targets : List Sheet}

theorem settles_eq_false (h : p.settled? targets = none) (ht : t ∈ targets) :
    p.settles t = false := by
  simpa using List.find?_eq_none.mp h t ht

theorem isSome_settled (h : p.settles t = true) (ht : t ∈ targets) :
    (p.settled? targets).isSome = true :=
  List.find?_isSome.mpr ⟨t, ht, h⟩

end Sheet

namespace Session

variable {settings : Settings} {premises : List Sheet} {target : Sheet} {s : Session}

/-- The session has told the proof of the formula promoted last, which settles the goal `t`, and
ends with the target. -/
structure Rendered (s : Session) (target : Sheet) (earlier : List Sheet) (last t : Sheet)
    (ledger : Ledger) (steps : List Step) : Prop where
  phase_eq : s.phase = .rendered
  premises_eq : s.premises = earlier ++ [last]
  targets_eq : s.targets = goals target
  unsettled : ∀ p ∈ earlier, ∀ goal ∈ s.targets, p.settles goal = false
  target_mem : t ∈ s.targets
  settles : last.settles t = true
  ledger_eq : s.journal.ledger = .ok ledger
  chain_eq : ledger.chain last.text = .ok steps
  narrative_eq : s.narrative = linesText (target.discharges.map Discharge.text) ++
    chainText steps ++ linesText (instantiation last t ++ ["proved: " ++ target.text])
  last_line : (lines s.narrative.toList).getLast? = some ("proved: " ++ target.text).toList

theorem last_line_of_narrative {uses readings : List String} {steps : List Step}
    {narrative : String} (h : narrative = linesText uses ++ chainText steps ++
      linesText (readings ++ ["proved: " ++ target.text])) :
    (lines narrative.toList).getLast? = some ("proved: " ++ target.text).toList := by
  have hnarrative : narrative = linesText ((uses ++ steps.map Step.text ++ readings) ++
      ["proved: " ++ target.text]) := by
    rw [h]
    simp [linesText, chainText, Function.comp_def, String.append_assoc]
  rw [hnarrative]
  apply getLast?_lines
  simpa [String.toList_append] using (word_text target).newline_not_mem

theorem unsettled_prepare (h : s.targets = [target]) :
    Search.Unsettled (goals target) s.prepare.2 := by
  rw [prepare_eq h]
  exact Search.unsettled_start ..

/-- A ready session says `proved` exactly if its search has found something. -/
theorem Reached.proved_iff (h : Reached .ok settings premises target s) (hready : s.phase = .ready)
    (looks : Nat) :
    (s.solve looks).1 = .ok .proved ↔ (s.prepare.2.run looks).1 = .found := by
  have hfound := (unsettled_prepare (h.of_ready hready).2.2).run_eq_found_iff looks
  constructor
  · intro hproved
    obtain ⟨p, t, j, ledger, steps, htold⟩ := h.told hready hproved
    exact hfound.mpr ⟨p, htold.promoted, Sheet.isSome_settled htold.settles htold.target⟩
  · intro houtcome
    exact h.proved_of_settled hready (hfound.mp houtcome)

/-- If the target is proved, then by the formula promoted last. It is the first that settles a goal,
so the session finds it again. -/
theorem Reached.rendered (h : Reached .ok settings premises target s) (hready : s.phase = .ready)
    {looks : Nat} (hproved : (s.solve looks).1 = .ok .proved) :
    ∃ earlier last t ledger steps,
      Rendered (s.solve looks).2 target earlier last t ledger steps := by
  have htargets := (h.of_ready hready).2.2
  obtain ⟨p, t, j, ledger, steps, htold⟩ := h.told hready hproved
  have hrun := (unsettled_prepare htargets).run looks
  rw [if_pos ((h.proved_iff hready looks).mp hproved)] at hrun
  obtain ⟨earlier, last, hpromoted, hearlier, -⟩ := hrun
  have hlast : p = last := by
    have hp := htold.promoted
    rw [hpromoted, List.mem_append, List.mem_singleton] at hp
    obtain hp | hp := hp
    · have hfalse := Sheet.settles_eq_false (hearlier p hp) htold.target
      rw [htold.settles] at hfalse
      cases hfalse
    · exact hp
  subst hlast
  obtain ⟨hpremises, htargets', hjournal⟩ := conclude_frame s.prepare.1 (s.prepare.2.run looks).2
    (.ok (s.prepare.2.run looks).2.journal)
  rw [← solveStoring_of_ready hready] at hpremises htargets' hjournal
  have hgoals : (s.solve looks).2.targets = goals target := by
    rw [Session.solve, htargets', prepare_eq htargets]
    rfl
  refine ⟨earlier, p, t, ledger, steps, ?_⟩
  exact
    { phase_eq := (phase_solveStoring s looks).2.mp hproved
      premises_eq := hpremises.trans hpromoted
      targets_eq := hgoals
      unsettled := by
        rw [hgoals]
        exact fun q hq goal hgoal => Sheet.settles_eq_false (hearlier q hq) hgoal
      target_mem := by
        rw [hgoals]
        exact htold.target
      settles := htold.settles
      ledger_eq := by
        cases htold.stored_eq
        rw [Session.solve, hjournal]
        exact htold.ledger_eq
      chain_eq := htold.chain_eq
      narrative_eq := htold.narrative_eq
      last_line := last_line_of_narrative htold.narrative_eq }

end Session

end Detachment

import Detachment.Proofs.ModusPonens
import Detachment.Proofs.Normalization
import Detachment.Proofs.Readability
import Detachment.Proofs.Session
import Detachment.Proofs.Journal

/-!
# What a session records

All that a session records in its journal is either the normal form of a premise, a hypothesis or a
schema, or a conclusion of two formulas that were recorded before. All formulas that its search has
to do with are recorded.
-/
namespace Detachment

open Text

theorem word_text (x : Sheet) : Word x.text := by
  cases x with
  | none => exact word_of_all (by decide) (by decide)
  | some f => exact ⟨f.text_ne_nil, fun _ => (Formula.visible_text f).isBlank_eq_false⟩

theorem normalize_detach {minor major f : Formula Nat} (h : detach minor major = some f) :
    f.normalize = f := by
  obtain ⟨i, a, c, s, -, -, rfl⟩ := detach_eq_some_iff.mp h
  exact Formula.normalize_normalize _

theorem pos_of_normal {f : Formula Nat} (h : f.normalize = f) {v : Int} (hv : v ∈ f.vars) :
    0 < v := by
  rw [← h] at hv
  exact Formula.pos_of_mem_vars_normalize hv

/-- A derivation of the normal form of one of the `sources`, or of a conclusion of two normal
formulas. -/
inductive Derivation.Justified (sources : List Sheet) : Derivation → Prop
  | premise {x : Sheet} (hx : x ∈ sources) : Justified sources ⟨x.normalize.text, .premise⟩
  | modusPonens {minor major f : Formula Nat} (hminor : minor.normalize = minor)
      (hmajor : major.normalize = major) (hf : detach minor major = some f) :
      Justified sources ⟨f.text, .modusPonens minor.text major.text⟩

theorem Derivation.Justified.worded {sources : List Sheet} {d : Derivation}
    (h : d.Justified sources) : d.Worded := by
  cases h with
  | premise hx => exact ⟨word_text _, by simp [Derivation.parents]⟩
  | @modusPonens minor major f =>
      refine ⟨word_text (some f), ?_⟩
      simp only [Derivation.parents, List.mem_cons, List.not_mem_nil, or_false]
      rintro p (rfl | rfl)
      · exact word_text (some minor)
      · exact word_text (some major)

namespace Journal

variable {sources : List Sheet} {j : Journal} {K : Formula Nat → Prop}

/-- The journal holds justified derivations only, each after those it rests on, and the formulas
with the property `K` are normal and among those derived. -/
def Keeps (sources : List Sheet) (j : Journal) (K : Formula Nat → Prop) : Prop :=
  ∃ ds, j.Lists ds ∧ Rooted ds ∧ (∀ d ∈ ds, d.Justified sources) ∧
    ∀ f, K f → f.normalize = f ∧ f.text ∈ ds.map Derivation.formula

theorem keeps_empty : Keeps sources {} fun _ => False :=
  ⟨[], lists_empty, .nil, by simp, by simp⟩

theorem Keeps.mono {K' : Formula Nat → Prop} (h : j.Keeps sources K) (hK : ∀ f, K' f → K f) :
    j.Keeps sources K' := by
  obtain ⟨ds, hlists, hrooted, hjust, hkeeps⟩ := h
  exact ⟨ds, hlists, hrooted, hjust, fun f hf => hkeeps f (hK f hf)⟩

theorem Keeps.record {d : Derivation} (h : j.Keeps sources K) (hd : d.Justified sources)
    (hparents : ∀ p ∈ d.parents, ∃ f, K f ∧ f.text = p) :
    (j.record d).Keeps sources fun f => K f ∨ f.normalize = f ∧ f.text = d.formula := by
  obtain ⟨ds, hlists, hrooted, hjust, hkeeps⟩ := h
  refine ⟨ds ++ [d], hlists.record d, hrooted.snoc fun p hp => ?_, fun e he => ?_, fun f hf => ?_⟩
  · obtain ⟨f, hf, rfl⟩ := hparents p hp
    exact (hkeeps f hf).2
  · obtain he | he := List.mem_append.mp he
    · exact hjust e he
    · obtain rfl := List.mem_singleton.mp he
      exact hd
  · rw [List.map_append, List.mem_append]
    obtain hf | ⟨hnormal, htext⟩ := hf
    · exact ⟨(hkeeps f hf).1, .inl (hkeeps f hf).2⟩
    · exact ⟨hnormal, .inr (by simp [htext])⟩

theorem Keeps.premise {x : Sheet} (h : j.Keeps sources K) (hx : ∃ y ∈ sources, x = y.normalize) :
    (Session.recordPremise j x).Keeps sources fun f => K f ∨ some f = x := by
  obtain ⟨y, hy, rfl⟩ := hx
  refine (h.record (.premise hy) (by simp [Derivation.parents])).mono fun f hf => ?_
  refine hf.imp_right fun hf => ?_
  obtain ⟨g, rfl, hg⟩ := Option.map_eq_some_iff.mp hf.symm
  rw [← hg]
  exact ⟨Formula.normalize_normalize g, rfl⟩

theorem Keeps.premises {xs : List Sheet} (h : j.Keeps sources K)
    (hxs : ∀ x ∈ xs, ∃ y ∈ sources, x = y.normalize) :
    (xs.foldl Session.recordPremise j).Keeps sources fun f => K f ∨ some f ∈ xs := by
  induction xs generalizing j K with
  | nil => exact h.mono (by simp)
  | cons x xs ih =>
      refine (ih (h.premise (hxs x (by simp))) fun y hy => hxs y (by simp [hy])).mono fun f hf => ?_
      rw [List.mem_cons] at hf
      exact or_assoc.mpr hf

theorem Keeps.derive {minor major g : Formula Nat} (h : j.Keeps sources K) (hminor : K minor)
    (hmajor : K major) (hg : detach minor major = some g) :
    (j.record ⟨g.text, .modusPonens minor.text major.text⟩).Keeps sources
      fun f => K f ∨ f = g := by
  obtain ⟨ds, hkeep⟩ := h
  have hnormal {f : Formula Nat} (hf : K f) : f.normalize = f := (hkeep.2.2.2 f hf).1
  refine (Keeps.record ⟨ds, hkeep⟩ (.modusPonens (hnormal hminor) (hnormal hmajor) hg) ?_).mono ?_
  · simp only [Derivation.parents, List.mem_cons, List.not_mem_nil, or_false]
    rintro p (rfl | rfl)
    · exact ⟨minor, hminor, rfl⟩
    · exact ⟨major, hmajor, rfl⟩
  · rintro f (hf | rfl)
    · exact .inl hf
    · exact .inr ⟨normalize_detach hg, rfl⟩

end Journal

/-- Along a search the journal keeps all formulas that the search has to do with. -/
theorem Search.keeps_run {sources : List Sheet} {s : Search}
    (h : s.journal.Keeps sources s.Mentions) (looks : Nat) :
    (s.run looks).2.journal.Keeps sources (s.run looks).2.Mentions := by
  refine run_preserves (I := fun s => s.journal.Keeps sources s.Mentions) ?_ h looks
  intro s s' hmove ih
  obtain ⟨hjournal, hmentions⟩ | ⟨minor, major, g, hminor, hmajor, hg, hjournal, hmentions⟩ :=
    hmove.cases
  · rw [hjournal]
    obtain ⟨ds, hkeep⟩ := id ih
    refine ih.mono fun f hf => ?_
    obtain hf | ⟨g, hg, rfl⟩ := hmentions f hf
    · exact hf
    · rw [(hkeep.2.2.2 g hg).1]
      exact hg
  · rw [hjournal]
    exact (ih.derive hminor hmajor hg).mono hmentions

namespace Session

/-- What the premises of a proof can be: the premises of the session, the hypotheses of its target,
and the schemas. -/
def sources (premises : List Sheet) (target : Sheet) : List Sheet :=
  assumptions premises target ++ (Schemas.contraposition :: Schemas.classical).map some

theorem normalize_schema {f : Formula Nat} (h : f ∈ Schemas.contraposition :: Schemas.classical) :
    f.normalize = f := by
  have hall : ∀ f ∈ Schemas.contraposition :: Schemas.classical, f.normalize = f := by decide
  exact hall f h

variable {store : Journal → Except ProverError Journal} {settings : Settings}
  {premises : List Sheet} {target : Sheet} {s : Session}

theorem normalize_seeds {x : Sheet} (h : x ∈ s.seeds) : x.normalize = x := by
  obtain ⟨p, -, rfl⟩ | rfl := mem_seeds h
  · cases p with
    | none => rfl
    | some f => exact congrArg some f.normalize_normalize
  · exact congrArg some (normalize_schema (by simp))

theorem schema_source {f : Formula Nat} (h : f ∈ Schemas.contraposition :: Schemas.classical) :
    ∃ y ∈ sources premises target, some f = y.normalize :=
  ⟨some f, List.mem_append_right _ (List.mem_map_of_mem h), congrArg some (normalize_schema h).symm⟩

theorem keeps_recordLemmas {sources : List Sheet} {j : Journal} (plan : List (Nat × Nat))
    {known : List Sheet} (h : j.Keeps sources fun f => some f ∈ known) :
    (recordLemmas plan known j).Keeps sources fun _ => False := by
  induction plan generalizing known j with
  | nil => exact h.mono (by simp)
  | cons step plan ih =>
      obtain ⟨i, k⟩ := step
      have hmem {n : Nat} {f : Formula Nat} (hf : (known[n]?).getD none = some f) :
          some f ∈ known := by
        cases hn : known[n]? with
        | none => simp [hn] at hf
        | some x =>
            obtain rfl : x = some f := by simpa [hn] using hf
            exact List.mem_of_getElem? hn
      rw [recordLemmas]
      -- A lemma that does not exist is known as a blank sheet, from which nothing follows.
      cases hconclusion : Sheet.detach ((known[i]?).getD none) ((known[k]?).getD none) with
      | none => exact ih (h.mono (by simp))
      | some g =>
          obtain ⟨minor, major, hminor, hmajor, hg⟩ := Sheet.detach_eq_some_iff.mp hconclusion
          rw [hminor, hmajor]
          refine ih ((h.derive (hmem hminor) (hmem hmajor) hg).mono fun f hf => ?_)
          simpa using hf

theorem keeps_recordClassical
    (h : s.journal.Keeps (sources premises target) fun _ => False) :
    s.recordClassical.journal.Keeps (sources premises target) fun _ => False := by
  refine keeps_recordLemmas lemmaPlan ((h.premises fun x hx => ?_).mono fun f hf => .inr hf)
  obtain ⟨f, hf, rfl⟩ := List.mem_map.mp hx
  exact schema_source (List.mem_cons_of_mem _ hf)

theorem Reached.keeps (h : Reached store settings premises target s) (hready : s.phase = .ready) :
    s.journal.Keeps (sources premises target) fun _ => False := by
  induction h with
  | start h =>
      obtain rfl := eq_of_start h
      exact Journal.keeps_empty
  | recordClassical _ ih => exact keeps_recordClassical (ih hready)
  | solve _ looks => exact absurd hready (phase_solveStoring _ looks).1

theorem Reached.keeps_search (h : Reached store settings premises target s)
    (hready : s.phase = .ready) (looks : Nat) :
    (s.prepare.2.run looks).2.journal.Keeps (sources premises target)
      (s.prepare.2.run looks).2.Mentions := by
  obtain ⟨-, hpremises, htargets⟩ := h.of_ready hready
  refine Search.keeps_run ?_ looks
  rw [prepare_eq htargets]
  refine ((h.keeps hready).premises fun x hx => ?_).mono ?_
  · obtain ⟨p, hp, rfl⟩ | rfl := mem_seeds hx
    · exact ⟨p, List.mem_append_left _ (hpremises ▸ hp), rfl⟩
    · exact schema_source (by simp)
  · rintro f (hf | hf | hf)
    · cases hf
    · exact .inr hf
    · cases hf

end Session

end Detachment

import Detachment.Proofs.Chain

/-!
# Which replays are proofs

The replay of a proof succeeds if and only if everything that it rests on has a derivation. Whether
it is a proof is another question: its steps refer to earlier steps only if and only if no formula
rests on itself. In a ledger that lists every formula after those it was obtained from this is so.
In a circular one it is not, and yet nothing is missing.
-/
namespace Detachment.Ledger

open Relation

variable {ledger : Ledger} {proof f : String} {keys : List String}

/-- No step refers to itself or to a later one. -/
def Backward (steps : List Step) : Prop :=
  ∀ s ∈ steps, ∀ i j, s.premises = some (i, j) → i < s.number ∧ j < s.number

namespace Recounts

variable {steps : List Step} (h : ledger.Recounts proof steps)
include h

theorem number_eq {i : Nat} {s : Step} (hs : steps[i]? = some s) : s.number = i + 1 := by
  have hnumber : (steps.map Step.number)[i]? = some s.number := by
    rw [List.getElem?_map, hs, Option.map_some]
  rw [h.numbers] at hnumber
  obtain ⟨hi, hnumber⟩ := List.getElem?_eq_some_iff.mp hnumber
  rw [List.getElem_range'] at hnumber
  omega

theorem exists_step (hf : f ∈ ledger.support proof) : ∃ s ∈ steps, s.formula = f := by
  obtain ⟨s, hs, rfl⟩ := List.mem_map.mp ((h.mem_iff f).mpr hf)
  exact ⟨s, hs, rfl⟩

theorem step_eq {s a : Step} (hs : s ∈ steps) (ha : a ∈ steps) (hsa : s.formula = a.formula) :
    s = a :=
  List.inj_on_of_nodup_map h.nodup hs ha hsa

/-- If all steps refer to earlier ones, then numbers decrease along citations. -/
theorem number_lt_of_path (hback : Backward steps) {p : String}
    (hpath : TransGen ledger.Cites f p) {s : Step} (hs : s ∈ steps) (hf : s.formula = f) :
    ∃ a ∈ steps, a.formula = p ∧ a.number < s.number := by
  have hcited {s : Step} (hs : s ∈ steps) {p : String} (hp : ledger.Cites s.formula p) :
      ∃ a ∈ steps, a.formula = p ∧ a.number < s.number := by
    obtain ⟨d, hd, hp⟩ := hp
    obtain ⟨e, he, ⟨hrule, -⟩ | ⟨a, ha, b, hb, hrule, hpremises⟩⟩ := h.rule s hs
    all_goals obtain rfl : d = e := Option.some.inj (hd.symm.trans he)
    · rw [Derivation.parents_of_premise hrule] at hp
      cases hp
    · obtain ⟨hlt, hlt'⟩ := hback s hs _ _ hpremises
      obtain rfl | rfl : p = a.formula ∨ p = b.formula := by
        simpa [Derivation.parents, hrule] using hp
      · exact ⟨a, ha, rfl, hlt⟩
      · exact ⟨b, hb, rfl, hlt'⟩
  subst hf
  induction hpath with
  | single hstep => exact hcited hs hstep
  | tail _ hstep ih =>
      obtain ⟨a, ha, rfl, hlt⟩ := ih
      obtain ⟨b, hb, hbp, hlt'⟩ := hcited ha hstep
      exact ⟨b, hb, hbp, hlt'.trans hlt⟩

/-- All steps refer to earlier ones if and only if no formula of the support rests on itself. -/
theorem backward_iff :
    Backward steps ↔ ∀ f ∈ ledger.support proof, ¬TransGen ledger.Cites f f := by
  constructor
  · intro hback f hf hcycle
    obtain ⟨s, hs, hsf⟩ := h.exists_step hf
    obtain ⟨a, ha, haf, hlt⟩ := h.number_lt_of_path hback hcycle hs hsf
    obtain rfl := h.step_eq ha hs (haf.trans hsf.symm)
    omega
  · intro hacyclic s hs i j hpremises
    obtain ⟨d, hd, ⟨-, hnone⟩ | ⟨a, ha, b, hb, hrule, hsome⟩⟩ := h.rule s hs
    · rw [hnone] at hpremises
      cases hpremises
    rw [hsome] at hpremises
    cases hpremises
    have hmem : s.formula ∈ ledger.support proof :=
      (h.mem_iff _).mp (List.mem_map_of_mem hs)
    -- A cited formula that rests on the citing one would make it rest on itself.
    have hlt {c : Step} (hc : c ∈ steps) (hp : c.formula ∈ d.parents) : c.number < s.number := by
      have hcites : ledger.Cites s.formula c.formula := ⟨d, hd, hp⟩
      refine (h.earlier s hs c hc hcites).resolve_right fun hpath => ?_
      exact hacyclic _ hmem (.head' hcites hpath)
    have hparents : d.parents = [a.formula, b.formula] := by simp [Derivation.parents, hrule]
    exact ⟨hlt ha (by simp [hparents]), hlt hb (by simp [hparents])⟩

end Recounts

/-! ### Ordered ledgers -/

namespace Ordered

variable (h : ledger.Ordered keys)
include h

theorem mem_keys_of_support (hproof : proof ∈ keys) (hf : f ∈ ledger.support proof) : f ∈ keys := by
  refine support_induction hproof ?_ hf
  rintro f p - ⟨d, hd, hp⟩
  exact (h.parents_lt f d hd p hp).1

theorem acyclic (f : String) : ¬TransGen ledger.Cites f f := by
  have hlt {f p : String} (hpath : TransGen ledger.Cites f p) : keys.idxOf p < keys.idxOf f := by
    induction hpath with
    | single hstep =>
        obtain ⟨d, hd, hp⟩ := hstep
        exact (h.parents_lt _ d hd _ hp).2
    | tail _ hstep ih =>
        obtain ⟨d, hd, hp⟩ := hstep
        exact (h.parents_lt _ d hd _ hp).2.trans ih
  exact fun hcycle => Nat.lt_irrefl _ (hlt hcycle)

/-- Every formula of an ordered ledger has a proof that can be replayed from it. -/
theorem exists_chain (hproof : proof ∈ keys) :
    ∃ steps, ledger.chain proof = .ok steps ∧ ledger.Recounts proof steps ∧ Backward steps := by
  obtain ⟨f, hf, hnone, -⟩ | ⟨-, steps, hsteps, hrecounts⟩ := chain_cases h.formula_eq proof
  · have hmem := (h.mem_iff f).mpr (h.mem_keys_of_support hproof hf)
    exact absurd hmem (not_mem_of_getElem? hnone)
  · exact ⟨steps, hsteps, hrecounts, hrecounts.backward_iff.mpr fun f _ => h.acyclic f⟩

end Ordered

/-! ### Every ledger -/

/-- The replay of a proof is correct in every ledger. If something that the proof rests on has no
derivation, the replay fails and names such a formula. If all of it has and nothing rests on itself,
then the replay succeeds. Its steps are numbered from one to the number of formulas in the support
and tell each of them once, premises first and the proved formula last. Every derived step refers to
the steps of its minor and its major premise, and these are earlier ones. -/
theorem replay_recounts_support (hkeyed : ledger.Keyed) (proof : String) :
    ((∃ f ∈ ledger.support proof, ledger[f]? = none) →
      ∃ f ∈ ledger.support proof, ledger[f]? = none ∧
        ledger.chain proof = .error (.missingDerivation f)) ∧
    ((∀ f ∈ ledger.support proof, ∃ d, ledger[f]? = some d) →
      (∀ f ∈ ledger.support proof, ¬TransGen ledger.Cites f f) →
        ∃ steps, ledger.chain proof = .ok steps ∧ ledger.Recounts proof steps ∧
          Backward steps) := by
  obtain ⟨f, hf, hnone, herror⟩ | ⟨hrec, steps, hsteps, hrecounts⟩ := chain_cases hkeyed proof
  · refine ⟨fun _ => ⟨f, hf, hnone, herror⟩, fun hall => ?_⟩
    obtain ⟨d, hd⟩ := hall f hf
    rw [hnone] at hd
    cases hd
  · refine ⟨?_, fun _ hacyclic => ⟨steps, hsteps, hrecounts, hrecounts.backward_iff.mpr hacyclic⟩⟩
    rintro ⟨f, hf, hnone⟩
    exact absurd (hrec f hf) (not_mem_of_getElem? hnone)

/-- A proof of `r` that uses `q` at two depths. -/
def sharedDerivations : List Derivation :=
  [⟨"p", .premise⟩, ⟨"p>q", .premise⟩, ⟨"q>(q>r)", .premise⟩, ⟨"q", .modusPonens "p" "p>q"⟩,
    ⟨"q>r", .modusPonens "q" "q>(q>r)"⟩, ⟨"r", .modusPonens "q" "q>r"⟩]

/-- A derivation of `b` without that of its major premise. -/
def brokenDerivations : List Derivation :=
  [⟨"b", .modusPonens "a" "a>b"⟩, ⟨"a", .premise⟩]

theorem replay_recounts_support_shared :
    (∃ steps, (sharedDerivations.foldl add ∅).chain "r" = .ok steps ∧
      (sharedDerivations.foldl add ∅).Recounts "r" steps ∧ Backward steps) ∧
    ∃ f ∈ (brokenDerivations.foldl add ∅).support "b", (brokenDerivations.foldl add ∅)[f]? = none ∧
      (brokenDerivations.foldl add ∅).chain "b" = .error (.missingDerivation f) := by
  constructor
  · have hrooted : Rooted sharedDerivations :=
      (((((Rooted.nil.snoc (by simp [Derivation.parents])).snoc (by simp [Derivation.parents])).snoc
        (by simp [Derivation.parents])).snoc (by simp [Derivation.parents])).snoc
          (by simp [Derivation.parents])).snoc (by simp [Derivation.parents])
    obtain ⟨keys, hkeys, hmem⟩ := exists_ordered hrooted
    have hproof : "r" ∈ keys := (hmem _).mpr (by simp [sharedDerivations])
    refine (replay_recounts_support (keyed_foldl _) "r").2 (fun f hf => ?_) fun f _ =>
      hkeys.acyclic f
    exact exists_of_mem ((hkeys.mem_iff f).mpr (hkeys.mem_keys_of_support hproof hf))
  · refine (replay_recounts_support (keyed_foldl _) "b").1 ⟨"a>b", ?_, ?_⟩
    · refine support_cited (mem_support_self _ _) ⟨⟨"b", .modusPonens "a" "a>b"⟩, ?_, ?_⟩
      · simp [brokenDerivations, add, Std.HashMap.getElem_insertIfNew]
      · simp [Derivation.parents]
    · simp [brokenDerivations, add]

/-- Circularity does not make a replay fail, but it shows in the steps. The replay of a proof fails
if and only if something that the proof rests on has no derivation. If it succeeds, its steps refer
to earlier steps only if and only if nothing that the proof rests on rests on itself. -/
theorem replay_backward_iff_acyclic (hkeyed : ledger.Keyed) (proof : String) :
    ((∃ e, ledger.chain proof = .error e) ↔ ∃ f ∈ ledger.support proof, ledger[f]? = none) ∧
    ∀ steps, ledger.chain proof = .ok steps →
      (Backward steps ↔ ∀ f ∈ ledger.support proof, ¬TransGen ledger.Cites f f) := by
  obtain ⟨f, hf, hnone, herror⟩ | ⟨hrec, steps, hsteps, hrecounts⟩ := chain_cases hkeyed proof
  · refine ⟨iff_of_true ⟨_, herror⟩ ⟨f, hf, hnone⟩, fun steps hsteps => ?_⟩
    rw [herror] at hsteps
    cases hsteps
  · refine ⟨iff_of_false ?_ ?_, fun steps' hsteps' => ?_⟩
    · rintro ⟨e, he⟩
      rw [hsteps] at he
      cases he
    · rintro ⟨f, hf, hnone⟩
      exact not_mem_of_getElem? hnone (hrec f hf)
    · obtain rfl : steps = steps' := Except.ok.inj (hsteps.symm.trans hsteps')
      exact hrecounts.backward_iff

/-- The formula `a` is said to follow from itself and `a>a`. -/
def circularLedger : Ledger :=
  [⟨"a", .modusPonens "a" "a>a"⟩, ⟨"a>a", .premise⟩].foldl add ∅

theorem cites_circular : circularLedger.Cites "a" "a" := by
  refine ⟨⟨"a", .modusPonens "a" "a>a"⟩, ?_, by simp [Derivation.parents]⟩
  simp [circularLedger, add, Std.HashMap.getElem_insertIfNew]

theorem chain_circular :
    circularLedger.chain "a" = .ok [⟨1, "a>a", none⟩, ⟨2, "a", some (2, 1)⟩] := by
  have hsize : circularLedger.size = 2 := by
    simp [circularLedger, add, Std.HashMap.size_insertIfNew]
  have hself : circularLedger["a"]? = some ⟨"a", .modusPonens "a" "a>a"⟩ := by
    simp [circularLedger, add, Std.HashMap.getElem_insertIfNew]
  have hpremise : circularLedger["a>a"]? = some ⟨"a>a", .premise⟩ := by
    simp [circularLedger, add, Std.HashMap.getElem_insertIfNew]
  have hgather : circularLedger.gather "a" = .ok [⟨"a>a", .premise⟩] := by
    simp [gather, hsize, gatherLoop, get, hself, hpremise]
  have hvisit : circularLedger.visit 3 "a" ⟨[⟨"a>a", .premise⟩], []⟩ =
      ⟨[⟨"a>a", .premise⟩, ⟨"a", .modusPonens "a" "a>a"⟩], ["a"]⟩ := by
    simp [visit, Trail.number?, hself, Derivation.parents]
  rw [chain, hgather, hsize]
  simp only [bind, Except.bind, hvisit]
  rfl

/-- A replay succeeds although the proved formula rests on itself. -/
theorem circular_replay_succeeds :
    circularLedger.Keyed ∧ TransGen circularLedger.Cites "a" "a" ∧
      circularLedger.chain "a" = .ok [⟨1, "a>a", none⟩, ⟨2, "a", some (2, 1)⟩] :=
  ⟨keyed_foldl _, .single cites_circular, chain_circular⟩

theorem replay_backward_iff_acyclic_circular :
    circularLedger.Keyed ∧ ∃ steps, circularLedger.chain "a" = .ok steps ∧ ¬Backward steps := by
  refine ⟨keyed_foldl _, _, chain_circular, fun hbackward => ?_⟩
  have hiff := (replay_backward_iff_acyclic (keyed_foldl _) "a").2 _ chain_circular
  exact hiff.mp hbackward "a" (mem_support_self _ _) (.single cites_circular)

end Detachment.Ledger

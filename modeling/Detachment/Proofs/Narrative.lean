import Detachment.Proofs.Replay
import Detachment.Proofs.Mirroring
import Detachment.Proofs.Recording

/-!
# The narrative is a proof

The journal of a session can always be read back and a proof replayed from it. Every line that is
told can be checked against the earlier lines it refers to.

A line is a text. It stands for every legible formula with that text: they all have one outline, and
modus ponens draws the same conclusion from all of them.
-/
namespace Detachment

/-! ### Legible formulas -/

namespace Leaf

/-- The operation of a letter is its sign, and its number can be seen from its text. -/
def Legible (a : Leaf) : Prop :=
  match a.kind with
  | .unknown => True
  | .const => (a.op = .nop ∨ a.op = .negation) ∧ 0 ≤ a.value
  | .var => (a.op = .nop ∨ a.op = .negation) ∧ 0 < a.value

theorem Legible.leaf {a : Leaf} (h : a.Legible) : Fragment.legible.leaf a := by
  obtain ⟨k, op, v⟩ := a
  cases k with
  | unknown => exact .inl rfl
  | const =>
      obtain ⟨rfl | rfl, hv⟩ := h
      · exact .inr (congrArg (Leaf.mk .const .nop) (Int.natAbs_of_nonneg hv))
      · exact .inr (congrArg (Leaf.mk .const .negation) (Int.natAbs_of_nonneg hv))
  | var =>
      obtain ⟨rfl | rfl, hv⟩ := h
      · exact .inr rfl
      · exact .inr rfl

theorem legible_tidy {a : Leaf} (h : ∀ v ∈ a.varNumber?, 0 < v) : a.tidy.Legible := by
  have hsign (b : Bool) : (if b then Operation.negation else .nop) = .nop ∨
      (if b then Operation.negation else .nop) = .negation := by
    cases b <;> simp
  obtain ⟨k, op, v⟩ := a
  cases k with
  | unknown => trivial
  | const => exact ⟨hsign _, Int.natCast_nonneg _⟩
  | var => exact ⟨hsign _, h v rfl⟩

end Leaf

namespace Formula

variable {α : Type}

/-- All leaves are legible. -/
def Legible : Formula α → Prop
  | leaf _ a => a.Legible
  | node _ _ l r => l.Legible ∧ r.Legible

theorem Legible.within {t : Formula α} (h : t.Legible) : t.Within .legible := by
  induction t with
  | leaf s a => exact Leaf.Legible.leaf h
  | node s c l r ihl ihr => exact ⟨trivial, ihl h.1, ihr h.2⟩

theorem Legible.pos {t : Formula α} (h : t.Legible) {v : Int} (hv : v ∈ t.vars) : 0 < v := by
  induction t with
  | leaf s a =>
      have hnum : a.varNumber? = some v := by simpa using hv
      obtain ⟨hvar, rfl⟩ := Leaf.varNumber?_eq_some.mp hnum
      have hk : a.kind = .var := by simpa [Leaf.isVariable] using hvar
      simp only [Legible, Leaf.Legible, hk] at h
      exact h.2
  | node s c l r ihl ihr =>
      rw [vars_node, List.mem_append] at hv
      exact hv.elim (ihl h.1) (ihr h.2)

theorem legible_map {β : Type} (f : α → β) {t : Formula α} (h : t.Legible) : (t.map f).Legible := by
  induction t with
  | leaf s a => exact h
  | node s c l r ihl ihr => exact ⟨ihl h.1, ihr h.2⟩

theorem legible_outline {t : Formula α} (h : ∀ v ∈ t.vars, 0 < v) : t.outline.Legible := by
  induction t with
  | leaf s a => exact Leaf.legible_tidy (by simpa using h)
  | node s c l r ihl ihr =>
      exact ⟨ihl fun v hv => h v (by simp [hv]), ihr fun v hv => h v (by simp [hv])⟩

/-- A formula with positive variables has the text of a legible one. -/
theorem exists_legible (t : Formula α) (h : ∀ v ∈ t.vars, 0 < v) :
    ∃ f : Formula Nat, f.Legible ∧ f.text = t.text := by
  refine ⟨t.outline.map fun _ => 0, legible_map _ (legible_outline h), ?_⟩
  rw [← text_outline, outline_map, text_outline, text_outline]

end Formula

/-! ### Replaying a recorded formula -/

/-- Modus ponens leads to `conclusion` from any two legible formulas with the texts `minor` and
`major`. -/
def Concludes (minor major conclusion : String) : Prop :=
  ∀ a b : Formula Nat, a.Legible → b.Legible → a.text = minor → b.text = major →
    ∃ c, detach a b = some c ∧ c.text = conclusion

theorem concludes_of_detach {minor major f : Formula Nat} (hminor : minor.normalize = minor)
    (hmajor : major.normalize = major) (h : detach minor major = some f) :
    Concludes minor.text major.text f.text := by
  intro a b ha hb hatext hbtext
  have haoutline : minor.outline = a.outline :=
    Formula.outline_eq_of_text_eq (fun v => pos_of_normal hminor) (fun v => ha.pos) hatext.symm
  have hboutline : major.outline = b.outline :=
    Formula.outline_eq_of_text_eq (fun v => pos_of_normal hmajor) (fun v => hb.pos) hbtext.symm
  obtain ⟨c, hc, houtline⟩ := exists_detach_of_outline haoutline hboutline ha.within hb.within h
  refine ⟨c, hc, ?_⟩
  rw [← Formula.text_outline, ← houtline, Formula.text_outline]

/-- A numbered proof of `proof` from the `sources`: all its lines can be read, those that stand for
themselves are sources in normal form, and the others follow from the earlier lines they name. -/
structure Checked (sources : List Sheet) (proof : String) (steps : List Step) : Prop where
  number : ∀ (i : Nat) (s : Step), steps[i]? = some s → s.number = i + 1
  last : ∃ s, steps.getLast? = some s ∧ s.formula = proof
  legible : ∀ s ∈ steps, ∃ f : Formula Nat, f.Legible ∧ f.text = s.formula
  premise : ∀ s ∈ steps, s.premises = none → ∃ x ∈ sources, s.formula = x.normalize.text
  derived : ∀ s ∈ steps, ∀ i k, s.premises = some (i, k) → i < s.number ∧ k < s.number ∧
    ∃ a ∈ steps, ∃ b ∈ steps, a.number = i ∧ b.number = k ∧
      Concludes a.formula b.formula s.formula

/-- The text of a normal formula. -/
def Normal (f : String) : Prop :=
  ∃ g : Formula Nat, g.normalize = g ∧ g.text = f

namespace Ledger

variable {sources : List Sheet} {ledger : Ledger}

/-- In a ledger of justified derivations, a normal formula rests on normal ones only. -/
theorem normal_of_support
    (hjust : ∀ (f : String) (d : Derivation), ledger[f]? = some d → d.Justified sources)
    {proof f : String} (hproof : Normal proof) (hf : f ∈ ledger.support proof) : Normal f := by
  refine support_induction hproof ?_ hf
  rintro f p - ⟨d, hd, hp⟩
  cases hjust f d hd with
  | premise hx => simp [Derivation.parents] at hp
  | @modusPonens minor major _ hminor hmajor _ =>
      simp only [Derivation.parents, List.mem_cons, List.not_mem_nil, or_false] at hp
      obtain rfl | rfl := hp
      · exact ⟨minor, hminor, rfl⟩
      · exact ⟨major, hmajor, rfl⟩

theorem Recounts.checked {proof : String} {steps : List Step} (h : ledger.Recounts proof steps)
    (hback : Backward steps) (hproof : Normal proof) (hkeyed : ledger.Keyed)
    (hjust : ∀ (f : String) (d : Derivation), ledger[f]? = some d → d.Justified sources) :
    Checked sources proof steps where
  number _ _ hs := h.number_eq hs
  last := h.last
  legible := by
    intro s hs
    have hmem := (h.mem_iff _).mp (List.mem_map_of_mem hs)
    obtain ⟨f, hnormal, hf⟩ := normal_of_support hjust hproof hmem
    rw [← hf]
    exact f.exists_legible fun v => pos_of_normal hnormal
  premise := by
    intro s hs hnone
    obtain ⟨d, hd, hrule | ⟨a, -, b, -, -, hsome⟩⟩ := h.rule s hs
    · rw [← hkeyed _ d hd]
      cases hjust _ d hd with
      | @premise x hx => exact ⟨x, hx, rfl⟩
      | modusPonens => cases hrule.1
    · rw [hnone] at hsome
      cases hsome
  derived := by
    intro s hs i k hsome
    obtain ⟨hlt, hlt'⟩ := hback s hs i k hsome
    obtain ⟨d, hd, ⟨-, hnone⟩ | ⟨a, ha, b, hb, hrule, hnumbers⟩⟩ := h.rule s hs
    · rw [hnone] at hsome
      cases hsome
    · rw [hnumbers] at hsome
      cases hsome
      refine ⟨hlt, hlt', a, ha, b, hb, rfl, rfl, ?_⟩
      rw [← hkeyed _ d hd]
      cases hjust _ d hd with
      | premise => cases hrule
      | modusPonens hminor hmajor hf =>
          obtain ⟨htext, htext'⟩ := Rule.modusPonens.inj hrule
          rw [← htext, ← htext']
          exact concludes_of_detach hminor hmajor hf

end Ledger

/-- What a journal keeps can be replayed from it. -/
theorem Journal.Keeps.exists_chain {sources : List Sheet} {j : Journal} {K : Formula Nat → Prop}
    (h : j.Keeps sources K) {p : Formula Nat} (hp : K p) :
    ∃ ledger steps, j.ledger = .ok ledger ∧ ledger.chain p.text = .ok steps ∧
      Checked sources p.text steps := by
  obtain ⟨ds, hlists, hrooted, hjust, hkeeps⟩ := h
  obtain ⟨keys, hkeys, hmem⟩ := Ledger.exists_ordered hrooted
  have hjust' (f : String) (d : Derivation) (hd : (ds.foldl Ledger.add ∅)[f]? = some d) :
      d.Justified sources :=
    hjust d (Ledger.mem_of_getElem?_foldl hd)
  obtain ⟨hnormal, hrecorded⟩ := hkeeps p hp
  obtain ⟨steps, hsteps, hrecounts, hback⟩ := hkeys.exists_chain ((hmem _).mpr hrecorded)
  exact ⟨_, steps, Journal.ledger_eq hlists fun d hd => (hjust d hd).worded, hsteps,
    hrecounts.checked hback ⟨p, hnormal, rfl⟩ hkeys.formula_eq hjust'⟩

namespace Session

variable {settings : Settings} {premises : List Sheet} {target : Sheet} {s : Session}

/-- A ready session finds nothing, or it tells a proof of a formula that settles a goal. -/
theorem Reached.solve_cases (h : Reached .ok settings premises target s) (hready : s.phase = .ready)
    (looks : Nat) :
    ((∀ p ∈ (s.prepare.2.run looks).2.promoted, p.settled? (goals target) = none) ∧
      (s.solve looks).1 = .ok .notFound) ∨
    ((s.solve looks).1 = .ok .proved ∧ ∃ p t steps, t ∈ goals target ∧ p.settles t = true ∧
      Checked (sources premises target) p.text steps ∧
        (s.solve looks).2.narrative =
          linesText (target.discharges.map Discharge.text) ++ chainText steps ++
            linesText (instantiation p t ++ ["proved: " ++ target.text])) := by
  obtain ⟨-, -, htargets⟩ := h.of_ready hready
  have hopened : s.prepare.1 = s.opened target := by rw [prepare_eq htargets]
  -- Whatever was promoted and settles something can be replayed.
  have hchain {p t : Sheet} (hp : p ∈ (s.prepare.2.run looks).2.promoted)
      (hsettles : p.settles t = true) :
      ∃ ledger steps, (s.prepare.2.run looks).2.journal.ledger = .ok ledger ∧
        ledger.chain p.text = .ok steps ∧ Checked (sources premises target) p.text steps := by
    cases p with
    | none => simp [Sheet.settles] at hsettles
    | some f => exact (h.keeps_search hready looks).exists_chain (.inl hp)
  rw [Session.solve, solveStoring_of_ready hready, hopened]
  obtain ⟨hnone, hanswer, -⟩ | ⟨hanswer, -, p, t, j, ledger, steps, htold⟩ |
      ⟨e, p, t, hp, ht, herror, -, -⟩ :=
    conclude_cases (s.opened target) (s.prepare.2.run looks).2
      (.ok (s.prepare.2.run looks).2.journal)
  · exact .inl ⟨hnone, hanswer⟩
  · refine .inr ⟨hanswer, p, t, steps, htold.target, htold.settles, ?_, htold.narrative_eq⟩
    obtain ⟨ledger', steps', hledger, hsteps, hchecked⟩ := hchain htold.promoted htold.settles
    cases htold.stored_eq
    rw [htold.ledger_eq] at hledger
    cases hledger
    rw [htold.chain_eq] at hsteps
    cases hsteps
    exact hchecked
  · obtain ⟨ledger, steps, hledger, hsteps, -⟩ := hchain hp (by simpa using List.find?_some ht)
    simp [Except.bind, hledger, hsteps] at herror

/-- A session whose search has come to a formula that settles a goal says so. -/
theorem Reached.proved_of_settled (h : Reached .ok settings premises target s)
    (hready : s.phase = .ready) {looks : Nat} (hsettled : ∃ p ∈ (s.prepare.2.run looks).2.promoted,
      (p.settled? (goals target)).isSome = true) : (s.solve looks).1 = .ok .proved := by
  obtain ⟨p, hp, hsome⟩ := hsettled
  obtain ⟨hnone, -⟩ | ⟨hproved, -⟩ := h.solve_cases hready looks
  · rw [hnone p hp] at hsome
    cases hsome
  · exact hproved

/-- The premises `A`, `A>B` and `a>a`, in that order. -/
def ponensPremises : List Sheet :=
  [.leaf () (.const 1), Schemas.imp (.leaf () (.const 1)) (.leaf () (.const 2)),
    Schemas.imp (Schemas.v 1) (Schemas.v 1)].map fun f : Shape => some f.place

/-- The target `C>B`. -/
def ponensTarget : Sheet :=
  some (Schemas.imp (.leaf () (.const 3)) (.leaf () (.const 2))).place

def ponens : Session :=
  recordClassical { settings := {}, premises := ponensPremises, targets := [ponensTarget] }

theorem reached_ponens : Reached .ok {} ponensPremises ponensTarget ponens :=
  .recordClassical (.start rfl)

theorem settled_ponens : ∃ p ∈ (ponens.prepare.2.run 3).2.promoted,
    (p.settled? (goals ponensTarget)).isSome = true :=
  Search.exists_settled_of_detach (by decide) (by decide) (by decide) (by decide)
    (by decide +kernel) (by decide +kernel) (by decide +kernel)

theorem proved_ponens : (ponens.solve 3).1 = .ok .proved :=
  reached_ponens.proved_of_settled rfl settled_ponens

end Session

end Detachment

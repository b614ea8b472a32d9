import Detachment.Proofs.ModusPonens
import Detachment.Proofs.Narrative
import Detachment.Proofs.Targets

/-!
# Soundness of the prover

If a session says that its target is proved, then the target follows from the premises, provided
that its letters are held fixed: a hypothesis of the deduction theorem without variables is a
premise like any other.

Not so if the target has variables. Then a hypothesis is taken as a schema, which may be
instantiated in the search, and the target follows only if its hypotheses hold as schemas.
-/
namespace Detachment

namespace Formula

variable {α : Type}

/-- A formula without variables is true for all values of its variables if it is for some. -/
theorem holds_of_closed {consts : Int → Bool} {t : Formula α} (h : t.vars = [])
    {vars : Int → Bool} (ht : t.eval vars consts = true) : t.Holds consts := by
  intro vars'
  rw [← ht]
  exact value_congr _ (by simp [h])

end Formula

/-- What settles a target without variables makes it true. -/
theorem Sheet.holds_of_settles {consts : Int → Bool} {c g : Formula Nat} (hc : c.WellPlaced)
    (hg : g.WellPlaced) (hclosed : g.vars = []) (hholds : c.Holds consts)
    (h : Sheet.settles (some c) (some g) = true) : g.Holds consts := by
  obtain ⟨c', g', hc', hg', hmatch⟩ := Sheet.matches_of_settles h
  cases hc'
  cases hg'
  have heq := (hmatch hc hg).value_eq .truth consts
  have htrue : g.normalize.eval consts consts = true := heq.trans (hholds.normalize consts)
  rw [Formula.eval, Formula.normalize_eq, Formula.value_rename] at htrue
  exact Formula.holds_of_closed hclosed htrue

/-- What settles a target without constants, and has none itself, makes it true. -/
theorem Sheet.holds_of_settles_schematic {consts : Int → Bool} {c g : Formula Nat}
    (hc : c.WellPlaced) (hg : g.WellPlaced) (hcs : c.Within .schematic) (hgs : g.Within .schematic)
    (hholds : c.Holds consts) (h : Sheet.settles (some c) (some g) = true) : g.Holds consts := by
  obtain ⟨c', g', hc', hg', hmatch⟩ := Sheet.matches_of_settles h
  cases hc'
  cases hg'
  refine Formula.holds_of_normalize fun vars => ?_
  have heq := (hmatch hc hg).value_eq .truth vars
  rw [Formula.value_of_schematic _ hgs.normalize vars vars consts,
    Formula.value_of_schematic _ hcs.normalize vars vars consts] at heq
  exact heq.trans (hholds.normalize vars)

/-- The well-placed formulas of a fragment that hold as schemas. -/
structure Formula.Valid (F : Fragment) (consts : Int → Bool) (f : Formula Nat) : Prop where
  placed : f.WellPlaced
  within : f.Within F
  holds : f.Holds consts

namespace Formula.Valid

variable {F G : Fragment} {consts : Int → Bool} {f minor major : Formula Nat}

theorem mono (h : f.Valid F consts) (hFG : F ≤ G) : f.Valid G consts :=
  ⟨h.placed, h.within.mono hFG, h.holds⟩

theorem normalize (h : f.Valid F consts) : f.normalize.Valid F consts :=
  ⟨h.placed.normalize, h.within.normalize, h.holds.normalize⟩

theorem detach (hF : F ≤ .lettered) (hminor : minor.Valid F consts) (hmajor : major.Valid F consts)
    (h : Detachment.detach minor major = some f) : f.Valid F consts where
  placed := wellPlaced_detachBy h
  within := within_detachBy hminor.within hmajor.within h
  holds := holds_detachBy (hminor.within.mono hF) (hmajor.within.mono hF) hminor.holds hmajor.holds h

end Formula.Valid

theorem Schemas.valid_of_mem {f : Formula Nat} (h : f ∈ contraposition :: classical)
    (consts : Int → Bool) : f.Valid .schematic consts :=
  ⟨(within_of_mem h).1, (within_of_mem h).2, tautology_of_mem h consts⟩

namespace Session

variable {store : Journal → Except ProverError Journal} {settings : Settings}
  {premises : List Sheet} {target : Formula Nat} {s : Session} {looks : Nat} {consts : Int → Bool}

/-- If the premises and the hypotheses hold as schemas, then what a session proves is settled by a
formula that holds as a schema. -/
theorem Reached.exists_settled {F : Fragment} (hF : F ≤ .lettered) (hS : .schematic ≤ F)
    (hpremises : ∀ p, some p ∈ premises → p.Valid F consts)
    (hhypotheses : ∀ d ∈ target.discharges, d.hypothesis.Valid F consts)
    (h : Reached store settings premises (some target) s)
    (hproved : (s.solveStoring store looks).1 = .ok .proved) :
    ∃ c g, c.Valid F consts ∧ Sheet.settles (some c) (some g) = true ∧ target.IsGoal g := by
  obtain ⟨s₀, looks₀, h₀, hready, hproved₀, -⟩ := h.exists_ready hproved
  obtain ⟨-, hprem, htargets⟩ := h₀.of_ready hready
  obtain ⟨p, t, j, ledger, steps, htold⟩ := h₀.told hready hproved₀
  obtain ⟨c, g, rfl, rfl, -⟩ := Sheet.matches_of_settles htold.settles
  refine ⟨c, g, ?_, htold.settles, ?_⟩
  · refine Search.mentions_run (P := fun f => f.Valid F consts) (fun f hf => hf.normalize)
      (fun minor major f hm hM hf => hm.detach hF hM hf) ?_ looks₀ (.inl htold.promoted)
    rw [prepare_eq htargets]
    rintro f (hf | hf | hf)
    · cases hf
    · obtain ⟨x, hx, hxf⟩ | hf := mem_seeds hf
      · -- A seed is the normal form of a premise or of a hypothesis.
        obtain ⟨f', rfl, rfl⟩ := Option.map_eq_some_iff.mp hxf.symm
        refine Formula.Valid.normalize ?_
        obtain hx | hx := List.mem_append.mp (show some f' ∈ assumptions _ _ from hx)
        · exact hpremises f' (hprem ▸ hx)
        · obtain ⟨d, hd, he⟩ := List.mem_map.mp hx
          cases he
          exact hhypotheses d hd
      · cases hf
        exact (Schemas.valid_of_mem (by simp) consts).mono hS
    · cases hf
  · obtain ht | ht := List.mem_cons.mp (show some g ∈ goals _ from htold.target)
    · exact .inl (Option.some.inj ht)
    · obtain ⟨d, hd, he⟩ := List.mem_map.mp ht
      exact .inr ⟨d, hd, (Option.some.inj he).symm⟩

/-- A target without variables that was proved is true whenever the premises are. -/
theorem Reached.holds_of_proved (hpremises : ∀ p, some p ∈ premises → p.WellFormed)
    (htarget : target.WellFormed) (hclosed : target.vars = [])
    (h : Reached store settings premises (some target) s)
    (hproved : (s.solveStoring store looks).1 = .ok .proved)
    (hholds : ∀ p, some p ∈ premises → p.Holds consts) : target.Holds consts := by
  have hempty {l : List Int} (hl : l ⊆ target.vars) : l = [] :=
    List.eq_nil_of_subset_nil (hclosed ▸ hl)
  by_cases hhyp : ∀ d ∈ target.discharges, d.hypothesis.Holds consts
  · have hpremises' (p : Formula Nat) (hp : some p ∈ premises) : p.Valid .regular consts :=
      ⟨(hpremises p hp).1, (hpremises p hp).2, hholds p hp⟩
    have hhyp' (d : Discharge) (hd : d ∈ target.discharges) : d.hypothesis.Valid .regular consts :=
      ⟨(Formula.wellPlaced_of_discharge hd).1, (Formula.within_of_discharge htarget.2 hd).1,
        hhyp d hd⟩
    obtain ⟨c, g, hc, hsettles, hg⟩ :=
      h.exists_settled Fragment.regular_le Fragment.schematic_le hpremises' hhyp' hproved
    exact hg.holds (Sheet.holds_of_settles hc.placed (hg.wellPlaced htarget.1)
      (hempty hg.vars_subset) hc.holds hsettles)
  · -- A hypothesis without variables that does not hold is false.
    simp only [not_forall] at hhyp
    obtain ⟨d, hd, hnot⟩ := hhyp
    intro vars
    refine Formula.eval_of_discharge hd (.inl ?_)
    by_contra htrue
    rw [Bool.not_eq_false] at htrue
    exact hnot (Formula.holds_of_closed (hempty (Formula.vars_of_discharge hd).1) htrue)

theorem wellFormed_ponens {p : Formula Nat} (h : some p ∈ ponensPremises) : p.WellFormed := by
  simp only [ponensPremises, List.map_cons, List.map_nil, List.mem_cons, Option.some.injEq,
    List.not_mem_nil, or_false] at h
  obtain rfl | rfl | rfl := h
  all_goals
    refine ⟨Formula.wellPlaced_place _, (Formula.within_place _).mpr ?_⟩
    simp [Formula.Within, Schemas.imp, Schemas.v, Fragment.regular, Leaf.Regular, Leaf.const,
      Leaf.var]

theorem holds_ponens {p : Formula Nat} (h : some p ∈ ponensPremises) : p.Holds fun _ => true := by
  simp only [ponensPremises, List.map_cons, List.map_nil, List.mem_cons, Option.some.injEq,
    List.not_mem_nil, or_false] at h
  obtain rfl | rfl | rfl := h
  · exact fun vars => rfl
  · exact fun vars => rfl
  · intro vars
    simp only [Formula.eval_place, Schemas.eval_imp, Schemas.eval_v]
    cases vars 1 <;> rfl

/-- A session about the classical schemas. -/
def classically (settings : Settings) (target : Formula Nat) : Session :=
  { settings, premises := Schemas.classical.map some, targets := [some target] }

theorem reached_classically (settings : Settings) (target : Formula Nat) :
    Reached .ok settings (Schemas.classical.map some) (some target) (classically settings target) :=
  .start rfl

theorem proved_weakening :
    ((classically {} Schemas.weakening.asTarget).solve 2).1 = .ok .proved := by
  refine (reached_classically {} Schemas.weakening.asTarget).proved_of_settled rfl ?_
  refine Search.exists_settled_of_seed [] (some Schemas.weakening) _ (by simp) (by decide) ?_
  have hsettles : Sheet.settles (some Schemas.weakening.normalize)
      (some Schemas.weakening.asTarget) = true :=
    Sheet.settles_of_sorted (by decide) (by decide) (by decide) rfl (by decide)
  exact List.find?_isSome.mpr ⟨some Schemas.weakening.asTarget, List.mem_cons_self, hsettles⟩

/-- The prover is sound for targets without variables. Whatever the journal gives back and whenever
time is up, a target that a session calls proved is true under every assignment of the constants
under which the premises hold as schemas. In particular, if a formula was read and prepared and is
proved from the classical schemas, then it is a tautology. -/
theorem proved_follows_from_premises {store : Journal → Except ProverError Journal}
    {settings : Settings} {s : Session} {looks : Nat}
    (hproved : (s.solveStoring store looks).1 = .ok .proved) :
    (∀ (premises : List Sheet) (target : Formula Nat),
      Reached store settings premises (some target) s →
      (∀ p, some p ∈ premises → p.WellFormed) → target.WellFormed → target.vars = [] →
      ∀ consts, (∀ p, some p ∈ premises → p.Holds consts) → target.Holds consts) ∧
    (∀ (src : String) (f : Formula Nat), parse src = .ok f →
      Reached store settings (Schemas.classical.map some) (some f.asTarget) s → f.Tautology) := by
  constructor
  · intro premises target h hpremises htarget hclosed consts hholds
    exact h.holds_of_proved hpremises htarget hclosed hproved hholds
  · intro src f hparse h
    obtain ⟨hplaced, hschematic⟩ := within_parse hparse
    obtain ⟨htarget, hclosed⟩ :=
      Formula.WellFormed.asTarget ⟨hplaced, hschematic.mono Fragment.schematic_le⟩
    have hvalid {p : Formula Nat} (hp : some p ∈ Schemas.classical.map some)
        (consts : Int → Bool) : p.Valid .schematic consts :=
      Schemas.valid_of_mem (by simpa using Or.inr hp) consts
    refine Formula.tautology_of_asTarget hschematic fun consts => ?_
    refine h.holds_of_proved (fun p hp => ?_) htarget hclosed hproved fun p hp => ?_
    · exact ⟨(hvalid hp consts).placed, (hvalid hp consts).within.mono Fragment.schematic_le⟩
    · exact (hvalid hp consts).holds

theorem proved_follows_from_ponens :
    ((ponens.solve 3).1 = .ok .proved ∧
      (Schemas.imp (.leaf () (.const 3)) (.leaf () (.const 2))).place.Holds fun _ => true) ∧
    (((classically {} Schemas.weakening.asTarget).solve 2).1 = .ok .proved ∧
      parse "a>(b>a)" = .ok Schemas.weakening ∧ Schemas.weakening.Tautology) := by
  refine ⟨⟨proved_ponens, ?_⟩, proved_weakening, rfl, ?_⟩
  · exact (proved_follows_from_premises proved_ponens).1 ponensPremises _ reached_ponens
      (fun p => wellFormed_ponens) ⟨Formula.wellPlaced_place _, (Formula.within_place _).mpr
        (by simp [Formula.Within, Schemas.imp, Fragment.regular, Leaf.Regular, Leaf.const])⟩ rfl _
      fun p => holds_ponens
  · exact (proved_follows_from_premises proved_weakening).2 "a>(b>a)" _ rfl
      (reached_classically {} _)

/-- A target with variables that is proved from the classical schemas is a tautology if all its
hypotheses are. The search takes the hypotheses as schemas, so this is what it relies on. -/
theorem tautology_of_proved_schema {store : Journal → Except ProverError Journal}
    {settings : Settings} {s : Session} {looks : Nat} {src : String} {f : Formula Nat}
    (hparse : parse src = .ok f)
    (h : Reached store settings (Schemas.classical.map some) (some f) s)
    (hproved : (s.solveStoring store looks).1 = .ok .proved)
    (hhypotheses : ∀ d ∈ f.discharges, d.hypothesis.Tautology) : f.Tautology := by
  intro consts
  obtain ⟨hplaced, hschematic⟩ := within_parse hparse
  obtain ⟨c, g, hc, hsettles, hg⟩ := h.exists_settled
    (Fragment.schematic_le.trans Fragment.regular_le) le_rfl
    (fun p hp => Schemas.valid_of_mem (by simpa using Or.inr hp) consts)
    (fun d hd => ⟨(Formula.wellPlaced_of_discharge hd).1,
      (Formula.within_of_discharge hschematic hd).1, hhypotheses d hd consts⟩)
    hproved
  exact hg.holds (Sheet.holds_of_settles_schematic hc.placed (hg.wellPlaced hplaced) hc.within
    (hg.within hschematic) hc.holds hsettles)

/-- The variable `n` as equivalent to itself. -/
def same (n : Int) : Shape :=
  .node () .equivalence (Schemas.v n) (Schemas.v n)

/-- `(a=a)>(b=b)` -/
def reflexivity : Formula Nat :=
  (Schemas.imp (same 1) (same 2)).place

/-- With room for its hypothesis only, a session settles the conclusion of `(a=a)>(b=b)`. -/
theorem proved_reflexivity :
    ((classically { maxSize := 3 } reflexivity).solve 5).1 = .ok .proved := by
  refine (reached_classically { maxSize := 3 } reflexivity).proved_of_settled rfl ?_
  refine Search.exists_settled_of_seed (Schemas.classical.map some) (some (same 1).place) _
    (by decide) (by decide) ?_
  have hsettles : Sheet.settles (some (same 1).place.normalize) (some (same 2).place) = true :=
    Sheet.settles_of_sorted (by decide) (by decide) (by decide) rfl (by decide)
  exact List.find?_isSome.mpr ⟨some (same 2).place, by decide, hsettles⟩

theorem tautology_of_proved_reflexivity :
    ((classically { maxSize := 3 } reflexivity).solve 5).1 = .ok .proved ∧
      parse "(a=a)>(b=b)" = .ok reflexivity ∧ reflexivity.Tautology := by
  have hparse : parse "(a=a)>(b=b)" = .ok reflexivity := rfl
  refine ⟨proved_reflexivity, hparse, ?_⟩
  refine tautology_of_proved_schema hparse (reached_classically _ _) proved_reflexivity ?_
  intro d hd consts vars
  obtain rfl := List.mem_singleton.mp hd
  simp [Connective.truth]

/-- The target `a>b` is called proved, for its hypothesis `a` settles the conclusion `b`. It is no
tautology. -/
theorem proved_of_no_tautology : ∃ f, parse "a>b" = .ok f ∧
    Reached .ok { maxSize := 1 } (Schemas.classical.map some) (some f)
      (classically { maxSize := 1 } f) ∧
    ((classically { maxSize := 1 } f).solve 5).1 = .ok .proved ∧ ¬ f.Tautology := by
  refine ⟨(Schemas.imp (Schemas.v 1) (Schemas.v 2)).place, rfl, reached_classically _ _, ?_, ?_⟩
  · refine (reached_classically _ _).proved_of_settled rfl ?_
    exact Search.exists_settled_of_seed (Schemas.classical.map some)
      (some (Schemas.v 1).place) _ (by decide) (by decide) (by decide +kernel)
  · intro htaut
    have := htaut (fun _ => false) fun v => v == 1
    simp at this

end Session

end Detachment

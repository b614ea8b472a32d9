import Detachment.ModusPonens
import Detachment.Proofs.Heredity

/-!
# Soundness of modus ponens

A schema holds under an assignment of the constants if it is true for all values of its variables.
Renaming its variables changes nothing about that, and modus ponens leads from schemas that hold to
a schema that holds: the unifier gives the minor premise and the antecedent the same value, whatever
the values of the variables left over.
-/
namespace Detachment

namespace Formula

variable {α : Type} {consts : Int → Bool} {t : Formula α}

theorem Holds.rename (h : t.Holds consts) (f : Int → Int) : (t.rename f).Holds consts := by
  intro vars
  rw [eval, value_rename]
  exact h _

theorem Holds.normalize (h : t.Holds consts) : t.normalize.Holds consts :=
  h.rename _

theorem Holds.shiftVariablesBy (h : t.Holds consts) (fit : Int → Int) (bound : Int) :
    (t.shiftVariablesBy fit bound).Holds consts :=
  shiftVariablesBy_preserves (P := (·.Holds consts)) h.rename h fit bound

end Formula

variable {F : Fragment} {fit : Int → Int} {consts : Int → Bool} {minor major f : Formula Nat}

/-- A conclusion comes from a major premise that is an implication, whose antecedent unifies with
the minor one. -/
theorem detachBy_eq_some_iff :
    detachBy fit minor major = some f ↔ ∃ i a c s,
      major.shiftVariablesBy fit (fit (minor.maxVariable + 1)) = .node i .implication a c ∧
        unifyBy fit (fit ((major.shiftVariablesBy fit (fit (minor.maxVariable + 1))).maxVariable +
          1)) minor a.place = .ok s ∧
        (s.apply c.place).normalize = f := by
  unfold detachBy
  dsimp only
  constructor
  · intro h
    split at h
    · rename_i i a c hshift
      split at h
      · cases h
      · rename_i s hs
        exact ⟨i, a, c, s, hshift, hs, Option.some.inj h⟩
    · cases h
  · rintro ⟨i, a, c, s, hshift, hs, rfl⟩
    rw [hshift] at hs ⊢
    simp only [hs]

theorem detach_eq_some_iff :
    detach minor major = some f ↔ ∃ i a c s,
      major.shiftVariables (minor.maxVariable + 1) = .node i .implication a c ∧
        unifyAbove ((major.shiftVariables (minor.maxVariable + 1)).maxVariable + 1) minor a.place =
          .ok s ∧
        (s.apply c.place).normalize = f :=
  detachBy_eq_some_iff

/-- What unification preserves passes to the conclusion as well, if it does not depend on how the
variables are numbered. -/
theorem Hereditary.detachBy {P : Formula Nat → Prop} (hP : Hereditary P)
    (hrename : ∀ {t} f, P t → P (t.rename f)) (hminor : P minor) (hmajor : P major)
    (h : detachBy fit minor major = some f) : P f := by
  obtain ⟨i, a, c, s, hshift, hs, rfl⟩ := detachBy_eq_some_iff.mp h
  have hnode : P (major.shiftVariablesBy fit (fit (minor.maxVariable + 1))) :=
    Formula.shiftVariablesBy_preserves (fun f => hrename f hmajor) hmajor _ _
  rw [hshift] at hnode
  obtain ⟨ha, hc⟩ := hP.parts hnode
  refine hrename _ (hP.apply (fun v w hw => ?_) hc)
  exact hP.unifyBy hminor ha hs v w (Substitution.mem_of_value? hw)

/-- Modus ponens stays within a fragment. -/
theorem within_detachBy (hminor : minor.Within F) (hmajor : major.Within F)
    (h : detachBy fit minor major = some f) : f.Within F :=
  (hereditary_within F).detachBy (fun f h => h.rename f) hminor hmajor h

/-- A conclusion is canonically placed, whatever the placement of the premises. -/
theorem place_detachBy (h : detachBy fit minor major = some f) : f.place = f := by
  obtain ⟨i, a, c, s, hshift, hs, rfl⟩ := detachBy_eq_some_iff.mp h
  have hplace := s.place_apply (Formula.place_place c)
  rw [Formula.place_eq] at hplace ⊢
  unfold Formula.normalize
  rw [Formula.placeFrom_rename, hplace]

theorem wellPlaced_detachBy (h : detachBy fit minor major = some f) : f.WellPlaced := by
  rw [← place_detachBy h]
  exact Formula.wellPlaced_place f

/-- Modus ponens leads from schemas that hold to a schema that holds, even if variables that were to
be kept apart coincide because of how they are stored. -/
theorem holds_detachBy (hminor : minor.Within .lettered) (hmajor : major.Within .lettered)
    (hm : minor.Holds consts) (hM : major.Holds consts) (h : detachBy fit minor major = some f) :
    f.Holds consts := by
  obtain ⟨i, a, c, s, hshift, hs, rfl⟩ := detachBy_eq_some_iff.mp h
  have hnode := hmajor.shiftVariablesBy fit (fit (minor.maxVariable + 1))
  have himp := hM.shiftVariablesBy fit (fit (minor.maxVariable + 1))
  rw [hshift] at hnode himp
  have hu := unifies_of_unifyBy le_rfl hminor
    ((Formula.within_place a).mpr hnode.2.1) hs
  refine Formula.Holds.normalize fun vars => ?_
  -- The premises are looked at under the values that the unifier gives to their variables.
  have hvalues := hu.value_eq .truth vars consts
  have hante : a.eval (s.assign .truth vars consts) consts = true := by
    rw [Formula.value_place] at hvalues
    exact hvalues.symm.trans (hm _)
  have hcons : c.eval (s.assign .truth vars consts) consts = true := by
    simpa [Connective.truth, hante] using himp (s.assign .truth vars consts)
  rw [Formula.eval, Substitution.value_apply _ hu.within hu.solved, Formula.value_place]
  exact hcons

/-- Modus ponens is sound. Whatever the connectives of the premises and whether or not they share
variables, if there is a conclusion, then it is true for all values of its variables under every
assignment of the constants under which both premises are. -/
theorem conclusion_holds {minor major : Sheet} {f : Formula Nat}
    (hminor : ∀ m ∈ minor, m.Within .regular) (hmajor : ∀ M ∈ major, M.Within .regular)
    (h : minor.detach major = some f) (consts : Int → Bool)
    (hm : ∀ m ∈ minor, m.Holds consts) (hM : ∀ M ∈ major, M.Holds consts) : f.Holds consts := by
  cases minor with
  | none => cases h
  | some m =>
      cases major with
      | none => cases h
      | some M =>
          have hlettered := (hminor m rfl).mono Fragment.regular_le
          have hlettered' := (hmajor M rfl).mono Fragment.regular_le
          exact holds_detachBy hlettered hlettered' (hm m rfl) (hM M rfl) h

/-- `A|a` -/
def sharedMinor : Formula Nat :=
  Formula.place (.node () .disjunction (.leaf () (.const 1)) (Schemas.v 1))

/-- `!a>(a>B)` -/
def sharedMajor : Formula Nat :=
  (Schemas.imp (Schemas.nv 1) (Schemas.imp (Schemas.v 1) (.leaf () (.const 2)))).place

/-- Both premises have a variable `a`. That of the major one becomes `!A*!a`, whose negation is the
minor premise up to the meaning of `|` only. -/
theorem conclusion_holds_shared :
    ∃ f, Sheet.detach (some sharedMinor) (some sharedMajor) = some f ∧ f.text = "(!A*!a)>B" ∧
      f.Holds fun n => n == 1 := by
  have hminor : sharedMinor.Within .regular := (Formula.within_place _).mpr (by
    simp [Formula.Within, Schemas.v, Fragment.regular, Leaf.Regular, Leaf.const, Leaf.var])
  have hmajor : sharedMajor.Within .regular := (Formula.within_place _).mpr (by
    simp [Formula.Within, Schemas.imp, Schemas.v, Schemas.nv, Formula.negate, Fragment.regular,
      Leaf.Regular, Leaf.negate, Leaf.negated, Leaf.const, Leaf.var])
  have hm : sharedMinor.Holds fun n => n == 1 := by
    intro vars
    rfl
  have hM : sharedMajor.Holds fun n => n == 1 := by
    intro vars
    change Connective.truth .implication (!vars 1) (Connective.truth .implication (vars 1) _) = true
    cases vars 1 <;> rfl
  have htext : (Sheet.detach (some sharedMinor) (some sharedMajor)).map Formula.text =
      some "(!A*!a)>B" := by
    decide +kernel
  obtain ⟨f, hf, htext⟩ := Option.map_eq_some_iff.mp htext
  exact ⟨f, hf, htext, conclusion_holds (by simpa using hminor) (by simpa using hmajor) hf _
    (by simpa using hm) (by simpa using hM)⟩

end Detachment

import Detachment.Search
import Mathlib.Logic.Relation

/-!
# What a search does

A search changes its state in a few ways only: it promotes a waiting formula, passes one over,
derives a conclusion from two promoted formulas, and turns to the next generation. `Move` lists
them. The trail of a step consists of all the states that it goes through, and each of them comes
from the one before it by a move or is the same. So what each move preserves holds in all of them,
and at the end of every search, whatever the clock shows.
-/
namespace Detachment

theorem Sheet.detachBy_eq_some_iff {fit : Int → Int} {minor major : Sheet} {f : Formula Nat} :
    minor.detachBy fit major = some f ↔
      ∃ m M, minor = some m ∧ major = some M ∧ Detachment.detachBy fit m M = some f := by
  cases minor with
  | none => simp [detachBy]
  | some m =>
      cases major with
      | none => simp [detachBy]
      | some M => simp [detachBy]

theorem Sheet.detach_eq_some_iff {minor major : Sheet} {f : Formula Nat} :
    minor.detach major = some f ↔
      ∃ m M, minor = some m ∧ major = some M ∧ Detachment.detach m M = some f :=
  detachBy_eq_some_iff

theorem Sheet.exists_of_isGood {x : Sheet} {limit : Nat} (h : x.isGood limit = true) :
    (∃ f, x = some f) ∧ x.size ≤ limit := by
  simp only [isGood, Bool.and_eq_true, decide_eq_true_eq] at h
  exact ⟨Option.isSome_iff_exists.mp h.1.1.1, h.1.1.2⟩

/-- The search after a step, whether or not it has ended. -/
def Progress.state : Progress → Search
  | .running s => s
  | .ended _ s => s

namespace Search

open Relation (ReflGen ReflTransGen)

inductive Move : Search → Search → Prop
  | promote {s : Search} {candidate : Sheet} {rest : List Sheet}
      (h : s.waiting = candidate :: rest) (hsize : candidate.size ≤ s.limit) :
      Move s { s with waiting := rest, promoted := s.promoted ++ [candidate.normalize] }
  | pass {s : Search} {candidate : Sheet} {rest : List Sheet} (h : s.waiting = candidate :: rest)
      (hsize : s.limit < candidate.size) :
      Move s { s with waiting := rest }
  | derive {s : Search} {minor major : Sheet} {f : Formula Nat} (hminor : minor ∈ s.promoted)
      (hmajor : major ∈ s.promoted) (hf : minor.detach major = some f)
      (hgood : Sheet.isGood s.limit (some f) = true) (hnew : f.text ∉ s.known) :
      Move s
        { s with
          known := s.known.insert f.text
          journal := s.journal.record ⟨f.text, .modusPonens minor.text major.text⟩
          promoted := if s.settlesTarget (some f) then s.promoted ++ [some f] else s.promoted
          fresh := some f :: s.fresh }
  | turn (s : Search) : Move s s.endGeneration
  | begin (s : Search) : Move s { s with midway := true }

/-- The states `l` lead from `s` to `s'`, each by a move or none from the one before it. -/
inductive Leads : Search → List Search → Search → Prop
  | nil (s : Search) : Leads s [] s
  | cons {s s₁ s' : Search} {l : List Search} (h : ReflGen Move s s₁) (hl : Leads s₁ l s') :
      Leads s (s₁ :: l) s'

theorem Leads.append {s s₁ s' : Search} {l l' : List Search} (h : Leads s l s₁)
    (h' : Leads s₁ l' s') : Leads s (l ++ l') s' := by
  induction h with
  | nil => exact h'
  | cons hmove _ ih => exact .cons hmove (ih h')

theorem Leads.moves {s s' : Search} {l : List Search} (h : Leads s l s') :
    ReflTransGen Move s s' := by
  induction h with
  | nil => exact .refl
  | cons hmove _ ih => exact hmove.to_reflTransGen.trans ih

/-- The states after each of the pairs tried. -/
def combineTrail : List (Sheet × Sheet) → Search → List Search
  | [], _ => []
  | (minor, major) :: rest, s =>
      match s.accept minor major (minor.detach major) with
      | (true, s) => [s]
      | (false, s) => s :: combineTrail rest s

def promoteTrail (s : Search) (candidate : Sheet) : List Search :=
  if candidate.size ≤ s.limit then
    let newest := candidate.normalize
    let earlier := s.promoted
    let s := { s with promoted := earlier ++ [newest] }
    s :: if s.settlesTarget newest then [] else s.combineTrail (pairings earlier newest)
  else [s]

/-- The states that a step goes through, up to the one it leads to. -/
def stepTrail (s : Search) (expired : Bool) : List Search :=
  (match s.midway, expired, s.waiting with
    | true, false, candidate :: rest => { s with waiting := rest }.promoteTrail candidate
    | _, _, _ => []) ++ [(s.step expired).state]

/-- A conclusion is passed over if it is of no use or known, and kept otherwise. -/
theorem accept_cases (s : Search) (minor major conclusion : Sheet) :
    (s.accept minor major conclusion = (false, s) ∧
      (conclusion.isGood s.limit = true → conclusion.text ∈ s.known)) ∨
    (conclusion.isGood s.limit = true ∧ conclusion.text ∉ s.known ∧
      s.accept minor major conclusion = (s.settlesTarget conclusion,
        { s with
          known := s.known.insert conclusion.text
          journal := s.journal.record ⟨conclusion.text, .modusPonens minor.text major.text⟩
          promoted := if s.settlesTarget conclusion then s.promoted ++ [conclusion] else s.promoted
          fresh := conclusion :: s.fresh })) := by
  unfold accept
  split
  · rename_i h
    simp only [Bool.and_eq_true, Bool.not_eq_true', Std.HashSet.contains_eq_false_iff_not_mem] at h
    exact .inr ⟨h.1, h.2, rfl⟩
  · rename_i h
    refine .inl ⟨rfl, fun hgood => ?_⟩
    simpa [hgood] using h

theorem mem_promoted_accept {s : Search} {minor major conclusion x : Sheet}
    (h : x ∈ s.promoted) : x ∈ (s.accept minor major conclusion).2.promoted := by
  obtain ⟨haccept, -⟩ | ⟨-, -, haccept⟩ := s.accept_cases minor major conclusion
  · rwa [haccept]
  · rw [haccept]
    dsimp only
    split
    · exact List.mem_append_left _ h
    · exact h

theorem move_accept {s : Search} {minor major : Sheet} (hminor : minor ∈ s.promoted)
    (hmajor : major ∈ s.promoted) :
    ReflGen Move s (s.accept minor major (minor.detach major)).2 := by
  obtain ⟨haccept, -⟩ | ⟨hgood, hnew, haccept⟩ :=
    s.accept_cases minor major (minor.detach major)
  · exact haccept ▸ .refl
  · obtain ⟨⟨f, hf⟩, -⟩ := Sheet.exists_of_isGood hgood
    rw [haccept]
    rw [hf] at hgood hnew ⊢
    exact .single (.derive hminor hmajor hf hgood hnew)

theorem leads_combine {pairs : List (Sheet × Sheet)} {s : Search}
    (h : ∀ p ∈ pairs, p.1 ∈ s.promoted ∧ p.2 ∈ s.promoted) :
    Leads s (s.combineTrail pairs) (s.combine pairs).2 := by
  induction pairs generalizing s with
  | nil => exact .nil s
  | cons p rest ih =>
      obtain ⟨minor, major⟩ := p
      obtain ⟨hminor, hmajor⟩ := h (minor, major) (by simp)
      have hmove := move_accept hminor hmajor
      have hkeep {x : Sheet} (hx : x ∈ s.promoted) :
          x ∈ (s.accept minor major (minor.detach major)).2.promoted :=
        mem_promoted_accept hx
      rw [combine, combineTrail]
      cases heq : s.accept minor major (minor.detach major) with
      | mk found s' =>
          rw [heq] at hmove hkeep
          cases found with
          | true => exact .cons hmove (.nil s')
          | false =>
              refine .cons hmove (ih fun q hq => ?_)
              obtain ⟨h₁, h₂⟩ := h q (by simp [hq])
              exact ⟨hkeep h₁, hkeep h₂⟩

theorem mem_of_mem_pairings {earlier : List Sheet} {newest : Sheet} {p : Sheet × Sheet}
    (h : p ∈ pairings earlier newest) :
    p.1 ∈ earlier ++ [newest] ∧ p.2 ∈ earlier ++ [newest] := by
  simp only [pairings, List.mem_append, List.mem_flatMap, List.mem_cons, List.not_mem_nil,
    or_false] at h
  obtain ⟨old, hold, rfl | rfl⟩ | rfl := h <;> simp_all

theorem leads_promote {s : Search} {candidate : Sheet} {rest : List Sheet}
    (h : s.waiting = candidate :: rest) :
    Leads s ({ s with waiting := rest }.promoteTrail candidate)
      ({ s with waiting := rest }.promote candidate).2 := by
  unfold promote promoteTrail
  split
  · rename_i hsize
    refine .cons (.single (.promote h hsize)) ?_
    dsimp only
    split
    · exact .nil _
    · exact leads_combine fun p hp => mem_of_mem_pairings hp
  · rename_i hsize
    exact .cons (.single (.pass h (Nat.lt_of_not_le hsize))) (.nil _)

theorem leads_step (s : Search) (expired : Bool) :
    Leads s (s.stepTrail expired) (s.step expired).state := by
  unfold stepTrail
  split
  · rename_i candidate rest hmidway hwaiting
    refine (leads_promote hwaiting).append (.cons ?_ (.nil _))
    rw [step, if_pos hmidway, if_neg (by simp), hwaiting]
    dsimp only
    split
    · rename_i s₁ heq
      rw [heq]
      exact .refl
    · rename_i s₁ heq
      rw [heq]
      dsimp only [Progress.state]
      split
      · exact .single (.turn s₁)
      · exact .refl
  · rename_i hother
    refine .cons ?_ (.nil _)
    unfold step
    split
    · rename_i hmidway
      split
      · exact .single (.turn s)
      · rename_i hexpired
        split
        · exact .single (.turn s)
        · rename_i candidate rest hwaiting
          exact absurd hwaiting (hother candidate rest hmidway (by simpa using hexpired))
    · split
      · exact .refl
      · split
        · exact .refl
        · exact .single (.begin s)

theorem moves_step (s : Search) (expired : Bool) : ReflTransGen Move s (s.step expired).state :=
  (leads_step s expired).moves

theorem moves_run (looks : Nat) (s : Search) : ReflTransGen Move s (s.run looks).2 := by
  induction looks generalizing s with
  | zero =>
      unfold run
      dsimp only
      split
      · exact .single (.turn s)
      · exact .refl
  | succ looks ih =>
      have hmoves := moves_step s false
      unfold run
      split
      · rename_i outcome s' heq
        rwa [heq] at hmoves
      · rename_i s' heq
        rw [heq] at hmoves
        exact hmoves.trans (ih s')

theorem moves_preserve {I : Search → Prop} (hmove : ∀ s s', Move s s' → I s → I s')
    {s s' : Search} (hmoves : ReflTransGen Move s s') (h : I s) : I s' := by
  induction hmoves with
  | refl => exact h
  | tail _ hstep ih => exact hmove _ _ hstep ih

/-- What every move preserves holds at the end of a run. -/
theorem run_preserves {I : Search → Prop} (hmove : ∀ s s', Move s s' → I s → I s') {s : Search}
    (h : I s) (looks : Nat) : I (s.run looks).2 :=
  moves_preserve hmove (moves_run looks s) h

/-- All formulas that a search has to do with. -/
def Mentions (s : Search) (f : Formula Nat) : Prop :=
  some f ∈ s.promoted ∨ some f ∈ s.waiting ∨ some f ∈ s.fresh

/-- A move brings in normal forms of formulas already there, or one conclusion from two of them,
which it records. -/
theorem Move.cases {s s' : Search} (h : Move s s') :
    (s'.journal = s.journal ∧
      ∀ f, s'.Mentions f → s.Mentions f ∨ ∃ g, s.Mentions g ∧ f = g.normalize) ∨
    ∃ minor major g, s.Mentions minor ∧ s.Mentions major ∧ detach minor major = some g ∧
      s'.journal = s.journal.record ⟨g.text, .modusPonens minor.text major.text⟩ ∧
      ∀ f, s'.Mentions f → s.Mentions f ∨ f = g := by
  cases h with
  | @promote candidate rest h hsize =>
      refine .inl ⟨rfl, fun f hf => ?_⟩
      obtain hf | hf | hf := hf
      · rw [List.mem_append, List.mem_singleton] at hf
        obtain hf | hf := hf
        · exact .inl (.inl hf)
        · -- The formula promoted now was waiting, and is promoted in normal form.
          obtain ⟨g, rfl, hg⟩ := Option.map_eq_some_iff.mp hf.symm
          exact .inr ⟨g, .inr (.inl (by simp [h])), hg.symm⟩
      · exact .inl (.inr (.inl (by rw [h]; exact List.mem_cons_of_mem _ hf)))
      · exact .inl (.inr (.inr hf))
  | pass h hsize =>
      refine .inl ⟨rfl, fun f hf => .inl ?_⟩
      obtain hf | hf | hf := hf
      · exact .inl hf
      · exact .inr (.inl (by rw [h]; exact List.mem_cons_of_mem _ hf))
      · exact .inr (.inr hf)
  | @derive minor major g hminor hmajor hg hgood hnew =>
      obtain ⟨m, M, rfl, rfl, hg⟩ := Sheet.detach_eq_some_iff.mp hg
      refine .inr ⟨m, M, g, .inl hminor, .inl hmajor, hg, rfl, fun f hf => ?_⟩
      obtain hf | hf | hf := hf
      · dsimp only at hf
        split at hf
        · rw [List.mem_append, List.mem_singleton, Option.some.injEq] at hf
          exact hf.imp_left .inl
        · exact .inl (.inl hf)
      · exact .inl (.inr (.inl hf))
      · rw [List.mem_cons, Option.some.injEq] at hf
        exact hf.symm.imp_left fun hf => .inr (.inr hf)
  | turn =>
      refine .inl ⟨rfl, fun f hf => .inl ?_⟩
      obtain hf | hf | hf := hf
      · exact .inl hf
      · exact .inr (.inr (by simpa [endGeneration] using hf))
      · cases hf
  | begin => exact .inl ⟨rfl, fun f hf => .inl hf⟩

/-- A property that normal forms and conclusions inherit holds of every formula that moves lead to
if it holds of the formulas at their start. -/
theorem mentions_moves {P : Formula Nat → Prop} (hnormal : ∀ f, P f → P f.normalize)
    (hdetach : ∀ minor major f, P minor → P major → detach minor major = some f → P f)
    {s s' : Search} (hmoves : ReflTransGen Move s s') (h : ∀ f, s.Mentions f → P f) :
    ∀ f, s'.Mentions f → P f := by
  refine moves_preserve (I := fun s => ∀ f, s.Mentions f → P f) ?_ hmoves h
  intro s s' hmove ih f hf
  obtain ⟨-, hmentions⟩ | ⟨minor, major, g, hminor, hmajor, hg, -, hmentions⟩ := hmove.cases
  · obtain hf | ⟨g, hg, rfl⟩ := hmentions f hf
    · exact ih f hf
    · exact hnormal g (ih g hg)
  · obtain hf | rfl := hmentions f hf
    · exact ih f hf
    · exact hdetach minor major f (ih minor hminor) (ih major hmajor) hg

theorem mentions_run {P : Formula Nat → Prop} (hnormal : ∀ f, P f → P f.normalize)
    (hdetach : ∀ minor major f, P minor → P major → detach minor major = some f → P f)
    {s : Search} (h : ∀ f, s.Mentions f → P f) (looks : Nat) {f : Formula Nat}
    (hf : (s.run looks).2.Mentions f) : P f :=
  mentions_moves hnormal hdetach (moves_run looks s) h f hf

/-! ### What is found -/

theorem exists_settled_of_waiting {s : Search} {large rest : List Sheet} {x : Sheet}
    (hmidway : s.midway = true) (hwaiting : s.waiting = large ++ x :: rest)
    (hlarge : ∀ y ∈ large, s.limit < y.size) (hx : x.size ≤ s.limit)
    (hsettles : (x.normalize.settled? s.targets).isSome = true) :
    ∃ p ∈ (s.run (large.length + 1)).2.promoted, (p.settled? s.targets).isSome = true := by
  induction large generalizing s with
  | nil =>
      refine ⟨x.normalize, ?_, hsettles⟩
      simp [run, step, hmidway, hwaiting, promote, settlesTarget, hx, hsettles]
  | cons y large ih =>
      have hy : ¬ y.size ≤ s.limit := by
        have := hlarge y (by simp)
        omega
      have hstep : s.step false = .running { s with waiting := large ++ x :: rest } := by
        simp [step, hmidway, hwaiting, promote, hy]
      rw [List.length_cons, run, hstep]
      exact ih hmidway rfl (fun z hz => hlarge z (by simp [hz])) hx hsettles

/-- If the first formula of a search that is not too large settles a target, it is found as soon as
it is looked at. -/
theorem exists_settled_of_seed {limit : Nat} {targets : List Sheet} {j : Journal}
    (large : List Sheet) (x : Sheet) (rest : List Sheet) (hlarge : ∀ y ∈ large, limit < y.size)
    (hx : x.size ≤ limit) (hsettles : (x.normalize.settled? targets).isSome = true) :
    ∃ p ∈ ((start limit targets (large ++ x :: rest) j).run (large.length + 2)).2.promoted,
      (p.settled? targets).isSome = true := by
  have hstep : (start limit targets (large ++ x :: rest) j).step false =
      .running { start limit targets (large ++ x :: rest) j with midway := true } := by
    simp [step, start]
  rw [run, hstep]
  exact exists_settled_of_waiting rfl rfl hlarge hx hsettles

/-- From the first two formulas of a search a conclusion is drawn at the third look at the clock.
It is promoted if it settles a target. -/
theorem promoted_of_detach {limit : Nat} {targets rest : List Sheet} {x y : Sheet} {j : Journal}
    (hx : x.size ≤ limit) (hy : y.size ≤ limit) (hxnormal : x.normalize = x)
    (hynormal : y.normalize = y) (hxsettles : ¬ (x.settled? targets).isSome = true)
    (hysettles : ¬ (y.settled? targets).isSome = true) (hself : x.detach x = none)
    (hgood : (x.detach y).isGood limit = true)
    (hsettles : ((x.detach y).settled? targets).isSome = true) :
    ((start limit targets (x :: y :: rest) j).run 3).2.promoted = [x, y, x.detach y] := by
  have hnone : Sheet.isGood limit none = false := rfl
  simp [run, step, start, promote, settlesTarget, combine, pairings, accept, hself, hnone, hx,
    hxnormal, hxsettles, hy, hynormal, hysettles, hgood, hsettles]

/-- What follows by modus ponens from the first two formulas of a search is found at the third look
at the clock, if nothing is found before. -/
theorem exists_settled_of_detach {limit : Nat} {targets rest : List Sheet} {x y : Sheet}
    {j : Journal} (hx : x.size ≤ limit) (hy : y.size ≤ limit) (hxnormal : x.normalize = x)
    (hynormal : y.normalize = y) (hself : x.detach x = none)
    (hgood : (x.detach y).isGood limit = true)
    (hsettles : ((x.detach y).settled? targets).isSome = true) :
    ∃ p ∈ ((start limit targets (x :: y :: rest) j).run 3).2.promoted,
      (p.settled? targets).isSome = true := by
  have hnone : Sheet.isGood limit none = false := rfl
  by_cases hxs : (x.settled? targets).isSome = true
  · exact ⟨x, by simp [run, step, start, promote, settlesTarget, hx, hxnormal, hxs], hxs⟩
  · by_cases hys : (y.settled? targets).isSome = true
    · refine ⟨y, ?_, hys⟩
      simp [run, step, start, promote, settlesTarget, combine, pairings, accept, hself, hnone, hx,
        hxnormal, hxs, hy, hynormal, hys]
    · refine ⟨x.detach y, ?_, hsettles⟩
      rw [promoted_of_detach hx hy hxnormal hynormal hxs hys hself hgood hsettles]
      simp

end Search

end Detachment

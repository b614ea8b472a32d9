import Detachment.Proofs.Generations
import Detachment.Proofs.Mirroring
import Detachment.Proofs.Recording
import Detachment.Proofs.Targets
import Mathlib.Order.Bounds.Basic

/-!
# Exhausted searches

A search that runs out of formulas has missed nothing: what it has promoted is the least set that
contains the formulas it began with, as far as they are not too large, and that modus ponens does not
lead out of by a conclusion which passes the filter. Every pair of promoted formulas has been tried,
and a conclusion was dropped only if its text was known. A text tells its formula, so nothing was
taken for something else.
-/
namespace Detachment

/-! ### Formulas that their texts tell -/

/-- The formulas whose leaves are letters with a sign, no constant with a negative number. -/
def Fragment.numbered : Fragment where
  leaf a := a.Regular ∧ (a.kind = .const → 0 ≤ a.value)
  op _ := True
  leaf_var v := ⟨Fragment.regular.leaf_var v, nofun⟩
  leaf_negate a h := by
    refine ⟨Fragment.regular.leaf_negate a h.1, ?_⟩
    unfold Leaf.negate
    split <;> exact h.2
  leaf_rename f a h := by
    refine ⟨Fragment.regular.leaf_rename f a h.1, ?_⟩
    unfold Leaf.rename
    split
    · rename_i hvar
      have hk : a.kind = .var := by simpa [Leaf.isVariable] using hvar
      simp [hk]
    · exact h.2
  op_opposite _ _ := trivial

theorem Leaf.tidy_of_numbered {a : Leaf} (h : Fragment.numbered.leaf a) : a.tidy = a := by
  obtain ⟨k, op, v⟩ := a
  obtain ⟨⟨hk, hop⟩, hv⟩ := h
  cases k with
  | unknown => exact absurd rfl hk
  | const =>
      obtain rfl | rfl := hop
      · exact congrArg (Leaf.mk .const .nop) (Int.natAbs_of_nonneg (hv rfl))
      · exact congrArg (Leaf.mk .const .negation) (Int.natAbs_of_nonneg (hv rfl))
  | var => obtain rfl | rfl := hop <;> rfl

theorem Fragment.schematic_le_numbered : Fragment.schematic ≤ .numbered :=
  ⟨fun a h => ⟨Fragment.schematic_le.1 a h, by simp [h.1]⟩, fun _ _ => trivial⟩

theorem Fragment.numbered_le_legible : Fragment.numbered ≤ .legible :=
  ⟨fun _ h => .inr (Leaf.tidy_of_numbered h), fun _ h => h⟩

namespace Formula

variable {α : Type}

theorem outline_of_numbered {t : Formula α} (h : t.Within .numbered) : t.outline = t.shape := by
  induction t with
  | leaf s a => rw [outline_leaf, shape_leaf, Leaf.tidy_of_numbered h]
  | node s c l r ihl ihr => rw [outline_node, shape_node, ihl h.2.1, ihr h.2.2]

/-- The text of a formula with positive variables tells it. -/
theorem shape_eq_of_text_eq {f g : Formula α} (hf : f.Within .numbered) (hg : g.Within .numbered)
    (hfpos : ∀ v ∈ f.vars, 0 < v) (hgpos : ∀ v ∈ g.vars, 0 < v) (h : f.text = g.text) :
    f.shape = g.shape := by
  have houtline := outline_eq_of_text_eq hfpos hgpos h
  rwa [outline_of_numbered hf, outline_of_numbered hg] at houtline

@[simp] theorem isRootedAt_shape (op : Operation) (t : Formula α) :
    t.shape.isRootedAt op = t.isRootedAt op := by
  cases t <;> rfl

@[simp] theorem operations_shape (op : Operation) (t : Formula α) :
    t.shape.operations op = t.operations op := by
  induction t with
  | leaf s a => rfl
  | node s c l r ihl ihr => rw [shape_node, operations, operations, ihl, ihr]

end Formula

namespace Sheet

variable {x y x' y' : Sheet}

/-- The formula on a sheet without its slots. -/
def shape (x : Sheet) : Option Shape :=
  x.map Formula.shape

/-- The sheet is blank or holds a formula of the fragment. -/
def Within (F : Fragment) (x : Sheet) : Prop :=
  ∀ f, x = some f → f.Within F

theorem within_congr {F : Fragment} (h : x.shape = y.shape) (hy : y.Within F) : x.Within F := by
  rintro f rfl
  obtain ⟨g, rfl, hg⟩ := Option.map_eq_some_iff.mp h.symm
  rw [← Formula.within_shape, ← hg, Formula.within_shape]
  exact hy g rfl

theorem isGood_congr (h : x.shape = y.shape) (limit : Nat) : x.isGood limit = y.isGood limit := by
  cases x with
  | none =>
      obtain rfl := Option.map_eq_none_iff.mp h.symm
      rfl
  | some f =>
      obtain ⟨g, rfl, hg⟩ := Option.map_eq_some_iff.mp h.symm
      have hsize : size (some f) = size (some g) := by
        exact (Formula.size_map _ f).symm.trans ((congrArg _ hg.symm).trans (Formula.size_map _ g))
      have hroot (op : Operation) : isRootedAt op (some f) = isRootedAt op (some g) := by
        exact (f.isRootedAt_shape op).symm.trans ((congrArg _ hg.symm).trans (g.isRootedAt_shape op))
      have hops (op : Operation) : operations op (some f) = operations op (some g) := by
        exact (f.operations_shape op).symm.trans ((congrArg _ hg.symm).trans (g.operations_shape op))
      rw [isGood, isGood, hsize, hroot, hops]
      rfl

theorem shape_eq_of_text_eq {limit : Nat} (hx : x.Within .numbered) (hy : y.Within .numbered)
    (hxnormal : x.normalize = x) (hynormal : y.normalize = y) (hxgood : x.isGood limit = true)
    (hygood : y.isGood limit = true) (h : x.text = y.text) : x.shape = y.shape := by
  obtain ⟨⟨f, rfl⟩, -⟩ := exists_of_isGood hxgood
  obtain ⟨⟨g, rfl⟩, -⟩ := exists_of_isGood hygood
  exact congrArg some (Formula.shape_eq_of_text_eq (hx f rfl) (hy g rfl)
    (fun _ => pos_of_normal (Option.some.inj hxnormal))
    (fun _ => pos_of_normal (Option.some.inj hynormal)) h)

theorem normalize_detach (x y : Sheet) : (x.detach y).normalize = x.detach y := by
  cases h : x.detach y with
  | none => rfl
  | some f =>
      obtain ⟨m, M, -, -, hf⟩ := detach_eq_some_iff.mp h
      exact congrArg some (Detachment.normalize_detach hf)

theorem Within.detach {F : Fragment} (hx : x.Within F) (hy : y.Within F) :
    (x.detach y).Within F := by
  intro f hf
  obtain ⟨m, M, rfl, rfl, hf⟩ := detach_eq_some_iff.mp hf
  exact within_detachBy (hx m rfl) (hy M rfl) hf

/-- Modus ponens treats formulas that differ in their slots alike. -/
theorem shape_detach (hx : x.shape = x'.shape) (hy : y.shape = y'.shape)
    (hx' : x'.Within .numbered) (hy' : y'.Within .numbered) {f : Formula Nat}
    (h : x.detach y = some f) : (x.detach y).shape = (x'.detach y').shape := by
  have hxn := within_congr hx hx'
  have hyn := within_congr hy hy'
  have hfn := hxn.detach hyn f h
  obtain ⟨m, M, rfl, rfl, hf⟩ := detach_eq_some_iff.mp h
  obtain ⟨m', rfl, hm⟩ := Option.map_eq_some_iff.mp hx.symm
  obtain ⟨M', rfl, hM⟩ := Option.map_eq_some_iff.mp hy.symm
  have houtline {t t' : Formula Nat} (ht : t.Within .numbered) (ht' : t'.Within .numbered)
      (h : t'.shape = t.shape) : t.outline = t'.outline := by
    rw [Formula.outline_of_numbered ht, Formula.outline_of_numbered ht', h]
  obtain ⟨f', hf', hff'⟩ := exists_detach_of_outline (houtline (hxn m rfl) (hx' m' rfl) hm)
    (houtline (hyn M rfl) (hy' M' rfl) hM) ((hx' m' rfl).mono Fragment.numbered_le_legible)
    ((hy' M' rfl).mono Fragment.numbered_le_legible) hf
  have hdetach : Sheet.detach (some m') (some M') = some f' :=
    detach_eq_some_iff.mpr ⟨m', M', rfl, rfl, hf'⟩
  have hfn' := hx'.detach hy' f' hdetach
  rw [Formula.outline_of_numbered hfn, Formula.outline_of_numbered hfn'] at hff'
  rw [h, hdetach]
  exact congrArg some hff'

end Sheet

/-! ### Saturated sets -/

/-- A set of formulas that contains the seeds, unless they are too large, and every conclusion from
two of its formulas that passes the filter. Slots do not count. -/
structure Saturated (limit : Nat) (seeds : List Sheet) (S : Set (Option Shape)) : Prop where
  seeded : ∀ x ∈ seeds, x.size ≤ limit → x.shape ∈ S
  closed : ∀ x y : Sheet, x.shape ∈ S → y.shape ∈ S → (x.detach y).isGood limit = true →
    (x.detach y).shape ∈ S

namespace Search

/-- The formulas that are yet to be promoted. -/
def pending (s : Search) : List Sheet :=
  s.waiting ++ s.fresh

/-- What a search that began with `seeds` has seen to, as long as it goes on. -/
structure Saturating (limit : Nat) (seeds : List Sheet) (s : Search) : Prop where
  limit_eq : s.limit = limit
  normal : ∀ x ∈ s.pending, x.normalize = x
  seeded : ∀ x ∈ seeds, x.size ≤ limit → x ∈ s.promoted ∨ x ∈ s.pending
  tried : ∀ x ∈ s.promoted, ∀ y ∈ s.promoted, (x.detach y).isGood limit = true →
    (x.detach y).text ∈ s.known
  kept : ∀ text ∈ s.known, ∃ x : Sheet, x.isGood limit = true ∧ x.text = text ∧
    (x ∈ s.promoted ∨ x ∈ s.pending)
  promoted_mem : ∀ S, Saturated limit seeds S → ∀ x ∈ s.promoted, x.shape ∈ S
  pending_mem : ∀ S, Saturated limit seeds S → ∀ x ∈ s.pending, x.size ≤ limit → x.shape ∈ S
  turned : s.midway = false → s.fresh = []

variable {limit : Nat} {seeds : List Sheet} {s s' : Search}

theorem saturating_start (targets : List Sheet) (journal : Journal)
    (h : ∀ x ∈ seeds, x.normalize = x) :
    Saturating limit seeds (start limit targets seeds journal) := by
  have hpending : (start limit targets seeds journal).pending = seeds := List.append_nil seeds
  constructor
  case limit_eq => rfl
  case normal => rwa [hpending]
  case seeded =>
    intro x hx _
    rw [hpending]
    exact .inr hx
  case tried => simp [start]
  case kept => simp [start]
  case promoted_mem => simp [start]
  case pending_mem =>
    intro S hS x hx
    rw [hpending] at hx
    exact hS.seeded x hx
  case turned => exact fun _ => rfl

/-- What is pending may be put in another order. -/
theorem Saturating.reorder (h : Saturating limit seeds s) (hlimit : s'.limit = s.limit)
    (hpromoted : s'.promoted = s.promoted) (hknown : s'.known = s.known)
    (hpending : ∀ x, x ∈ s'.pending ↔ x ∈ s.pending) (hturned : s'.midway = false → s'.fresh = []) :
    Saturating limit seeds s' := by
  constructor
  case limit_eq => exact hlimit.trans h.limit_eq
  case normal => exact fun x hx => h.normal x ((hpending x).mp hx)
  case seeded =>
    intro x hx hsize
    rw [hpromoted, hpending]
    exact h.seeded x hx hsize
  case tried =>
    rw [hpromoted, hknown]
    exact h.tried
  case kept =>
    simp only [hknown, hpromoted, hpending]
    exact h.kept
  case promoted_mem =>
    rw [hpromoted]
    exact h.promoted_mem
  case pending_mem => exact fun S hS x hx => h.pending_mem S hS x ((hpending x).mp hx)
  case turned => exact hturned

theorem mem_pending_endGeneration (h : s.waiting = []) (x : Sheet) :
    x ∈ s.endGeneration.pending ↔ x ∈ s.pending := by
  simp [pending, endGeneration, h]

theorem Saturating.endGeneration (h : Saturating limit seeds s) (hwaiting : s.waiting = []) :
    Saturating limit seeds s.endGeneration :=
  h.reorder rfl rfl rfl (mem_pending_endGeneration hwaiting) fun _ => rfl

/-- A formula that is too large can be passed over. -/
theorem Saturating.pass {candidate : Sheet} {rest : List Sheet} (h : Saturating limit seeds s)
    (hmidway : s.midway = true) (hwaiting : s.waiting = candidate :: rest)
    (hlarge : limit < candidate.size) : Saturating limit seeds { s with waiting := rest } := by
  have hpending {x : Sheet} : x ∈ s.pending ↔
      x = candidate ∨ x ∈ pending { s with waiting := rest } := by
    simp [pending, hwaiting]
  have hfits {x : Sheet} (hx : x.size ≤ limit) (hmem : x ∈ s.pending) :
      x ∈ pending { s with waiting := rest } := by
    obtain rfl | hmem := hpending.mp hmem
    · omega
    · exact hmem
  constructor
  case limit_eq => exact h.limit_eq
  case normal => exact fun x hx => h.normal x (hpending.mpr (.inr hx))
  case seeded => exact fun x hx hsize => (h.seeded x hx hsize).imp_right (hfits hsize)
  case tried => exact h.tried
  case kept =>
    intro text htext
    obtain ⟨x, hgood, hx, hmem⟩ := h.kept text htext
    exact ⟨x, hgood, hx, hmem.imp_right (hfits (Sheet.exists_of_isGood hgood).2)⟩
  case promoted_mem => exact h.promoted_mem
  case pending_mem => exact fun S hS x hx => h.pending_mem S hS x (hpending.mpr (.inr hx))
  case turned =>
    intro hmidway'
    rw [hmidway] at hmidway'
    cases hmidway'

theorem mem_pairings {earlier : List Sheet} {newest x y : Sheet} (hx : x ∈ earlier ++ [newest])
    (hy : y ∈ earlier ++ [newest]) (h : ¬(x ∈ earlier ∧ y ∈ earlier)) :
    (x, y) ∈ pairings earlier newest := by
  simp only [pairings, List.mem_append, List.mem_flatMap, List.mem_cons, Prod.mk.injEq,
    List.not_mem_nil, or_false] at hx hy ⊢
  obtain hx | rfl := hx
  · obtain hy | rfl := hy
    · exact absurd ⟨hx, hy⟩ h
    · exact .inl ⟨x, hx, .inl ⟨rfl, rfl⟩⟩
  · obtain hy | rfl := hy
    · exact .inl ⟨y, hy, .inr ⟨rfl, rfl⟩⟩
    · exact .inr ⟨rfl, rfl⟩

/-- A formula that is promoted is tried with all the others, and what comes of it is kept. -/
theorem Saturating.combine {candidate : Sheet} {rest new : List Sheet}
    (h : Saturating limit seeds s) (hmidway : s.midway = true)
    (hwaiting : s.waiting = candidate :: rest) (hsize : candidate.size ≤ limit)
    (hnew : Combined (pairings s.promoted candidate)
      { s with waiting := rest, promoted := s.promoted ++ [candidate] } s' new) :
    Saturating limit seeds s' := by
  have hpromoted : s'.promoted = s.promoted ++ [candidate] := hnew.promoted_eq
  have hlimit : s'.limit = limit := hnew.limit_eq.trans h.limit_eq
  have hgood {x : Sheet} (hx : x ∈ new) : x.isGood limit = true ∧
      ∃ p ∈ pairings s.promoted candidate, x = p.1.detach p.2 := by
    have := hnew.good x hx
    rwa [h.limit_eq] at this
  have hpending {x : Sheet} : x ∈ s'.pending ↔ x ∈ rest ∨ x ∈ new ∨ x ∈ s.fresh := by
    simp [pending, hnew.waiting_eq, hnew.fresh_eq]
  have hbefore {x : Sheet} : x ∈ s.pending ↔ x = candidate ∨ x ∈ rest ∨ x ∈ s.fresh := by
    simp [pending, hwaiting]
  have hold {x : Sheet} (hx : x ∈ s'.pending) : x ∈ s.pending ∨ x ∈ new := by
    rw [hpending] at hx
    rw [hbefore]
    grind
  have hkeep {x : Sheet} (hx : x ∈ s.promoted ∨ x ∈ s.pending) :
      x ∈ s'.promoted ∨ x ∈ s'.pending := by
    rw [hbefore] at hx
    rw [hpending, hpromoted, List.mem_append, List.mem_singleton]
    grind
  have hmem {S : Set (Option Shape)} (hS : Saturated limit seeds S) {x : Sheet}
      (hx : x ∈ s.promoted ++ [candidate]) : x.shape ∈ S := by
    rw [List.mem_append, List.mem_singleton] at hx
    obtain hx | rfl := hx
    · exact h.promoted_mem S hS x hx
    · exact h.pending_mem S hS x (by simp [pending, hwaiting]) hsize
  constructor
  case limit_eq => exact hlimit
  case normal =>
    intro x hx
    obtain hx | hx := hold hx
    · exact h.normal x hx
    · obtain ⟨-, p, -, rfl⟩ := hgood hx
      exact Sheet.normalize_detach _ _
  case seeded =>
    intro x hx hsize
    exact hkeep (h.seeded x hx hsize)
  case tried =>
    intro x hx y hy hxy
    rw [hpromoted] at hx hy
    -- Two earlier formulas were tried before, and any other pair is among those tried now.
    by_cases hboth : x ∈ s.promoted ∧ y ∈ s.promoted
    · exact (hnew.mem_known _).mpr (.inl (h.tried x hboth.1 y hboth.2 hxy))
    · refine hnew.tried (x, y) (mem_pairings hx hy hboth) ?_
      rwa [h.limit_eq]
  case kept =>
    intro text htext
    obtain htext | ⟨x, hx, rfl⟩ := (hnew.mem_known text).mp htext
    · obtain ⟨x, hx, htext, hmem⟩ := h.kept text htext
      exact ⟨x, hx, htext, hkeep hmem⟩
    · exact ⟨x, (hgood hx).1, rfl, .inr (hpending.mpr (.inr (.inl hx)))⟩
  case promoted_mem =>
    intro S hS x hx
    rw [hpromoted] at hx
    exact hmem hS hx
  case pending_mem =>
    intro S hS x hx hsize
    obtain hx | hx := hold hx
    · exact h.pending_mem S hS x hx hsize
    · obtain ⟨hx, p, hp, rfl⟩ := hgood hx
      obtain ⟨h₁, h₂⟩ := mem_of_mem_pairings hp
      exact hS.closed p.1 p.2 (hmem hS h₁) (hmem hS h₂) hx
  case turned =>
    intro hmidway'
    rw [hnew.midway_eq.trans hmidway] at hmidway'
    cases hmidway'

theorem Saturating.step (h : Saturating limit seeds s) (hs : s.step false = .running s') :
    Saturating limit seeds s' := by
  obtain ⟨-, -, rfl⟩ | ⟨-, hwaiting, rfl⟩ |
    ⟨candidate, rest, s₁, hwaiting, hmidway, hpromote, rfl⟩ := step_running hs
  · exact h.reorder rfl rfl rfl (fun x => Iff.rfl) nofun
  · exact h.endGeneration hwaiting
  · have h₁ : Saturating limit seeds s₁ := by
      obtain ⟨hlarge, rfl⟩ | ⟨hsize, -, new, hnew⟩ := promote_eq_false hpromote
      · exact h.pass hmidway hwaiting (by rwa [← h.limit_eq])
      · -- The candidate is promoted as it is, since all that is pending is normal.
        rw [h.normal candidate (by simp [pending, hwaiting])] at hnew
        exact h.combine hmidway hwaiting (by rwa [← h.limit_eq]) hnew
    split
    · rename_i hempty
      exact h₁.endGeneration (by simpa using hempty)
    · exact h₁

/-- A search that is exhausted has nothing pending. -/
theorem Saturating.of_exhausted (h : Saturating limit seeds s) {looks : Nat}
    (hexhausted : (s.run looks).1 = .exhausted) :
    Saturating limit seeds (s.run looks).2 ∧ (s.run looks).2.pending = [] := by
  obtain ⟨s', h', hrun | hend⟩ := run_cases (fun _ _ h hs => h.step hs) h looks
  · rw [hrun] at hexhausted
    cases hexhausted
  · obtain ⟨-, hmidway, hwaiting, hs⟩ | ⟨houtcome, -⟩ := step_ended hend
    · rw [hs]
      exact ⟨h', by rw [pending, hwaiting, h'.turned hmidway, List.nil_append]⟩
    · rw [houtcome] at hexhausted
      cases hexhausted

/-- If nothing is pending, the promoted formulas are a saturated set, and no other is smaller. -/
theorem Saturating.isLeast (h : Saturating limit seeds s) (hpending : s.pending = [])
    (hnumbered : ∀ x ∈ s.promoted, x.Within .numbered ∧ x.normalize = x) :
    IsLeast {S | Saturated limit seeds S} {x | ∃ p ∈ s.promoted, p.shape = x} := by
  constructor
  · constructor
    · intro x hx hsize
      obtain hx | hx := h.seeded x hx hsize
      · exact ⟨x, hx, rfl⟩
      · rw [hpending] at hx
        cases hx
    · rintro x y ⟨p, hp, hpx⟩ ⟨q, hq, hqy⟩ hgood
      -- The conclusion from `p` and `q` was good, so its text is known, and so the text of a
      -- promoted formula.
      obtain ⟨⟨f, hf⟩, -⟩ := Sheet.exists_of_isGood hgood
      have hshape := Sheet.shape_detach hpx.symm hqy.symm (hnumbered p hp).1 (hnumbered q hq).1 hf
      rw [Sheet.isGood_congr hshape] at hgood
      obtain ⟨z, hz, htext, hmem⟩ := h.kept _ (h.tried p hp q hq hgood)
      rw [hpending] at hmem
      have hz' := hmem.resolve_right List.not_mem_nil
      obtain ⟨hzn, hznormal⟩ := hnumbered z hz'
      refine ⟨z, hz', ?_⟩
      rw [hshape]
      exact Sheet.shape_eq_of_text_eq hzn
        ((hnumbered p hp).1.detach (hnumbered q hq).1) hznormal
        (Sheet.normalize_detach p q) hz hgood htext
  · rintro S hS x ⟨p, hp, rfl⟩
    exact h.promoted_mem S hS p hp

/-- A search that gets no further than the conclusion from its first two formulas. -/
theorem run_eq_exhausted {targets : List Sheet} {x y z w : Sheet} (j : Journal)
    (hsmall : ∀ a ∈ [x, y, z], a.size ≤ limit ∧ a.normalize = a ∧ a.settled? targets = none)
    (hw : limit < w.size) (hz : x.detach y = z) (hgood : z.isGood limit = true)
    (hnone : ∀ p ∈ [(x, x), (y, x), (y, y), (x, z), (z, x), (y, z), (z, y), (z, z)],
      p.1.detach p.2 = none) :
    ((start limit targets [x, y, w] j).run 7).1 = .exhausted := by
  have hblank : Sheet.isGood limit none = false := rfl
  have hw : ¬ w.size ≤ limit := Nat.not_le_of_lt hw
  simp only [List.forall_mem_cons, List.not_mem_nil, false_implies, implies_true, and_true]
    at hsmall hnone
  simp [run, step, start, promote, settlesTarget, combine, pairings, accept, endGeneration, hblank,
    hw, hz, hgood, hnone, hsmall]

end Search

namespace Session

variable {store : Journal → Except ProverError Journal} {settings : Settings}
  {premises : List Sheet} {target : Sheet} {s : Session}

/-- The formulas that the search for a target begins with: the normal forms of the premises and of
the hypotheses, and contraposition if it is asked for. -/
def beginnings (settings : Settings) (premises : List Sheet) (target : Sheet) : List Sheet :=
  (assumptions premises target).map Sheet.normalize ++
    (if settings.seedContraposition then [some Schemas.contraposition] else [])

theorem Reached.exists_start (h : Reached store settings premises target s)
    (hready : s.phase = .ready) :
    ∃ j, s.prepare.2 =
      Search.start settings.maxSize (goals target) (beginnings settings premises target) j := by
  obtain ⟨hsettings, hpremises, htargets⟩ := h.of_ready hready
  rw [prepare_eq htargets]
  subst hsettings hpremises
  exact ⟨_, rfl⟩

theorem normalize_beginnings {x : Sheet} (h : x ∈ beginnings settings premises target) :
    x.normalize = x :=
  normalize_seeds (s := { settings, premises := assumptions premises target, targets := [] }) h

theorem within_beginnings (hpremises : ∀ p ∈ premises, Sheet.Within .numbered p)
    (htarget : target.Within .numbered) {x : Sheet} (h : x ∈ beginnings settings premises target) :
    x.Within .numbered := by
  obtain h | h := List.mem_append.mp h
  · obtain ⟨p, hp, rfl⟩ := List.mem_map.mp h
    intro f hf
    obtain ⟨g, rfl, rfl⟩ := Option.map_eq_some_iff.mp hf
    obtain hp | hp := List.mem_append.mp hp
    · exact (hpremises _ hp g rfl).normalize
    · obtain ⟨d, hd, hg⟩ := List.mem_map.mp hp
      obtain rfl := Option.some.inj hg
      cases target with
      | none => cases hd
      | some t => exact (Formula.within_of_discharge (htarget t rfl) hd).1.normalize
  · split at h
    · obtain rfl := List.mem_singleton.mp h
      rintro f ⟨⟩
      exact (Schemas.within_of_mem (by simp)).2.mono Fragment.schematic_le_numbered
    · cases h

/-- All that is promoted in the course of a search is normal and told by its text. -/
theorem Reached.within_promoted (h : Reached store settings premises target s)
    (hready : s.phase = .ready) (hpremises : ∀ p ∈ premises, Sheet.Within .numbered p)
    (htarget : target.Within .numbered) {looks : Nat} {x : Sheet}
    (hx : x ∈ (s.prepare.2.run looks).2.promoted) : x.Within .numbered ∧ x.normalize = x := by
  have hmentions (f : Formula Nat) (hf : s.prepare.2.Mentions f) :
      f.Within .numbered ∧ f.normalize = f := by
    obtain ⟨j, hj⟩ := h.exists_start hready
    rw [hj] at hf
    have hmem : some f ∈ beginnings settings premises target := by
      simpa [Search.Mentions, Search.start] using hf
    exact ⟨within_beginnings hpremises htarget hmem f rfl,
      Option.some.inj (normalize_beginnings hmem)⟩
  cases x with
  | none =>
      refine ⟨fun f hf => ?_, rfl⟩
      cases hf
  | some f =>
      have hf : f.Within .numbered ∧ f.normalize = f := by
        refine Search.mentions_run ?_ ?_ hmentions looks (.inl hx)
        · exact fun f hf => ⟨hf.1.normalize, f.normalize_normalize⟩
        · intro minor major f hminor hmajor hf
          exact ⟨within_detachBy hminor.1 hmajor.1 hf, normalize_detach hf⟩
      refine ⟨?_, congrArg some hf.2⟩
      rintro g ⟨⟩
      exact hf.1

/-- A session whose search is exhausted has promoted, up to slots, the least set of formulas that
contains what the search began with, as far as it is not too large, and every conclusion by modus
ponens that passes the filter. None of them settles a target. -/
theorem exhausted_search_saturated (h : Reached store settings premises target s)
    (hready : s.phase = .ready) (hpremises : ∀ p ∈ premises, Sheet.Within .numbered p)
    (htarget : target.Within .numbered) {looks : Nat}
    (hexhausted : (s.prepare.2.run looks).1 = .exhausted) :
    IsLeast {S | Saturated settings.maxSize (beginnings settings premises target) S}
      {x | ∃ p ∈ (s.solveStoring store looks).2.premises, p.shape = x} ∧
    ∀ p ∈ (s.solveStoring store looks).2.premises,
      ∀ t ∈ (s.solveStoring store looks).2.targets, p.settles t = false := by
  have htargets : s.prepare.1.targets = goals target := by
    rw [prepare_eq (h.of_ready hready).2.2]
    rfl
  obtain ⟨hpremises', htargets', -⟩ := conclude_frame s.prepare.1 (s.prepare.2.run looks).2
    (store (s.prepare.2.run looks).2.journal)
  have hwithin : ∀ x ∈ (s.prepare.2.run looks).2.promoted,
      Sheet.Within .numbered x ∧ x.normalize = x :=
    fun x => h.within_promoted hready hpremises htarget
  rw [solveStoring_of_ready hready, hpremises', htargets', htargets]
  obtain ⟨j, hj⟩ := h.exists_start hready
  rw [hj] at hexhausted hwithin ⊢
  constructor
  · obtain ⟨hsaturating, hpending⟩ :=
      (Search.saturating_start (goals target) j fun x => normalize_beginnings).of_exhausted
        hexhausted
    exact hsaturating.isLeast hpending hwithin
  · intro p hp t ht
    have hunsettled := (Search.unsettled_start settings.maxSize (goals target)
      (beginnings settings premises target) j).run looks
    rw [hexhausted, if_neg (by decide)] at hunsettled
    have hnone := List.find?_eq_none.mp (hunsettled.promoted p hp) t ht
    simpa using hnone

def narrowSettings : Settings :=
  { maxSize := 3, seedContraposition := false }

/-- The premises `A`, `A>B` and `a>(b>a)`, the last of which is too large. -/
def narrowPremises : List Sheet :=
  [some (.leaf () (.const 1) : Shape).place,
    some (Schemas.imp (.leaf () (.const 1)) (.leaf () (.const 2))).place, some Schemas.weakening]

/-- The target `C`. -/
def narrowTarget : Sheet :=
  some (.leaf () (.const 3) : Shape).place

def narrow : Session :=
  { settings := narrowSettings, premises := narrowPremises, targets := [narrowTarget] }

theorem within_narrow {p : Sheet} (h : p ∈ narrowPremises) : p.Within .numbered := by
  simp only [narrowPremises, List.mem_cons, List.not_mem_nil, or_false] at h
  obtain rfl | rfl | rfl := h <;> rintro f ⟨⟩
  · simp [Formula.Within, Fragment.numbered, Leaf.Regular, Leaf.const]
  · simp [Formula.Within, Schemas.imp, Fragment.numbered, Leaf.Regular, Leaf.const]
  · exact (Schemas.within_of_mem (by simp [Schemas.classical])).2.mono
      Fragment.schematic_le_numbered

theorem exhausted_narrow : (narrow.prepare.2.run 7).1 = .exhausted :=
  Search.run_eq_exhausted _ (by decide +kernel) (by decide) rfl (by decide +kernel)
    (by decide +kernel)

/-- With room for three nodes the search for `C` from `A`, `A>B` and `a>(b>a)` comes to `B` and
ends. -/
theorem exhausted_search_saturated_narrow :
    (narrow.prepare.2.run 7).1 = .exhausted ∧
    IsLeast {S | Saturated 3 (beginnings narrowSettings narrowPremises narrowTarget) S}
      {x | ∃ p ∈ (narrow.solve 7).2.premises, p.shape = x} ∧
    (∃ p ∈ (narrow.solve 7).2.premises, p.shape = some (.leaf () (.const 2))) ∧
    ∀ p ∈ (narrow.solve 7).2.premises, ∀ t ∈ (narrow.solve 7).2.targets, p.settles t = false := by
  have htarget : narrowTarget.Within .numbered := by
    rintro f ⟨⟩
    simp [Formula.Within, Fragment.numbered, Leaf.Regular, Leaf.const]
  obtain ⟨hleast, hsettles⟩ := exhausted_search_saturated (.start rfl : Reached .ok narrowSettings
    narrowPremises narrowTarget narrow) rfl (fun p => within_narrow) htarget exhausted_narrow
  refine ⟨exhausted_narrow, hleast, ?_, hsettles⟩
  have hseeded (x : Sheet) (hx : x ∈ narrowPremises) := hleast.1.seeded x.normalize
    (List.mem_append_left _ (List.mem_map_of_mem (List.mem_append_left _ hx)))
  obtain ⟨p, hp, hshape⟩ := hleast.1.closed _ _ (hseeded _ (.head _) (by decide))
    (hseeded _ (.tail _ (.head _)) (by decide)) (by decide +kernel)
  exact ⟨p, hp, hshape.trans (by decide +kernel)⟩

end Session

end Detachment

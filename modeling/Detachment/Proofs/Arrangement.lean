import Detachment.Proofs.SolvedForm
import Detachment.Proofs.Tables

/-!
# The arrangement of slots

One and the same formula can be stored in different ways. Comparing two stored formulas slot by slot
tells whether they match and are in the same slots, so it compares formulas only if something fixes
their slots. One arrangement is the canonical placement, in which the slots are filled in pre-order:
joining keeps it, reading produces it, and so does applying a substitution, unless there is nothing
to replace.
-/
namespace Detachment

namespace Formula

variable {α β : Type}

/-- The slots are filled in pre-order: every node comes before its left part, and its left part
before its right part. -/
def InPreorder (t : Formula Nat) : Prop :=
  t.slots = List.range t.size

theorem placeFrom_of_slots {t : Formula Nat} {n : Nat} (h : t.slots = List.range' n t.size) :
    t.placeFrom n = t := by
  induction t generalizing n with
  | leaf s a =>
      obtain rfl : s = n := by simpa [slots, size] using h
      rfl
  | node s c l r ihl ihr =>
      have hsize : (node s c l r).size = (l.size + r.size) + 1 := by
        simp only [size]
        omega
      rw [slots, hsize, List.range'_succ, ← List.range'_append_1, List.cons.injEq] at h
      obtain ⟨rfl, h⟩ := h
      obtain ⟨hl, hr⟩ := List.append_inj h (by simp)
      rw [placeFrom, ihl hl, ihr hr]

theorem inPreorder_place (t : Formula α) : t.place.InPreorder := by
  rw [InPreorder, place_eq, slots_placeFrom, size_placeFrom, List.range_eq_range']

/-- Filling the slots in pre-order is the canonical placement. -/
theorem inPreorder_iff {t : Formula Nat} : t.InPreorder ↔ t.place = t := by
  constructor
  · intro h
    rw [InPreorder, List.range_eq_range'] at h
    rw [place_eq, placeFrom_of_slots h]
  · intro h
    rw [← h]
    exact inPreorder_place t

theorem InPreorder.wellPlaced {t : Formula Nat} (h : t.InPreorder) : t.WellPlaced := by
  rw [← inPreorder_iff.mp h]
  exact wellPlaced_place t

/-- In pre-order the table lists the slots as they come. -/
theorem InPreorder.table_eq {t : Formula Nat} (h : t.InPreorder) :
    t.table = t.entries none := by
  refine table_of_sorted (List.pairwise_map.mp ?_)
  rw [map_slot_entries, h]
  exact List.pairwise_le_range

theorem InPreorder.join {l r : Formula Nat} (hl : l.InPreorder) (hr : r.InPreorder)
    (c : Connective) : (Formula.join c l r).InPreorder := by
  rw [← inPreorder_iff.mp hl, ← inPreorder_iff.mp hr, join_place c l r 0]
  exact inPreorder_place _

theorem inPreorder_parse {src : String} {t : Formula Nat} (h : parse src = .ok t) :
    t.InPreorder := by
  obtain ⟨-, -, f, -, -, -, rfl⟩ := parse_eq_ok.mp h
  exact inPreorder_place f

/-! ### Comparing slot by slot -/

theorem matches_shape {k : Bool} {a : Formula α} {b : Formula β} :
    a.shape.Matches k b.shape ↔ a.Matches k b := by
  induction a generalizing b with
  | leaf s x => cases b <;> rfl
  | node s c l r ihl ihr =>
      cases b with
      | leaf s' y => rfl
      | node s' c' l' r' => simp only [shape_node, Matches, ihl, ihr]

theorem matches_place {k : Bool} {a : Formula α} {b : Formula β} :
    a.place.Matches k b.place ↔ a.Matches k b := by
  rw [← matches_shape, shape_place, shape_place, matches_shape]

theorem matches_false_iff {a : Formula α} {b : Formula β} :
    a.Matches false b ↔ a.shape = b.shape := by
  induction a generalizing b with
  | leaf s x =>
      cases b with
      | leaf s' y =>
          obtain ⟨k, op, v⟩ := x
          obtain ⟨k', op', v'⟩ := y
          simp only [Matches, shape_leaf, leaf.injEq, Leaf.mk.injEq]
          grind
      | node s' c l r => simp [Matches]
  | node s c l r ihl ihr =>
      cases b with
      | leaf s' y => simp [Matches]
      | node s' c' l' r' => simp [Matches, ihl, ihr]

theorem Matches.size_eq {k : Bool} {a : Formula α} {b : Formula β} (h : a.Matches k b) :
    a.size = b.size := by
  induction a generalizing b with
  | leaf s x =>
      cases b with
      | leaf s' y => rfl
      | node s' c l r => exact h.elim
  | node s c l r ihl ihr =>
      cases b with
      | leaf s' y => exact h.elim
      | node s' c' l' r' => rw [size, size, ihl h.2.1, ihr h.2.2]

variable {k : Bool} {a b : Formula Nat}

/-- Formulas that match and are in the same slots have the same links and agree in every slot. -/
theorem forall₂_entries_of_matches (h : a.Matches k b) (hslots : a.slots = b.slots)
    (parent : Option Nat) :
    List.Forall₂ (fun e e' : Entry => e'.links = e.links ∧ e.agrees k e' = true)
      (a.entries parent) (b.entries parent) := by
  induction a generalizing b parent with
  | leaf s x =>
      cases b with
      | leaf s' y =>
          obtain rfl : s = s' := by simpa [slots] using hslots
          obtain ⟨hv, ho, hk⟩ := h
          refine .cons ⟨rfl, ?_⟩ .nil
          have hkind : k = true ∨ x.kind.toKind = y.kind.toKind :=
            hk.imp_right (congrArg LeafKind.toKind)
          simp only [Entry.agrees, isFunction_label]
          simpa [Leaf.label, hv, ho] using hkind
      | node s' c l r => exact h.elim
  | node s c l r ihl ihr =>
      cases b with
      | leaf s' y => exact h.elim
      | node s' c' l' r' =>
          obtain ⟨rfl, hl, hr⟩ := h
          rw [slots, slots, List.cons.injEq] at hslots
          obtain ⟨rfl, hslots⟩ := hslots
          obtain ⟨hsl, hsr⟩ := List.append_inj hslots (by simp [hl.size_eq])
          have hroot := And.intro (slot_of_slots hsl) (slot_of_slots hsr)
          refine .cons ?_ (List.rel_append (ihl hl hsl _) (ihr hr hsr _))
          simp [Entry.links, Entry.agrees, Label.function, Label.isFunction, hroot.1, hroot.2]

/-- Two stored formulas agree slot by slot exactly if they match and are in the same slots. -/
theorem agrees_iff (ha : a.WellPlaced) (hb : b.WellPlaced) :
    a.agrees k b = true ↔ a.Matches k b ∧ a.slots = b.slots := by
  refine ⟨matches_of_agrees ha hb, fun ⟨h, hslots⟩ => ?_⟩
  have htable := ha.forall₂_table hb (fun h => h.1) (forall₂_entries_of_matches h hslots none)
  rw [agrees, Bool.and_eq_true, beq_iff_eq, List.all_eq_true]
  exact ⟨h.size_eq, fun p hp => ((List.forall₂_iff_zip.mp htable).2 hp).2⟩

/-- In pre-order the slots do not tell formulas apart. -/
theorem InPreorder.agrees_iff (ha : a.InPreorder) (hb : b.InPreorder) :
    a.agrees k b = true ↔ a.Matches k b := by
  refine (Formula.agrees_iff ha.wellPlaced hb.wellPlaced).trans (and_iff_left_of_imp fun h => ?_)
  rw [ha, hb, h.size_eq]

end Formula

namespace Substitution

theorem inPreorder_apply_iff (s : Substitution) (t : Formula Nat) :
    (s.apply t).InPreorder ↔ t.InPreorder ∨ ∃ v ∈ t.vars, (s.value? v).isSome = true := by
  by_cases hbound : ∃ v ∈ t.vars, (s.value? v).isSome = true
  · refine iff_of_true ?_ (.inr hbound)
    obtain ⟨v, hv, hvalue⟩ := hbound
    obtain ⟨w, hw⟩ := Option.isSome_iff_exists.mp hvalue
    obtain ⟨hnil, -⟩ | he := s.apply_cases t
    · have hmem : (v, w) ∈ s.relevant t := mem_relevant.mpr ⟨hv, hw⟩
      simp [hnil] at hmem
    · rw [he]
      exact Formula.inPreorder_place _
  · rw [or_iff_left hbound, apply_of_unbound fun u hu => ?_]
    by_contra hne
    exact hbound ⟨u, hu, Option.isSome_iff_ne_none.mpr hne⟩

end Substitution

/-- Applying a substitution fills the slots in pre-order exactly if they were already in pre-order
or a variable of the formula is bound. Results in pre-order agree slot by slot exactly if they are
the same formula. -/
theorem application_canonical_iff (s s' : Substitution) (t t' : Formula Nat) :
    ((s.apply t).InPreorder ↔ t.InPreorder ∨ ∃ v ∈ t.vars, (s.value? v).isSome = true) ∧
      ((s.apply t).InPreorder → (s'.apply t').InPreorder →
        ((s.apply t).agrees false (s'.apply t') = true ↔
          (s.apply t).shape = (s'.apply t').shape)) :=
  ⟨s.inPreorder_apply_iff t, fun h h' => (h.agrees_iff h').trans Formula.matches_false_iff⟩

/-- `a>b` with `c>d` put in the place of `a`. The two new slots come after that of `b`. -/
def spliced : Formula Nat :=
  (Formula.join .implication (.leaf 0 (.var 1)) (.leaf 0 (.var 2))).replace 1
    (Formula.join .implication (.leaf 0 (.var 3)) (.leaf 0 (.var 4)))

theorem wellFormed_spliced : spliced.WellFormed :=
  (Obtained.replace 1 (.join .implication (.var 1) (.var 2))
    (.join .implication (.var 3) (.var 4))).wellFormed rfl

/-- One letter for another. -/
def letterFor (v w : Int) : Substitution :=
  [(v, some (.leaf 0 (.var w)))]

theorem solved_letterFor {v w : Int} (h : v ≠ w) : (letterFor v w).Solved := by
  intro v' t hv u hu
  rw [letterFor] at hv
  obtain ⟨rfl, rfl⟩ | hv := Substitution.value?_cons_cases hv
  · obtain rfl : u = w := by simpa using hu
    rw [letterFor, Substitution.value?_cons, if_neg h.symm]
    rfl
  · cases hv

/-- Both ways to store the formula come to the same once `b` is replaced. -/
theorem application_canonical_bound :
    ¬spliced.InPreorder ∧ ((letterFor 2 5).apply spliced).InPreorder ∧
    ((letterFor 2 5).apply spliced).agrees false ((letterFor 2 5).apply spliced.place) = true := by
  have hbound (t : Formula Nat) (ht : 2 ∈ t.vars) : ((letterFor 2 5).apply t).InPreorder :=
    ((application_canonical_iff (letterFor 2 5) [] t t).1).mpr (.inr ⟨2, ht, rfl⟩)
  have hspliced := hbound spliced (by decide)
  have hplaced := hbound spliced.place (by decide)
  refine ⟨by unfold Formula.InPreorder; decide, hspliced, ?_⟩
  refine ((application_canonical_iff _ _ spliced spliced.place).2 hspliced hplaced).mpr ?_
  have hsolved : (letterFor 2 5).Solved := solved_letterFor (by decide)
  rw [Substitution.shape_apply hsolved, Substitution.shape_apply hsolved,
    ← Formula.substitute_shape, ← Formula.substitute_shape spliced.place, Formula.shape_place]

/-- No variable is bound, and the slots stay as they were. The same formula in pre-order differs
from the result slot by slot. -/
theorem unbound_application_unarranged :
    spliced.WellFormed ∧
    (∀ v y, (letterFor 5 6).lookup v = some y →
      ∃ w, y = some w ∧ w.WellFormed ∧ ∀ u ∈ w.vars, (letterFor 5 6).lookup u = none) ∧
    ¬((letterFor 5 6).apply spliced).InPreorder ∧
    ((letterFor 5 6).apply spliced).shape = ((letterFor 5 6).apply spliced.place).shape ∧
    ((letterFor 5 6).apply spliced).agrees false ((letterFor 5 6).apply spliced.place) = false := by
  have hvalues (v : Int) (y : Sheet) (hv : (letterFor 5 6).lookup v = some y) :
      ∃ w, y = some w ∧ w.WellFormed ∧ ∀ u ∈ w.vars, (letterFor 5 6).lookup u = none := by
    have hmem := Substitution.mem_of_lookup hv
    simp only [letterFor, List.mem_singleton, Prod.mk.injEq] at hmem
    obtain ⟨-, rfl⟩ := hmem
    exact ⟨_, rfl, (Obtained.var 6).wellFormed rfl, by decide⟩
  have hspliced : (letterFor 5 6).apply spliced = spliced :=
    Substitution.apply_of_unbound (by decide)
  have hplaced : (letterFor 5 6).apply spliced.place = spliced.place :=
    Substitution.apply_of_unbound (by decide)
  rw [hspliced, hplaced, Formula.shape_place, Bool.eq_false_iff]
  refine ⟨wellFormed_spliced, hvalues, by unfold Formula.InPreorder; decide, rfl, fun hagree => ?_⟩
  have hagrees := (Formula.agrees_iff wellFormed_spliced.1 (Formula.wellPlaced_place _)).mp hagree
  exact absurd hagrees.2 (by decide)

end Detachment

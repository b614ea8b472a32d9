import Detachment.Proofs.Parts

/-!
# Negating a part of a stored formula

The part in a slot is negated where it stands. Its truth value turns into the opposite one, whatever
the letters stand for. In the table only operations change, and only those of slots of the part:
every slot keeps its links, its kind and its number, and no connective becomes a disjunction.
-/
namespace Detachment

/-- What becomes of a slot when the part that fills the given slots is negated. -/
structure Entry.Negated (part : List Nat) (e e' : Entry) : Prop where
  links_eq : e'.links = e.links
  kind_eq : e'.label.kind = e.label.kind
  value_eq : e'.label.value = e.label.value
  outside : e.slot ∉ part → e' = e
  disjunction : e'.label.op = .binary .disjunction → e.label.op = .binary .disjunction

theorem Entry.Negated.refl (part : List Nat) (e : Entry) : e.Negated part e :=
  ⟨rfl, rfl, rfl, fun _ => rfl, fun h => h⟩

theorem Leaf.kind_negate (a : Leaf) : a.negate.kind = a.kind := by
  unfold negate
  cases h : a.kind <;> simp [h]

theorem Leaf.op_of_negate {a : Leaf} {c : Connective} (h : a.negate.op = .binary c) :
    a.op = .binary c := by
  unfold negate at h
  cases hk : a.kind with
  | unknown => simpa [hk] using h
  | const => cases hn : a.negated <;> simp [hk, hn] at h
  | var => cases hn : a.negated <;> simp [hk, hn] at h

namespace Formula

variable {i : Nat} {t u : Formula Nat}

theorem negated_rootEntry (part : List Nat) {s : Nat} {c c' : Connective}
    {l r l' r' : Formula Nat} (hl : l'.slot = l.slot) (hr : r'.slot = r.slot)
    (hs : s ∉ part → c' = c) (hc : c' = .disjunction → c = .disjunction) (parent : Option Nat) :
    ((node s c l r).rootEntry parent).Negated part ((node s c' l' r').rootEntry parent) where
  links_eq := by simp [rootEntry, Entry.links, hl, hr]
  kind_eq := rfl
  value_eq := rfl
  outside h := by simp [rootEntry, hl, hr, hs h]
  disjunction h := congrArg Operation.binary (hc (Operation.binary.inj h))

/-- Slot by slot, negation changes nothing but operations. -/
theorem negated_entries (t : Formula Nat) {part : List Nat} (h : ∀ s ∈ t.slots, s ∈ part)
    (parent : Option Nat) :
    List.Forall₂ (Entry.Negated part) (t.entries parent) (t.negate.entries parent) := by
  have hsame (es : List Entry) : List.Forall₂ (Entry.Negated part) es es :=
    List.forall₂_same.mpr fun e _ => .refl part e
  induction t generalizing parent with
  | leaf s a =>
      refine .cons ⟨rfl, ?_, a.value_negate, fun hs => absurd (h s (by simp [slots])) hs, ?_⟩ .nil
      · exact congrArg LeafKind.toKind a.kind_negate
      · exact Leaf.op_of_negate
  | node s c l r ihl ihr =>
      have hs : s ∈ part := h s (by simp [slots])
      have hl := ihl fun x hx => h x (by simp [slots, hx])
      have hr := ihr fun x hx => h x (by simp [slots, hx])
      have hroot {c' : Connective} {l' r' : Formula Nat} (hl' : l'.slots = l.slots)
          (hr' : r'.slots = r.slots) (hc' : c' ≠ .disjunction) :=
        negated_rootEntry part (c := c) (slot_of_slots hl') (slot_of_slots hr')
          (fun h => absurd hs h) (fun h => absurd h hc') parent
      cases c with
      | implication =>
          exact .cons (hroot rfl r.slots_negate (by simp)) (List.rel_append (hsame _) (hr _))
      | conjunction =>
          exact .cons (hroot rfl r.slots_negate (by simp)) (List.rel_append (hsame _) (hr _))
      | disjunction =>
          exact .cons (hroot l.slots_negate r.slots_negate (by simp))
            (List.rel_append (hl _) (hr _))
      | xor => exact .cons (hroot rfl rfl (by simp)) (hsame _)
      | equivalence => exact .cons (hroot rfl rfl (by simp)) (hsame _)

/-- Negating the part in a slot changes that part only. -/
theorem negated_entries_negateAt (hnd : t.slots.Nodup) (hu : t.at? i = some u)
    (parent : Option Nat) :
    List.Forall₂ (Entry.Negated u.slots) (t.entries parent) ((t.negateAt i).entries parent) := by
  have hsame (es : List Entry) : List.Forall₂ (Entry.Negated u.slots) es es :=
    List.forall₂_same.mpr fun e _ => .refl u.slots e
  have hslots (t : Formula Nat) : (t.negateAt i).slots = t.slots := slots_modifyAt i slots_negate t
  induction t generalizing parent with
  | leaf s a =>
      obtain ⟨hs, rfl⟩ := at?_leaf.mp hu
      rw [negateAt, modifyAt, if_pos hs]
      exact negated_entries _ (fun x hx => hx) parent
  | node s c l r ihl ihr =>
      have hroot := negated_rootEntry u.slots (s := s) (c := c) (slot_of_slots (hslots l))
        (slot_of_slots (hslots r)) (fun _ => rfl) (fun h => h) parent
      have hnode (hs : s ≠ i) :
          (node s c l r).negateAt i = node s c (l.negateAt i) (r.negateAt i) := by
        rw [negateAt, modifyAt, if_neg hs]
      obtain ⟨hs, rfl⟩ | ⟨hs, ⟨hl, hr⟩ | ⟨hr, hl⟩⟩ := at?_node_cases hnd hu
      · rw [negateAt, modifyAt, if_pos hs]
        exact negated_entries _ (fun x hx => hx) parent
      · have hr' : r.negateAt i = r := modifyAt_of_not_mem hr
        rw [hnode hs]
        refine .cons hroot (List.rel_append (ihl (nodup_left hnd) hl _) ?_)
        rw [hr']
        exact hsame _
      · have hl' : l.negateAt i = l := modifyAt_of_not_mem hl
        rw [hnode hs]
        refine .cons hroot (List.rel_append ?_ (ihr (nodup_right hnd) hr _))
        rw [hl']
        exact hsame _

theorem eval_negate {α : Type} {t : Formula α} (h : t.Within .lettered)
    (vars consts : Int → Bool) : t.negate.eval vars consts = !t.eval vars consts :=
  t.value_negate .truth vars consts h

/-- The table of a formula with a negated part, slot by slot. -/
theorem WellPlaced.negated_table (h : t.WellPlaced) (hu : t.at? i = some u) {j : Nat}
    {e e' : Entry} (he : t.table[j]? = some e) (he' : (t.negateAt i).table[j]? = some e') :
    e.Negated u.slots e' := by
  have htable := h.forall₂_table (h.negateAt i) Entry.Negated.links_eq
    (negated_entries_negateAt h.nodup_slots hu none)
  obtain ⟨hj, rfl⟩ := List.getElem?_eq_some_iff.mp he
  obtain ⟨hj', rfl⟩ := List.getElem?_eq_some_iff.mp he'
  exact htable.get hj hj'

end Formula

/-- Negation of a part is logical negation, and it changes nothing else. In whichever order the
slots are filled, the part in a slot in range has the opposite truth value afterwards, under every
assignment of the letters. All slots keep their links, kinds and numbers, those outside of the part
are unchanged, and none of them becomes a disjunction. -/
theorem negated_part_opposite {t : Formula Nat} (h : t.WellFormed) {i : Nat} (hi : i < t.size) :
    ∃ u u', t.at? i = some u ∧ (t.negateAt i).at? i = some u' ∧
      (∀ vars consts, u'.eval vars consts = !u.eval vars consts) ∧
      (t.negateAt i).table.length = t.table.length ∧
      ∀ j e e', t.table[j]? = some e → (t.negateAt i).table[j]? = some e' →
        e'.links = e.links ∧ e'.label.kind = e.label.kind ∧ e'.label.value = e.label.value ∧
          (j ∉ u.slots → e' = e) ∧
          (e'.label.op = .binary .disjunction → e.label.op = .binary .disjunction) := by
  obtain ⟨u, hu⟩ := Formula.exists_at? (h.1.2.mem_iff.mpr (List.mem_range.mpr hi))
  have hslot (w : Formula Nat) : w.negate.slot = w.slot := Formula.slot_of_slots w.slots_negate
  have hu' : (t.negateAt i).at? i = some u.negate := by
    rw [Formula.negateAt, Formula.at?_modifyAt hslot, hu, Option.map_some]
  have hlettered := (h.2.at? hu).mono Fragment.regular_le
  refine ⟨u, u.negate, hu, hu', Formula.eval_negate hlettered, ?_, fun j e e' he he' => ?_⟩
  · rw [Formula.length_table, Formula.length_table, ← Formula.length_slots,
      ← Formula.length_slots, Formula.negateAt, Formula.slots_modifyAt i Formula.slots_negate]
  · have hneg := h.1.negated_table hu he he'
    obtain ⟨-, rfl⟩ := h.1.getElem?_table.mp he
    exact ⟨hneg.links_eq, hneg.kind_eq, hneg.value_eq, hneg.outside, hneg.disjunction⟩

/-- `(A|B)>(b>(A|B))`, where the letters of both disjunctions are in the last slots. -/
def disjoinedTwice : Formula Nat :=
  Schemas.weakening.replace 1 disjoinedRight

/-- The part `b>(A|B)` in slot 2 turns into `b*(!A*!B)`. -/
theorem negated_part_opposite_appended :
    disjoinedTwice.place ≠ disjoinedTwice ∧
    (disjoinedTwice.negateAt 2).text = "(A|B)>(b*(!A*!B))" ∧
    ∃ u u', disjoinedTwice.at? 2 = some u ∧ (disjoinedTwice.negateAt 2).at? 2 = some u' ∧
      (∀ vars consts, u'.eval vars consts = !u.eval vars consts) ∧
      (disjoinedTwice.negateAt 2).table.length = disjoinedTwice.table.length ∧
      ∀ j e e', disjoinedTwice.table[j]? = some e →
        (disjoinedTwice.negateAt 2).table[j]? = some e' →
          e'.links = e.links ∧ e'.label.kind = e.label.kind ∧ e'.label.value = e.label.value ∧
            (j ∉ u.slots → e' = e) ∧
            (e'.label.op = .binary .disjunction → e.label.op = .binary .disjunction) := by
  have hschema : Schemas.weakening ∈ Schemas.contraposition :: Schemas.classical := by
    simp [Schemas.classical]
  have hweakening : Schemas.weakening.WellFormed := (Obtained.schema hschema).wellFormed rfl
  have hright : disjoinedRight.Within .regular := (Formula.within_place _).mpr (by
    simp [Formula.Within, Fragment.regular, Leaf.Regular, Leaf.const])
  have hwell : disjoinedTwice.WellFormed :=
    ⟨hweakening.1.replace (Formula.wellPlaced_place _) 1, hweakening.2.replace hright 1⟩
  exact ⟨by decide, by decide, negated_part_opposite hwell (by decide)⟩

end Detachment

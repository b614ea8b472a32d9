import Detachment.Matching
import Detachment.Proofs.Meaning
import Mathlib.Data.List.Sort

/-!
# Comparing slot by slot

Two well-placed formulas that agree slot by slot are the same formula, up to the kinds of their
letters if these are ignored: `Matches`. So a formula that settles a target has the target's
connectives, signs and numbers once the variables of both are numbered by first occurrence.
-/
namespace Detachment

namespace Formula

variable {α β : Type}

/-- The same formula, up to the kinds of the letters if `ignoreKinds`. -/
def Matches (ignoreKinds : Bool) : Formula α → Formula β → Prop
  | leaf _ a, leaf _ b => a.value = b.value ∧ a.op = b.op ∧ (ignoreKinds ∨ a.kind = b.kind)
  | node _ c l r, node _ c' l' r' => c = c' ∧ l.Matches ignoreKinds l' ∧ r.Matches ignoreKinds r'
  | _, _ => False

theorem map_slot_entries (t : Formula Nat) (parent : Option Nat) :
    (t.entries parent).map Entry.slot = t.slots := by
  induction t generalizing parent with
  | leaf s a => rfl
  | node s c l r ihl ihr => simp [entries, slots, ihl, ihr]

theorem table_perm (t : Formula Nat) : t.table.Perm (t.entries none) :=
  List.mergeSort_perm _ _

theorem WellPlaced.nodup_slots {t : Formula Nat} (h : t.WellPlaced) : t.slots.Nodup :=
  h.2.nodup_iff.mpr List.nodup_range

/-- In the table of a well-placed formula the slots are numbered by their position. -/
theorem WellPlaced.map_slot_table {t : Formula Nat} (h : t.WellPlaced) :
    t.table.map Entry.slot = List.range t.size := by
  have hperm : (t.table.map Entry.slot).Perm (List.range t.size) := by
    refine (t.table_perm.map Entry.slot).trans ?_
    rw [map_slot_entries]
    exact h.2
  have hsorted : t.table.Pairwise fun a b => (decide (a.slot ≤ b.slot)) = true :=
    List.pairwise_mergeSort (fun a b c hab hbc => by simp at *; omega)
      (fun a b => by simp; omega) _
  refine hperm.eq_of_pairwise' (r := (· ≤ ·)) ?_ List.pairwise_le_range
  rw [List.pairwise_map]
  exact hsorted.imp (by simp)

theorem WellPlaced.slot_getElem_table {t : Formula Nat} (h : t.WellPlaced) {i : Nat}
    (hi : i < t.table.length) : t.table[i].slot = i := by
  have hlen : i < (t.table.map Entry.slot).length := by simpa using hi
  have heq : (t.table.map Entry.slot)[i] = i := by
    simp only [h.map_slot_table, List.getElem_range]
  simpa using heq

theorem length_entries (t : Formula Nat) (parent : Option Nat) :
    (t.entries parent).length = t.size := by
  rw [← length_slots, ← map_slot_entries t parent, List.length_map]

theorem length_table (t : Formula Nat) : t.table.length = t.size := by
  rw [t.table_perm.length_eq, length_entries]

/-- Every slot of the first formula agrees with the same slot of the second. -/
theorem exists_entry_of_agrees {k : Bool} {a b : Formula Nat} (ha : a.WellPlaced)
    (hb : b.WellPlaced) (h : a.agrees k b = true) {e : Entry} (he : e ∈ a.entries none) :
    ∃ e' ∈ b.entries none, e'.slot = e.slot ∧ e.agrees k e' = true := by
  unfold agrees at h
  rw [Bool.and_eq_true, beq_iff_eq, List.all_eq_true] at h
  obtain ⟨hsize, hall⟩ := h
  obtain ⟨i, hi, rfl⟩ := List.mem_iff_getElem.mp (a.table_perm.mem_iff.mpr he)
  have hi' : i < b.table.length := by
    rw [length_table] at hi ⊢
    omega
  refine ⟨b.table[i], b.table_perm.mem_iff.mp (List.getElem_mem hi'), ?_, ?_⟩
  · rw [hb.slot_getElem_table, ha.slot_getElem_table]
  · have hz : i < (a.table.zip b.table).length := by
      rw [List.length_zip]
      omega
    have hmem := hall _ (List.getElem_mem hz)
    rwa [List.getElem_zip] at hmem

/-- The entry of a root. -/
def rootEntry (parent : Option Nat) : Formula Nat → Entry
  | leaf s a => ⟨s, a.label, none, none, parent⟩
  | node s c l r => ⟨s, .function (.binary c), some l.slot, some r.slot, parent⟩

theorem rootEntry_mem (t : Formula Nat) (parent : Option Nat) :
    t.rootEntry parent ∈ t.entries parent := by
  cases t <;> simp [rootEntry, entries]

@[simp] theorem slot_rootEntry (t : Formula Nat) (parent : Option Nat) :
    (t.rootEntry parent).slot = t.slot := by
  cases t <;> rfl

theorem parent_rootEntry (t : Formula Nat) (parent : Option Nat) :
    (t.rootEntry parent).parent = parent := by
  cases t <;> rfl

theorem label_rootEntry (t : Formula Nat) (parent : Option Nat) :
    (t.rootEntry parent).label = t.label := by
  cases t <;> rfl

theorem isFunction_label (a : Leaf) : a.label.isFunction = false := by
  cases h : a.kind <;> simp [Leaf.label, Label.isFunction, LeafKind.toKind, h]

theorem kind_eq_of_toKind {k k' : LeafKind} (h : k.toKind = k'.toKind) : k = k' := by
  cases k <;> cases k' <;> first | rfl | cases h

section

variable {k : Bool} {es : List Entry} (hnd : (es.map Entry.slot).Nodup)
include hnd

theorem agrees_rootEntry {a b : Formula Nat} {p q : Option Nat}
    (ha : ∀ e ∈ a.entries p, ∃ e' ∈ es, e'.slot = e.slot ∧ e.agrees k e' = true)
    (hb : ∀ e ∈ b.entries q, e ∈ es) (hroot : a.slot = b.slot) :
    (a.rootEntry p).agrees k (b.rootEntry q) = true := by
  obtain ⟨e', he', hslot, hagree⟩ := ha _ (a.rootEntry_mem p)
  have heq : e' = b.rootEntry q := by
    refine List.inj_on_of_nodup_map hnd he' (hb _ (b.rootEntry_mem q)) ?_
    rw [hslot, slot_rootEntry, slot_rootEntry, hroot]
  rwa [← heq]

/-- If every slot of `a` agrees with the slot of the same number in `es`, where all slots of `b`
are, and both roots have the same number, then the two formulas match and are in the same slots. A
slot says where its parts are, so the comparison goes down both formulas at once. -/
theorem matches_of_entries {a b : Formula Nat} {p q : Option Nat}
    (ha : ∀ e ∈ a.entries p, ∃ e' ∈ es, e'.slot = e.slot ∧ e.agrees k e' = true)
    (hb : ∀ e ∈ b.entries q, e ∈ es) (hroot : a.slot = b.slot) :
    a.Matches k b ∧ a.slots = b.slots := by
  have hagree := agrees_rootEntry hnd ha hb hroot
  induction a generalizing b p q with
  | leaf s x =>
      cases b with
      | leaf s' y =>
          simp only [rootEntry, Entry.agrees, isFunction_label, Bool.and_eq_true, beq_iff_eq,
            Bool.or_eq_true] at hagree
          obtain ⟨-, ⟨hv, ho⟩, hk⟩ := hagree
          exact ⟨⟨hv, ho, hk.imp_right kind_eq_of_toKind⟩, congrArg ([·]) hroot⟩
      | node s' c l r => simp [rootEntry, Entry.agrees] at hagree
  | node s c l r ihl ihr =>
      cases b with
      | leaf s' y => simp [rootEntry, Entry.agrees] at hagree
      | node s' c' l' r' =>
          simp only [rootEntry, Entry.agrees, Label.function, Label.isFunction, Bool.and_eq_true,
            beq_iff_eq, Option.some.injEq] at hagree
          obtain ⟨⟨hl, hr⟩, hc⟩ := hagree
          have hal : ∀ e ∈ l.entries (some s), ∃ e' ∈ es, e'.slot = e.slot ∧ e.agrees k e' = true :=
            fun e he => ha e (by simp [entries, he])
          have har : ∀ e ∈ r.entries (some s), ∃ e' ∈ es, e'.slot = e.slot ∧ e.agrees k e' = true :=
            fun e he => ha e (by simp [entries, he])
          have hbl : ∀ e ∈ l'.entries (some s'), e ∈ es := fun e he => hb e (by simp [entries, he])
          have hbr : ∀ e ∈ r'.entries (some s'), e ∈ es := fun e he => hb e (by simp [entries, he])
          obtain ⟨hml, hsl⟩ := ihl hal hbl hl (agrees_rootEntry hnd hal hbl hl)
          obtain ⟨hmr, hsr⟩ := ihr har hbr hr (agrees_rootEntry hnd har hbr hr)
          obtain rfl : s = s' := hroot
          exact ⟨⟨by simpa using hc, hml, hmr⟩, by rw [slots, slots, hsl, hsr]⟩

end

theorem matches_of_agrees {k : Bool} {a b : Formula Nat} (ha : a.WellPlaced) (hb : b.WellPlaced)
    (h : a.agrees k b = true) : a.Matches k b ∧ a.slots = b.slots := by
  refine matches_of_entries ?_ (fun e he => exists_entry_of_agrees ha hb h he) (fun e he => he)
    (ha.1.trans hb.1.symm)
  rw [map_slot_entries]
  exact hb.nodup_slots

theorem head?_slots (t : Formula α) : t.slots.head? = some t.slot := by
  cases t <;> rfl

theorem slot_of_slots {t t' : Formula α} (h : t'.slots = t.slots) : t'.slot = t.slot := by
  have hhead : some t'.slot = some t.slot := by rw [← head?_slots, h, head?_slots]
  exact Option.some.inj hhead

/-- A formula is as well placed as another one in the same slots. -/
theorem WellPlaced.of_slots {t t' : Formula Nat} (h : t.WellPlaced) (hs : t'.slots = t.slots) :
    t'.WellPlaced := by
  refine ⟨(slot_of_slots hs).trans h.1, ?_⟩
  rw [← length_slots, hs, length_slots]
  exact h.2

theorem slots_mapLeaves (f : Leaf → Leaf) (t : Formula α) : (t.mapLeaves f).slots = t.slots := by
  induction t with
  | leaf s a => rfl
  | node s c l r ihl ihr => simp [mapLeaves, slots, ihl, ihr]

theorem WellPlaced.mapLeaves {t : Formula Nat} (h : t.WellPlaced) (f : Leaf → Leaf) :
    (t.mapLeaves f).WellPlaced :=
  h.of_slots (slots_mapLeaves f t)

theorem WellPlaced.normalize {t : Formula Nat} (h : t.WellPlaced) : t.normalize.WellPlaced :=
  h.mapLeaves _

/-- Formulas that match have the same value if a constant has the value of the variable with its
number. -/
theorem Matches.value_eq {D : Type} (M : Meaning D) (letters : Int → D) {k : Bool}
    {a : Formula α} {b : Formula β} (h : a.Matches k b) :
    a.value M letters letters = b.value M letters letters := by
  induction a generalizing b with
  | leaf s x =>
      cases b with
      | leaf s' y =>
          obtain ⟨hv, ho, -⟩ := h
          simp [value, Leaf.meaning, Leaf.negated, hv, ho]
      | node s' c l r => exact h.elim
  | node s c l r ihl ihr =>
      cases b with
      | leaf s' y => exact h.elim
      | node s' c' l' r' =>
          obtain ⟨rfl, hl, hr⟩ := h
          rw [value, value, ihl hl, ihr hr]

end Formula

/-- What settles a target is no blank sheet, and neither is the target. -/
theorem Sheet.matches_of_settles {candidate target : Sheet} (h : candidate.settles target = true) :
    ∃ c t, candidate = some c ∧ target = some t ∧
      (c.WellPlaced → t.WellPlaced → t.normalize.Matches true c.normalize) := by
  simp only [settles, Bool.and_eq_true, Option.isSome_iff_exists] at h
  obtain ⟨⟨⟨⟨c, rfl⟩, -⟩, -⟩, hagree⟩ := h
  cases target with
  | none => simp [Sheet.agrees, normalize] at hagree
  | some t =>
      exact ⟨c, t, rfl, rfl, fun hc ht =>
        (Formula.matches_of_agrees ht.normalize hc.normalize hagree).1⟩

/-- Slots that are in order need not be sorted. -/
theorem Formula.table_of_sorted {t : Formula Nat}
    (h : (t.entries none).Pairwise fun a b => a.slot ≤ b.slot) : t.table = t.entries none :=
  List.mergeSort_of_pairwise (by simpa using h)

theorem Sheet.settles_of_sorted {c t : Formula Nat}
    (hc : (c.normalize.entries none).Pairwise fun a b => a.slot ≤ b.slot)
    (ht : (t.normalize.entries none).Pairwise fun a b => a.slot ≤ b.slot)
    (hsize : t.size = c.size ∧ t.normalize.size = c.normalize.size)
    (hop : (label? (some t)).map Label.op = (label? (some c)).map Label.op)
    (h : ((t.normalize.entries none).zip (c.normalize.entries none)).all
      (fun p => p.1.agrees true p.2) = true) : settles (some c) (some t) = true := by
  have hagrees : t.normalize.agrees true c.normalize = true := by
    rw [Formula.agrees, Formula.table_of_sorted hc, Formula.table_of_sorted ht, h, hsize.2]
    simp
  simp only [settles, Option.isSome_some, Sheet.size, Option.elim_some, hsize.1, hop, normalize,
    Option.map_some, Sheet.agrees, hagrees, beq_self_eq_true, Bool.and_self]

end Detachment

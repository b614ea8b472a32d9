import Detachment.Proofs.Copying

/-!
# Tables that are joined and copied

Joining two tables renumbers their links and sets the parents of their roots. Copying a part makes
new links, and renumbering variables or holding them fixed leaves the links alone. If the tables are
those of stored formulas, then each of these operations yields the table of the formula that the
operation on formulas yields.

A list of entries is the table of a formula if it has the entries of the formula and each of them is
in the place of its number.
-/
namespace Detachment

open scoped List

/-! ### Machines that have come to an end -/

theorem repeat_eq_iterate {α : Type} (f : α → α) (n : Nat) (a : α) :
    Nat.repeat f n a = f^[n] a := by
  induction n with
  | zero => rfl
  | succ n ih => rw [Nat.repeat, ih, Function.iterate_succ_apply']

theorem repeat_eq_of_fixed {α : Type} {f : α → α} {a b : α} {m n : Nat} (hrun : f^[m] a = b)
    (hfixed : f b = b) (h : m ≤ n) : Nat.repeat f n a = b := by
  rw [repeat_eq_iterate, ← Nat.sub_add_cancel h, Function.iterate_add_apply, hrun,
    Function.iterate_fixed hfixed]

/-! ### Entries in the places of their numbers -/

/-- Every entry is in the place of its number. -/
def Numbered (es : List Entry) : Prop :=
  es.map Entry.slot = List.range es.length

namespace Numbered

variable {es : List Entry} (h : Numbered es)
include h

theorem slot_getElem {i : Nat} (hi : i < es.length) : es[i].slot = i := by
  have hi' : i < (es.map Entry.slot).length := by simpa using hi
  have hslot : (es.map Entry.slot)[i] = i := by
    simp only [show es.map Entry.slot = List.range es.length from h, List.getElem_range]
  simpa using hslot

theorem map {f : Entry → Entry} (hf : ∀ e, (f e).slot = e.slot) : Numbered (es.map f) := by
  rw [Numbered, List.length_map, List.map_map, ← show es.map Entry.slot = _ from h]
  exact List.map_congr_left fun e _ => hf e

theorem pairwise : es.Pairwise fun a b => a.slot < b.slot := by
  rw [← List.pairwise_map (f := Entry.slot), show es.map Entry.slot = _ from h]
  exact List.pairwise_lt_range

/-- Changing the entry in one place is changing every entry with its number. -/
theorem set_eq_map {i : Nat} {e : Entry} (he : es[i]? = some e) (f : Entry → Entry) :
    es.set i (f e) = es.map fun x => if x.slot = i then f x else x := by
  obtain ⟨hi, rfl⟩ := List.getElem?_eq_some_iff.mp he
  refine List.ext_getElem (by simp) fun j hj hj' => ?_
  have hj : j < es.length := by simpa using hj
  rw [List.getElem_set, List.getElem_map, h.slot_getElem hj]
  by_cases hij : i = j
  · subst hij
    simp
  · simp [hij, Ne.symm hij]

end Numbered

namespace Formula

variable {t u : Formula Nat} {q : Option Nat}

/-! ### The entries of a formula -/

/-- The entries below the root. -/
def innerEntries : Formula Nat → List Entry
  | leaf _ _ => []
  | node s _ l r => l.entries (some s) ++ r.entries (some s)

theorem entries_eq_cons (t : Formula Nat) (p : Option Nat) :
    t.entries p = t.rootEntry p :: t.innerEntries := by
  cases t <;> rfl

theorem slot_mem_of_mem_entries {e : Entry} (he : e ∈ t.entries q) : e.slot ∈ t.slots := by
  rw [← map_slot_entries t q]
  exact List.mem_map_of_mem he

/-- What leaves the slots of a formula alone leaves its entries alone. -/
theorem map_entries_eq_self {f : Entry → Entry} (h : ∀ e, e.slot ∈ t.slots → f e = e)
    (q : Option Nat) : (t.entries q).map f = t.entries q :=
  (List.map_congr_left fun e he => h e (slot_mem_of_mem_entries he)).trans (List.map_id _)

theorem slot_ne_of_mem_innerEntries (hnd : t.slots.Nodup) {e : Entry} (he : e ∈ t.innerEntries) :
    e.slot ≠ t.slot := by
  rw [← map_slot_entries t none, entries_eq_cons, List.map_cons, slot_rootEntry,
    List.nodup_cons] at hnd
  exact fun heq => hnd.1 (heq ▸ List.mem_map_of_mem he)

theorem slot_map (f : Nat → Nat) (t : Formula Nat) : (t.map f).slot = f t.slot := by
  cases t <;> rfl

/-- Moving a formula to other slots renumbers its links. -/
theorem entries_map (f : Nat → Nat) (t : Formula Nat) (p : Option Nat) :
    (t.map f).entries (p.map f) = (t.entries p).map fun e => e.withLinks (e.links.map f) := by
  induction t generalizing p with
  | leaf s a => rfl
  | node s c l r ihl ihr =>
      have hl := ihl (some s)
      have hr := ihr (some s)
      rw [Option.map_some] at hl hr
      rw [map, entries, entries, hl, hr, List.map_cons, List.map_append, slot_map, slot_map]
      rfl

theorem innerEntries_map (f : Nat → Nat) (t : Formula Nat) :
    (t.map f).innerEntries = t.innerEntries.map fun e => e.withLinks (e.links.map f) := by
  have h := entries_map f t none
  rw [entries_eq_cons, entries_eq_cons, List.map_cons] at h
  exact (List.cons.inj h).2

/-- The root of a formula that is moved and gets another parent. -/
theorem rootEntry_map (f : Nat → Nat) (t : Formula Nat) (p q : Option Nat) :
    (t.rootEntry p).withLinks { (t.rootEntry p).links.map f with parent := q } =
      (t.map f).rootEntry q := by
  cases t with
  | leaf s a => rfl
  | node s c l r =>
      rw [map, rootEntry, rootEntry, slot_map, slot_map]
      rfl

theorem size_le_of_at? {i : Nat} (h : t.at? i = some u) : u.size ≤ t.size := by
  obtain ⟨q, hsub⟩ := exists_sublist_of_at? h none
  rw [← length_entries u q, ← length_entries t none]
  exact hsub.length_le

/-- Every link leads to a slot of the formula, that of the root to its parent. -/
theorem links_mem_slots {e : Entry} (he : e ∈ t.entries q) :
    e.slot ∈ t.slots ∧ (∀ i ∈ e.left, i ∈ t.slots) ∧ (∀ i ∈ e.right, i ∈ t.slots) ∧
      ∀ i ∈ e.parent, i ∈ q ∨ i ∈ t.slots := by
  refine ⟨slot_mem_of_mem_entries he, ?_⟩
  induction t generalizing q with
  | leaf s a =>
      obtain rfl : e = ⟨s, a.label, none, none, q⟩ := by simpa [entries] using he
      exact ⟨by simp, by simp, fun i hi => .inl hi⟩
  | node s c l r ihl ihr =>
      have hpart {u : Formula Nat} (hsub : u.slots ⊆ (node s c l r).slots)
          (hu : (∀ i ∈ e.left, i ∈ u.slots) ∧ (∀ i ∈ e.right, i ∈ u.slots) ∧
            ∀ i ∈ e.parent, i ∈ some s ∨ i ∈ u.slots) :
          (∀ i ∈ e.left, i ∈ (node s c l r).slots) ∧ (∀ i ∈ e.right, i ∈ (node s c l r).slots) ∧
            ∀ i ∈ e.parent, i ∈ q ∨ i ∈ (node s c l r).slots := by
        refine ⟨fun i hi => hsub (hu.1 i hi), fun i hi => hsub (hu.2.1 i hi), fun i hi => ?_⟩
        obtain hs | hmem := hu.2.2 i hi
        · exact .inr (Option.some.inj hs ▸ slot_mem_slots (node s c l r))
        · exact .inr (hsub hmem)
      rw [entries, List.mem_cons, List.mem_append] at he
      obtain rfl | he | he := he
      · exact ⟨by simp [slots, slot_mem_slots], by simp [slots, slot_mem_slots],
          fun i hi => .inl hi⟩
      · exact hpart (fun i hi => by simp [slots, hi]) (ihl he)
      · exact hpart (fun i hi => by simp [slots, hi]) (ihr he)

/-- If a change of a part changes its entries in some way and adds others, then it does so in the
whole formula. -/
theorem entries_modifyAt {i : Nat} {f : Formula Nat → Formula Nat} {g : Entry → Entry}
    {added : List Entry} (hf : ∀ w, w.slot = i → (f w).slot = i) (hnd : t.slots.Nodup)
    (hu : t.at? i = some u) (hpart : ∀ q, (f u).entries q ~ (u.entries q).map g ++ added)
    (hother : ∀ e, e.slot ∉ u.slots → g e = e) (q : Option Nat) :
    (t.modifyAt i f).entries q ~ (t.entries q).map g ++ added := by
  induction t generalizing q with
  | leaf s a =>
      obtain ⟨rfl, rfl⟩ := at?_leaf.mp hu
      rw [show (leaf s a).modifyAt s f = f (leaf s a) from modifyAt_slot f (leaf s a)]
      exact hpart q
  | node s c l r ihl ihr =>
      obtain ⟨rfl, rfl⟩ | ⟨hs, hlr⟩ := at?_node_cases hnd hu
      · rw [show (node s c l r).modifyAt s f = f (node s c l r) from modifyAt_slot f (node s c l r)]
        exact hpart q
      · obtain ⟨⟨hsl, hsr⟩, -, -, hdisjoint⟩ := nodup_slots_node.mp hnd
        obtain ⟨hsu, hperm⟩ : s ∉ u.slots ∧
            (l.modifyAt i f).entries (some s) ++ (r.modifyAt i f).entries (some s) ~
              ((l.entries (some s)).map g ++ (r.entries (some s)).map g) ++ added := by
          obtain ⟨hl, hr⟩ | ⟨hr, hl⟩ := hlr
          · have hsub := slots_subset_of_at? hl
            have hkeep := map_entries_eq_self (t := r) (f := g)
              (fun e he => hother e fun h => hdisjoint (hsub h) he) (some s)
            refine ⟨fun h => hsl (hsub h), ?_⟩
            rw [modifyAt_of_not_mem hr, hkeep, List.append_assoc]
            refine ((ihl (nodup_left hnd) hl (some s)).append_right _).trans ?_
            rw [List.append_assoc]
            exact List.perm_append_comm.append_left _
          · have hsub := slots_subset_of_at? hr
            have hkeep := map_entries_eq_self (t := l) (f := g)
              (fun e he => hother e fun h => hdisjoint he (hsub h)) (some s)
            refine ⟨fun h => hsr (hsub h), ?_⟩
            rw [modifyAt_of_not_mem hl, hkeep, List.append_assoc]
            exact (ihr (nodup_right hnd) hr (some s)).append_left _
        rw [modifyAt, if_neg hs, entries, entries, slot_modifyAt hf, slot_modifyAt hf,
          List.map_cons, List.map_append, hother _ hsu, List.cons_append]
        exact hperm.cons _

theorem entries_modifyAt_of_eq {i : Nat} {f : Formula Nat → Formula Nat} {g : Entry → Entry}
    (hf : ∀ w, (f w).slot = w.slot) (hnd : t.slots.Nodup) (hu : t.at? i = some u)
    (hpart : ∀ q, (f u).entries q = (u.entries q).map g)
    (hother : ∀ e, e.slot ∉ u.slots → g e = e) :
    (t.modifyAt i f).entries none ~ (t.entries none).map g := by
  have hpart' (q : Option Nat) : (f u).entries q ~ (u.entries q).map g ++ [] := by
    rw [hpart, List.append_nil]
  have hperm := entries_modifyAt (fun w hw => (hf w).trans hw) hnd hu hpart' hother none
  rwa [List.append_nil] at hperm

/-! ### Being the table of a formula -/

namespace WellPlaced

variable (h : t.WellPlaced)
include h

theorem numbered : Numbered t.table := by
  rw [Numbered, h.map_slot_table, length_table]

/-- The entries of a formula in the places of their numbers are its table. -/
theorem eq_table {es : List Entry} (hes : Numbered es) (hperm : es ~ t.entries none) :
    es = t.table :=
  (hperm.trans t.table_perm.symm).eq_of_pairwise (fun a b _ _ hab hba => by omega) hes.pairwise
    h.numbered.pairwise

/-- A change of the entries that keeps their numbers is the same change of the table. -/
theorem map_table {t' : Formula Nat} (h' : t'.WellPlaced) {f : Entry → Entry}
    (hf : ∀ e, (f e).slot = e.slot) (hentries : t'.entries none ~ (t.entries none).map f) :
    t.table.map f = t'.table :=
  h'.eq_table (h.numbered.map hf) ((t.table_perm.map f).trans hentries.symm)

/-- If there are fewer slots than can be numbered, then all links are stored as they are. -/
theorem stored_links (hsize : t.size ≤ noSlot) {e : Entry} (he : e ∈ t.table) :
    e.links.stored = e.links := by
  have hstored (i : Nat) (hi : i ∈ t.slots) : link i = some i := by
    have hlt := List.mem_range.mp (h.2.mem_iff.mp hi)
    have hmod : i % (noSlot + 1) = i := Nat.mod_eq_of_lt (by omega)
    rw [link, hmod, if_neg (by omega)]
  obtain ⟨hslot, hleft, hright, hparent⟩ := links_mem_slots (t.table_perm.mem_iff.mp he)
  have hbind {x : Option Nat} (hx : ∀ i ∈ x, i ∈ t.slots) : x.bind link = x := by
    cases x with
    | none => rfl
    | some i => exact hstored i (hx i rfl)
  simp only [Links.stored, Entry.links, Option.bind_some, hstored _ hslot, hbind hleft,
    hbind hright, hbind fun i hi => (hparent i hi).resolve_left (by simp)]

theorem getElem?_table_of_at? {i : Nat} (hu : t.at? i = some u) :
    ∃ q, (u.entries q).Sublist (t.entries none) ∧ t.table[i]? = some (u.rootEntry q) := by
  obtain ⟨q, hsub⟩ := exists_sublist_of_at? hu none
  have hentry := h.getElem?_of_sublist hsub
  rw [(slot_of_at? hu).1] at hentry
  exact ⟨q, hsub, hentry⟩

theorem getElem?_table_of_at?_none {i : Nat} (hi : t.at? i = none) : t.table[i]? = none := by
  rw [List.getElem?_eq_none_iff, length_table, ← Nat.not_lt, ← List.mem_range, ← h.2.mem_iff]
  exact not_mem_of_at? hi

/-! ### Joining -/

/-- An operand that is moved behind other slots and gets a parent. -/
theorem operand_table_perm (offset : Nat) :
    Table.operand offset t.table ~ (t.map (· + offset)).entries (some 0) := by
  refine (t.table_perm.map _).trans (.of_eq ?_)
  rw [entries_eq_cons, entries_eq_cons, List.map_cons, innerEntries_map]
  refine congrArg₂ List.cons ?_ (List.map_congr_left fun e he => ?_)
  · have hself : ((t.rootEntry none).links.shift offset).self = some offset := by
      simp [Entry.links, Links.shift, Links.map, h.1]
    dsimp only
    rw [if_pos hself]
    exact rootEntry_map (· + offset) t none (some 0)
  · have hslot := slot_ne_of_mem_innerEntries h.nodup_slots he
    rw [h.1] at hslot
    simp [Entry.links, Links.shift, Links.map, hslot]

theorem map_slot_operand (offset : Nat) :
    (Table.operand offset t.table).map Entry.slot = (List.range t.size).map (· + offset) := by
  rw [← h.map_slot_table, Table.operand, List.map_map, List.map_map]
  refine List.map_congr_left fun e _ => ?_
  simp only [Function.comp_apply]
  split <;> rfl

theorem join_table {r : Formula Nat} (hr : r.WellPlaced) (c : Connective) :
    Table.join c t.table r.table = (Formula.join c t r).table := by
  refine (h.join hr c).eq_table ?_ ?_
  · have hlength (offset : Nat) (es : List Entry) :
        (Table.operand offset es).length = es.length := List.length_map ..
    rw [Numbered, Table.join, List.map_cons, List.map_append, h.map_slot_operand, length_table,
      hr.map_slot_operand, cons_range_append, List.length_cons, List.length_append, hlength,
      hlength, length_table, length_table]
    congr 1
    omega
  · have hl' : (t.map (· + 1)).slot = 1 := by rw [slot_map, h.1]
    have hr' : (r.map (· + (1 + t.size))).slot = 1 + t.size := by rw [slot_map, hr.1, Nat.zero_add]
    rw [Formula.join, entries, hl', hr', Table.join, length_table]
    exact ((h.operand_table_perm 1).append (hr.operand_table_perm (1 + t.size))).cons _

/-! ### Copying -/

theorem copy_table (i : Nat) : Table.copy i t.table = Sheet.table (t.subformula? i) := by
  cases hu : t.at? i with
  | none =>
      have hturn : (Copying.turn t.table)^[1] ⟨[], [(i, none)]⟩ = ⟨[], []⟩ := by
        simp only [Function.iterate_one, Copying.turn, h.getElem?_table_of_at?_none hu]
      have hpos : 1 ≤ t.table.length := by
        rw [length_table]
        exact t.size_pos
      rw [Table.copy, repeat_eq_of_fixed hturn rfl hpos, subformula?, hu]
      rfl
  | some u =>
      have hsize : u.size ≤ t.table.length := by
        rw [length_table]
        exact size_le_of_at? hu
      rw [Table.copy, repeat_eq_of_fixed (Copying.iterate_turn_part h hu) rfl hsize,
        subformula?_of_at? hu]
      rfl

end WellPlaced

/-! ### Changing letters -/

theorem isVariable_label (a : Leaf) : a.label.isVariable = a.isVariable := by
  cases hk : a.kind <;>
    simp [Leaf.label, Label.isVariable, Leaf.isVariable, LeafKind.toKind, hk]

theorem label_rename (f : Int → Int) (a : Leaf) : (a.rename f).label = a.label.rename f := by
  rw [Label.rename, isVariable_label, Leaf.rename]
  split <;> rfl

theorem label_freeze (a : Leaf) : a.freeze.label = a.label.freeze := by
  rw [Label.freeze, isVariable_label, Leaf.freeze]
  split <;> rfl

theorem entries_mapLeaves {f : Leaf → Leaf} {g : Label → Label}
    (hleaf : ∀ a : Leaf, (f a).label = g a.label)
    (hnode : ∀ c : Connective, g (.function (.binary c)) = .function (.binary c))
    (t : Formula Nat) (p : Option Nat) :
    (t.mapLeaves f).entries p = (t.entries p).map (Entry.relabel g) := by
  induction t generalizing p with
  | leaf s a => simp [mapLeaves, entries, Entry.relabel, hleaf]
  | node s c l r ihl ihr =>
      have hl := slot_of_slots (slots_mapLeaves f l)
      have hr := slot_of_slots (slots_mapLeaves f r)
      rw [mapLeaves, entries, entries, hl, hr, ihl, ihr, List.map_cons, List.map_append,
        Entry.relabel, hnode]

namespace WellPlaced

variable (h : t.WellPlaced)
include h

theorem rename_table (f : Int → Int) : Table.rename f t.table = (t.rename f).table :=
  h.map_table (h.mapLeaves _) (fun _ => rfl)
    (.of_eq (entries_mapLeaves (label_rename f) (fun _ => rfl) t none))

theorem freeze_table : Table.freeze t.table = t.freeze.table :=
  h.map_table (h.mapLeaves _) (fun _ => rfl)
    (.of_eq (entries_mapLeaves label_freeze (fun _ => rfl) t none))

end WellPlaced

end Formula

end Detachment

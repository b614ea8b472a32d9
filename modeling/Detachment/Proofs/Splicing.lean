import Detachment.Proofs.Inversion

/-!
# Replacing a variable in a table

A table is changed leaf by leaf: each leaf with the variable gives its slot to the root of a copy,
whose other slots are appended to the table as it is by then. One such step puts a copy in the place
of one leaf of the formula: `spliceAt`. The steps go through the leaves in the order of their slots,
so when a leaf is reached, the copies that have been appended are those for the leaves in smaller
slots. This is how `Formula.replace` says at once where each copy goes.
-/
namespace Detachment

open scoped List

namespace Formula

variable {x : Nat} {a : Leaf} {t w : Formula Nat}

/-! ### Leaves and their slots -/

theorem at?_of_mem_leaves (hnd : t.slots.Nodup) (h : (x, a) ∈ t.leaves) :
    t.at? x = some (leaf x a) := by
  induction t with
  | leaf s b =>
      obtain ⟨rfl, rfl⟩ : x = s ∧ a = b := by simpa [leaves] using h
      exact at?_slot (leaf x a)
  | node s c l r ihl ihr =>
      obtain h | h := List.mem_append.mp h
      · exact at?_node_of_left hnd (ihl (nodup_left hnd) h)
      · exact at?_node_of_right hnd (ihr (nodup_right hnd) h)

theorem mem_leaves_of_at? (h : t.at? x = some (leaf x a)) : (x, a) ∈ t.leaves := by
  induction t with
  | leaf s b =>
      obtain ⟨rfl, hb⟩ := at?_leaf.mp h
      cases hb
      exact List.mem_singleton_self _
  | node s c l r ihl ihr =>
      rw [at?] at h
      split at h
      · cases h
      · obtain hl | ⟨-, hr⟩ := Option.or_eq_some_iff.mp h
        · exact List.mem_append_left _ (ihl hl)
        · exact List.mem_append_right _ (ihr hr)

theorem mem_slotsOf {v : Int} :
    x ∈ t.slotsOf v ↔ ∃ a, (x, a) ∈ t.leaves ∧ a.varNumber? = some v := by
  simp [slotsOf, List.mem_filterMap, Prod.exists]

theorem leaves_bindLeaves (f : Nat → Leaf → Formula Nat) (t : Formula Nat) :
    (t.bindLeaves f).leaves = t.leaves.flatMap fun p => (f p.1 p.2).leaves := by
  induction t with
  | leaf s a => simp [bindLeaves, leaves]
  | node s c l r ihl ihr => simp [bindLeaves, leaves, ihl, ihr]

theorem bindLeaves_leaf (t : Formula Nat) : t.bindLeaves leaf = t := by
  induction t with
  | leaf s a => rfl
  | node s c l r ihl ihr => rw [bindLeaves, ihl, ihr]

theorem bindLeaves_congr {f g : Nat → Leaf → Formula Nat}
    (h : ∀ s a, (s, a) ∈ t.leaves → f s a = g s a) : t.bindLeaves f = t.bindLeaves g := by
  induction t with
  | leaf s a => exact h s a (List.mem_singleton_self _)
  | node s c l r ihl ihr =>
      rw [bindLeaves, bindLeaves, ihl fun s a hs => h s a (List.mem_append_left _ hs),
        ihr fun s a hs => h s a (List.mem_append_right _ hs)]

/-- One more leaf is changed after others have been. -/
theorem modifyAt_bindLeaves {f : Nat → Leaf → Formula Nat} (g : Formula Nat → Formula Nat)
    (hnd : t.slots.Nodup) (hx : ∀ u, t.at? x = some u → ∃ a, u = leaf x a)
    (hsame : ∀ a, f x a = leaf x a) (hother : ∀ s a, s ≠ x → x ∉ (f s a).slots) :
    (t.bindLeaves f).modifyAt x g =
      t.bindLeaves fun s a => if s = x then g (leaf x a) else f s a := by
  induction t with
  | leaf s a =>
      by_cases hs : s = x
      · subst hs
        rw [bindLeaves, bindLeaves, hsame, if_pos rfl]
        exact modifyAt_slot g (leaf s a)
      · rw [bindLeaves, bindLeaves, if_neg hs, modifyAt_of_not_mem (hother s a hs)]
  | node s c l r ihl ihr =>
      have hs : s ≠ x := by
        rintro rfl
        obtain ⟨a, ha⟩ := hx _ (at?_slot (node s c l r))
        cases ha
      rw [bindLeaves, bindLeaves, modifyAt, if_neg hs,
        ihl (nodup_left hnd) fun u hu => hx u (at?_node_of_left hnd hu),
        ihr (nodup_right hnd) fun u hu => hx u (at?_node_of_right hnd hu)]

/-! ### One leaf -/

/-- The copy of `w` that takes over slot `x` and fills the slots from `base` on. -/
def copyFor (w : Formula Nat) (negated : Bool) (x base : Nat) : Formula Nat :=
  (w.signed negated).map (splice x base)

/-- Put `w` in the place of the leaf in slot `x`, negated if the leaf is negated. -/
def spliceAt (t : Formula Nat) (x : Nat) (w : Formula Nat) : Formula Nat :=
  t.modifyAt x fun u => w.copyFor u.label.isNegated x t.size

/-- The entry in slot `x` gives way to the root of the copy. -/
def graft (x : Nat) (copy : Formula Nat) (e : Entry) : Entry :=
  if e.slot = x then copy.rootEntry e.parent else e

theorem slot_graft {copy : Formula Nat} (h : copy.slot = x) (e : Entry) :
    (graft x copy e).slot = e.slot := by
  unfold graft
  split
  · rename_i he
    rw [slot_rootEntry, h, he]
  · rfl

theorem WellPlaced.signed (h : w.WellPlaced) (b : Bool) : (w.signed b).WellPlaced :=
  h.of_slots (slots_signed b w)

theorem WellPlaced.slot_copyFor (h : w.WellPlaced) (b : Bool) (x base : Nat) :
    (w.copyFor b x base).slot = x := by
  rw [copyFor, slot_map, (h.signed b).1]
  rfl

/-- In the formula, the copy adds the entries below its root. -/
theorem WellPlaced.entries_spliceAt (hw : w.WellPlaced) (hnd : t.slots.Nodup)
    (hx : t.at? x = some (leaf x a)) (q : Option Nat) :
    (t.spliceAt x w).entries q ~
      (t.entries q).map (graft x (w.copyFor a.negated x t.size)) ++
        (w.copyFor a.negated x t.size).innerEntries := by
  refine entries_modifyAt (fun u _ => hw.slot_copyFor ..) hnd hx (fun q => ?_) (fun e he => ?_) q
  · rw [entries_eq_cons]
    refine .of_eq (congrArg₂ List.cons ?_ rfl)
    exact (if_pos rfl).symm
  · exact if_neg fun hs => he (by simp [slots, hs])

/-- The copy that is put in the place of a leaf. -/
theorem WellPlaced.signed_table (h : w.WellPlaced) (b : Bool) :
    (if b then Table.negateAt 0 w.table else w.table) = (w.signed b).table := by
  cases b with
  | false => rfl
  | true =>
      have hroot : w.negateAt 0 = w.negate := by
        rw [← h.1]
        exact modifyAt_slot negate w
      rw [if_pos rfl, h.negateAt_table, hroot]
      rfl

theorem WellPlaced.exists_table_eq_cons (h : t.WellPlaced) :
    ∃ rest, t.table = t.rootEntry none :: rest ∧ rest ~ t.innerEntries ∧
      rest.map Entry.slot = List.range' 1 (t.size - 1) := by
  have hroot := h.getElem?_of_sublist (.refl (t.entries none))
  have hslots := h.map_slot_table
  have hperm := t.table_perm
  rw [h.1] at hroot
  rw [entries_eq_cons] at hperm
  cases htable : t.table with
  | nil => simp [htable] at hroot
  | cons e rest =>
      obtain rfl : e = t.rootEntry none := by simpa [htable] using hroot
      rw [htable] at hperm hslots
      obtain ⟨n, hn⟩ : ∃ n, t.size = n + 1 := ⟨t.size - 1, by have := t.size_pos; omega⟩
      rw [List.map_cons, hn, List.range_eq_range', List.range'_succ, List.cons.injEq] at hslots
      exact ⟨rest, rfl, List.perm_cons _ |>.mp hperm, by rw [hslots.2, hn, Nat.add_sub_cancel]⟩

theorem wellPlaced_of_numbered {es : List Entry} (hroot : t.slot = 0) (hes : Numbered es)
    (hperm : es ~ t.entries none) : t.WellPlaced := by
  refine ⟨hroot, ?_⟩
  have hslots := hperm.map Entry.slot
  rw [map_slot_entries, show es.map Entry.slot = _ from hes, hperm.length_eq,
    length_entries] at hslots
  exact hslots.symm

theorem map_splice_range' (x base n : Nat) :
    (List.range' 1 n).map (splice x base) = List.range' base n := by
  rw [List.range'_eq_map_range, List.range'_eq_map_range, List.map_map]
  refine List.map_congr_left fun i _ => ?_
  simp [splice]

/-- In the table, the copy is appended without its root. -/
theorem WellPlaced.splice_table_eq (h : t.WellPlaced) (hw : w.WellPlaced) {q : Option Nat}
    (hentry : t.table[x]? = some ((leaf x a).rootEntry q)) :
    ∃ rest, rest ~ (w.copyFor a.negated x t.size).innerEntries ∧
      rest.map Entry.slot = List.range' t.size (w.size - 1) ∧
      Table.splice w.table t.table x =
        t.table.map (graft x (w.copyFor a.negated x t.size)) ++ rest := by
  obtain ⟨rest, htable, hperm, hslots⟩ := (hw.signed a.negated).exists_table_eq_cons
  refine ⟨rest.map fun e => e.withLinks (e.links.map (splice x t.size)), ?_, ?_, ?_⟩
  · rw [copyFor, innerEntries_map]
    exact hperm.map _
  · rw [← map_splice_range' x, ← w.size_signed a.negated, ← hslots, List.map_map, List.map_map]
    rfl
  · have hcopy : (if ((leaf x a).rootEntry q).label.isNegated then Table.negateAt 0 w.table
        else w.table) = (w.signed a.negated).rootEntry none :: rest :=
      (hw.signed_table a.negated).trans htable
    have hset := h.numbered.set_eq_map hentry fun e =>
      (w.copyFor a.negated x t.size).rootEntry e.parent
    simp only [Table.splice, hentry, hcopy, rootEntry_map, length_table]
    exact congrArg (· ++ _) hset

/-- A step on the table puts a copy in the place of one leaf. The copy fills the slots after the
last one. -/
theorem WellPlaced.splice_table (h : t.WellPlaced) (hw : w.WellPlaced) (hx : (x, a) ∈ t.leaves) :
    (t.spliceAt x w).WellPlaced ∧ (t.spliceAt x w).size = t.size + (w.size - 1) ∧
      Table.splice w.table t.table x = (t.spliceAt x w).table := by
  have hat : t.at? x = some (leaf x a) := at?_of_mem_leaves h.nodup_slots hx
  obtain ⟨q, -, hentry⟩ := h.getElem?_table_of_at? hat
  obtain ⟨rest, hrest, hslots, htable⟩ := h.splice_table_eq hw hentry
  have hgraft := slot_graft (hw.slot_copyFor a.negated x t.size)
  have hlength : rest.length = w.size - 1 := by
    rw [← rest.length_map Entry.slot, hslots, List.length_range']
  have hnumbered : Numbered (Table.splice w.table t.table x) := by
    have hfirst := h.numbered.map hgraft
    rw [Numbered, List.length_map, length_table] at hfirst
    rw [Numbered, htable, List.map_append, hfirst, hslots, List.length_append, List.length_map,
      length_table, hlength, List.range_eq_range', List.range_eq_range', ← List.range'_append_1,
      Nat.zero_add]
  have hperm : Table.splice w.table t.table x ~ (t.spliceAt x w).entries none := by
    rw [htable]
    exact ((t.table_perm.map _).append hrest).trans
      (hw.entries_spliceAt h.nodup_slots hat none).symm
  have hroot : (t.spliceAt x w).slot = 0 :=
    (slot_modifyAt (fun u _ => hw.slot_copyFor ..) t).trans h.1
  have hplaced := wellPlaced_of_numbered hroot hnumbered hperm
  refine ⟨hplaced, ?_, hplaced.eq_table hnumbered hperm⟩
  rw [← length_entries _ none, ← hperm.length_eq, htable, List.length_append, List.length_map,
    length_table, hlength]

/-! ### One leaf after the other -/

/-- Put `w` in the place of the leaves in the given slots. The copies are appended in the order of
these slots. -/
def spliceAll (t : Formula Nat) (targets : List Nat) (w : Formula Nat) : Formula Nat :=
  t.bindLeaves fun s a =>
    if s ∈ targets then w.copyFor a.negated s (t.size + rank targets s * (w.size - 1))
    else leaf s a

theorem spliceAll_nil (t w : Formula Nat) : t.spliceAll [] w = t := by
  simp only [spliceAll, List.not_mem_nil, if_false]
  exact bindLeaves_leaf t

/-- The copies for smaller slots are in front of the next one, which does not move them. -/
theorem WellPlaced.spliceAt_spliceAll (h : t.WellPlaced) (hw : w.WellPlaced) {targets : List Nat}
    (hx : (x, a) ∈ t.leaves) (hlt : ∀ y ∈ targets, y < x)
    (hsize : (t.spliceAll targets w).size = t.size + targets.length * (w.size - 1)) :
    (t.spliceAll targets w).spliceAt x w = t.spliceAll (targets ++ [x]) w := by
  have hat : t.at? x = some (leaf x a) := at?_of_mem_leaves h.nodup_slots hx
  have hxt : x ∉ targets := fun hmem => Nat.lt_irrefl x (hlt x hmem)
  have hxsize : x < t.size := List.mem_range.mp (h.2.mem_iff.mp (slot_of_at? hat).2)
  rw [spliceAt, hsize, spliceAll, modifyAt_bindLeaves _ h.nodup_slots]
  · refine congrArg (t.bindLeaves ·) (funext fun s => funext fun b => ?_)
    by_cases hs : s = x
    · subst hs
      have hrank : rank (targets ++ [s]) s = targets.length := by
        rw [rank, List.filter_append, List.filter_eq_self.mpr (by simpa using hlt)]
        simp
      rw [if_pos rfl, if_pos (by simp), hrank]
      rfl
    · rw [if_neg hs]
      by_cases hmem : s ∈ targets
      · have hrank : rank (targets ++ [x]) s = rank targets s := by
          have := hlt s hmem
          rw [rank, rank, List.filter_append]
          simp [Nat.le_of_lt this]
        rw [if_pos hmem, if_pos (List.mem_append_left _ hmem), hrank]
      · rw [if_neg hmem, if_neg (by simp [hmem, hs])]
  · intro u hu
    rw [hat] at hu
    exact ⟨a, (Option.some.inj hu).symm⟩
  · exact fun b => if_neg hxt
  · intro s b hs
    split
    · rw [copyFor, (hw.slots_splice ..).mem_iff]
      simp only [List.mem_cons, List.mem_range'_1, not_or]
      exact ⟨Ne.symm hs, by omega⟩
    · simpa [slots] using Ne.symm hs

/-- The steps through leaves in ascending slots. -/
theorem WellPlaced.foldl_splice_table (h : t.WellPlaced) (hw : w.WellPlaced) {targets : List Nat}
    (hleaves : ∀ x ∈ targets, ∃ a, (x, a) ∈ t.leaves) (hsorted : targets.Pairwise (· < ·)) :
    (t.spliceAll targets w).WellPlaced ∧
      (t.spliceAll targets w).size = t.size + targets.length * (w.size - 1) ∧
      targets.foldl (Table.splice w.table) t.table = (t.spliceAll targets w).table := by
  induction targets using List.reverseRecOn with
  | nil =>
      rw [spliceAll_nil]
      exact ⟨h, by simp, rfl⟩
  | append_singleton targets x ih =>
      obtain ⟨hbefore, -, hlt⟩ := List.pairwise_append.mp hsorted
      have hlt : ∀ y ∈ targets, y < x := fun y hy => hlt y hy x (List.mem_singleton_self x)
      obtain ⟨hplaced, hsize, htable⟩ :=
        ih (fun y hy => hleaves y (List.mem_append_left _ hy)) hbefore
      obtain ⟨a, hx⟩ := hleaves x (by simp)
      -- The leaf is still there, since no smaller slot is its own.
      have hstill : (x, a) ∈ (t.spliceAll targets w).leaves := by
        rw [spliceAll, leaves_bindLeaves, List.mem_flatMap]
        refine ⟨(x, a), hx, ?_⟩
        rw [if_neg fun hmem => Nat.lt_irrefl x (hlt x hmem)]
        exact List.mem_singleton_self _
      obtain ⟨hplaced', hsize', htable'⟩ := hplaced.splice_table hw hstill
      rw [h.spliceAt_spliceAll hw hx hlt hsize] at hplaced' hsize' htable'
      refine ⟨hplaced', ?_, ?_⟩
      · rw [hsize', hsize, List.length_append, List.length_singleton, Nat.add_mul, Nat.one_mul,
          Nat.add_assoc]
      · rw [List.foldl_append, List.foldl_cons, List.foldl_nil, htable, htable']

/-! ### All leaves with the variable -/

theorem varNumber?_eq_some_iff {v : Int} :
    a.varNumber? = some v ↔ (a.label.isVariable && a.label.value == v) = true := by
  rw [isVariable_label, Bool.and_eq_true, beq_iff_eq]
  exact Leaf.varNumber?_eq_some

theorem WellPlaced.mem_slotsOf_table (h : t.WellPlaced) {v : Int} {i : Nat} :
    i ∈ Table.slotsOf v t.table ↔ i ∈ t.slotsOf v := by
  rw [Table.slotsOf, List.mem_filter, List.mem_range, mem_slotsOf]
  constructor
  · rintro ⟨hi, hvar⟩
    rw [length_table, ← List.mem_range, ← h.2.mem_iff] at hi
    obtain ⟨u, hu⟩ := exists_at? hi
    obtain ⟨q, -, hentry⟩ := h.getElem?_table_of_at? hu
    rw [hentry, Option.any_some, label_rootEntry] at hvar
    cases u with
    | node s c l r => cases hvar
    | leaf s a =>
        obtain rfl : s = i := (slot_of_at? hu).1
        exact ⟨a, mem_leaves_of_at? hu, varNumber?_eq_some_iff.mpr hvar⟩
  · rintro ⟨a, ha, hv⟩
    have hu := at?_of_mem_leaves h.nodup_slots ha
    obtain ⟨q, -, hentry⟩ := h.getElem?_table_of_at? hu
    refine ⟨(List.getElem?_eq_some_iff.mp hentry).1, ?_⟩
    rw [hentry, Option.any_some, label_rootEntry]
    exact varNumber?_eq_some_iff.mp hv

/-- The slots found in the table are those of the formula, in ascending order. -/
theorem WellPlaced.slotsOf_table_perm (h : t.WellPlaced) (v : Int) :
    Table.slotsOf v t.table ~ t.slotsOf v :=
  (List.perm_ext_iff_of_nodup (List.nodup_range.filter _)
    (h.nodup_slots.sublist (t.slotsOf_sublist v))).mpr fun _ => h.mem_slotsOf_table

theorem WellPlaced.replace_eq_spliceAll (h : t.WellPlaced) (v : Int) (w : Formula Nat) :
    t.replace v w = t.spliceAll (Table.slotsOf v t.table) w := by
  refine bindLeaves_congr fun s a hs => ?_
  have hmem : s ∈ Table.slotsOf v t.table ↔ a.varNumber? = some v := by
    rw [h.mem_slotsOf_table, mem_slotsOf]
    refine ⟨fun ⟨b, hb, hv⟩ => ?_, fun hv => ⟨a, hs, hv⟩⟩
    have hab := at?_of_mem_leaves h.nodup_slots hb
    rw [at?_of_mem_leaves h.nodup_slots hs] at hab
    cases hab
    exact hv
  have hrank : rank (Table.slotsOf v t.table) s = rank (t.slotsOf v) s :=
    ((h.slotsOf_table_perm v).filter _).length_eq
  simp only [hmem, hrank]
  rfl

/-- Replacing a variable in a table, one leaf after the other, is replacing it in the formula. -/
theorem WellPlaced.replace_table (h : t.WellPlaced) (hw : w.WellPlaced) (v : Int) :
    Table.replace v w.table t.table = (t.replace v w).table := by
  have hleaves : ∀ x ∈ Table.slotsOf v t.table, ∃ a, (x, a) ∈ t.leaves := by
    intro x hx
    obtain ⟨a, ha, -⟩ := mem_slotsOf.mp (h.mem_slotsOf_table.mp hx)
    exact ⟨a, ha⟩
  obtain ⟨-, -, htable⟩ := h.foldl_splice_table hw hleaves (List.pairwise_lt_range.filter _)
  rw [Table.replace, htable, h.replace_eq_spliceAll]

end Formula

end Detachment

import Detachment.Proofs.Linking
import Detachment.Proofs.Standardization

/-!
# Negating and standardizing a table

A negation goes through a table with a queue: `Inverting`. It inverts the label of the slot that it
comes to, and the operands that it goes on to join the queue at the back, so that it comes to the
slots level by level. It comes to each of them once. What carries the run is that the slots that are
still to come are those that the waiting parts expose, and that none of them is among the slots that
have been inverted.

A table is standardized by another queue: `Rewriting`. Each of its turns does to the table what a
turn of `Sweep` does to the formula.
-/
namespace Detachment

open scoped List

/-- The entry after a negation has come to the given slots. -/
def Entry.invertIn (slots : List Nat) (e : Entry) : Entry :=
  if e.slot ∈ slots then e.relabel Label.invert else e

namespace Entry

variable {A B : List Nat} {e : Entry}

@[simp] theorem slot_invertIn (A : List Nat) (e : Entry) : (e.invertIn A).slot = e.slot := by
  unfold invertIn
  split <;> rfl

theorem invertIn_of_not_mem (h : e.slot ∉ A) : e.invertIn A = e :=
  if_neg h

theorem invertIn_congr (h : e.slot ∈ A ↔ e.slot ∈ B) : e.invertIn A = e.invertIn B := by
  simp only [invertIn, h]

theorem invertIn_nil : invertIn [] = id :=
  funext fun _ => invertIn_of_not_mem List.not_mem_nil

theorem invertIn_perm (h : A ~ B) : invertIn A = invertIn B :=
  funext fun _ => invertIn_congr h.mem_iff

/-- The negation comes to one more slot. -/
theorem invertIn_cons {i : Nat} (h : i ∉ A) (e : Entry) :
    (if (e.invertIn A).slot = i then (e.invertIn A).relabel Label.invert else e.invertIn A) =
      e.invertIn (i :: A) := by
  rw [slot_invertIn]
  by_cases hi : e.slot = i
  · subst hi
    rw [if_pos rfl, invertIn_of_not_mem h, invertIn, if_pos List.mem_cons_self]
  · rw [if_neg hi]
    exact invertIn_congr (by simp [hi])

end Entry

namespace Formula

variable {i : Nat} {t u : Formula Nat} {q : Option Nat}

/-! ### The slots that a negation comes to -/

/-- The operands that a negation goes on to. -/
def passed {α : Type} : Formula α → List (Formula α)
  | node _ .implication _ r => [r]
  | node _ .conjunction _ r => [r]
  | node _ .disjunction l r => [l, r]
  | _ => []

/-- The slots that a negation comes to. -/
def exposed {α : Type} : Formula α → List α
  | node s .implication _ r => s :: r.exposed
  | node s .conjunction _ r => s :: r.exposed
  | node s .disjunction l r => s :: (l.exposed ++ r.exposed)
  | t => [t.slot]

theorem exposed_eq_cons {α : Type} (t : Formula α) :
    t.exposed = t.slot :: t.passed.flatMap exposed := by
  cases t with
  | leaf s a => rfl
  | node s c l r => cases c <;> simp [exposed, passed, slot]

theorem exposed_sublist {α : Type} (t : Formula α) : t.exposed.Sublist t.slots := by
  induction t with
  | leaf s a => exact .refl _
  | node s c l r ihl ihr =>
      cases c with
      | implication => exact (ihr.trans (List.sublist_append_right ..)).cons_cons s
      | conjunction => exact (ihr.trans (List.sublist_append_right ..)).cons_cons s
      | disjunction => exact (ihl.append ihr).cons_cons s
      | xor => exact (List.nil_sublist _).cons_cons s
      | equivalence => exact (List.nil_sublist _).cons_cons s

/-- The entry of the root tells which operands a negation goes on to. -/
theorem negatedChildren_rootEntry (t : Formula Nat) (q : Option Nat) :
    (if (t.rootEntry q).label.isFunction then (t.rootEntry q).negatedChildren else []) =
      t.passed.map slot := by
  cases t with
  | leaf s a =>
      rw [label_rootEntry, label, isFunction_label]
      rfl
  | node s c l r => cases c <;> rfl

theorem exists_sublist_of_passed {w : Formula Nat} (h : w ∈ u.passed)
    (hsub : (u.entries q).Sublist (t.entries none)) :
    ∃ q, (w.entries q).Sublist (t.entries none) := by
  cases u with
  | leaf s a => cases h
  | node s c l r =>
      have hlr : w = l ∨ w = r := by cases c <;> simp_all [passed]
      obtain rfl | rfl := hlr
      · exact ⟨some s, (entries_left_sublist ..).trans hsub⟩
      · exact ⟨some s, (entries_right_sublist ..).trans hsub⟩

/-! ### The entries of a negated formula -/

theorem label_negate_leaf (a : Leaf) : a.negate.label = a.label.invert := by
  cases hk : a.kind <;>
    simp [Leaf.negate, Leaf.negated, Leaf.label, Label.invert, Label.toggle, Label.isNegated,
      LeafKind.toKind, hk]

/-- A node whose root is inverted and whose operands are changed as the given slots say. -/
theorem entries_node_invertIn (c : Connective) {s : Nat} {l r l' r' : Formula Nat} {A : List Nat}
    (hs : s ∈ A) (hl : l'.entries (some s) = (l.entries (some s)).map (Entry.invertIn A))
    (hr : r'.entries (some s) = (r.entries (some s)).map (Entry.invertIn A))
    (hl' : l'.slot = l.slot) (hr' : r'.slot = r.slot) (q : Option Nat) :
    (node s c.opposite l' r').entries q = ((node s c l r).entries q).map (Entry.invertIn A) := by
  rw [entries, entries, hl, hr, hl', hr', List.map_cons, List.map_append, Entry.invertIn, if_pos hs]
  cases c <;> rfl

theorem map_invertIn_of_disjoint {A : List Nat} (h : ∀ s ∈ t.slots, s ∉ A) (q : Option Nat) :
    (t.entries q).map (Entry.invertIn A) = t.entries q :=
  map_entries_eq_self (fun e he => Entry.invertIn_of_not_mem (h e.slot he)) q

theorem map_invertIn_congr {A B : List Nat} (h : ∀ s ∈ t.slots, s ∈ A ↔ s ∈ B) (q : Option Nat) :
    (t.entries q).map (Entry.invertIn A) = (t.entries q).map (Entry.invertIn B) :=
  List.map_congr_left fun e he => Entry.invertIn_congr (h e.slot (slot_mem_of_mem_entries he))

/-- Negating a formula inverts the labels in the slots that the negation comes to. -/
theorem entries_negate (hnd : t.slots.Nodup) (q : Option Nat) :
    t.negate.entries q = (t.entries q).map (Entry.invertIn t.exposed) := by
  induction t generalizing q with
  | leaf s a =>
      simp [negate, entries, exposed, slot, Entry.invertIn, Entry.relabel, label_negate_leaf]
  | node s c l r ihl ihr =>
      have hl := ihl (nodup_left hnd) (some s)
      have hr := ihr (nodup_right hnd) (some s)
      have hl' : l.negate.slot = l.slot := slot_of_slots l.slots_negate
      have hr' : r.negate.slot = r.slot := slot_of_slots r.slots_negate
      obtain ⟨⟨hsl, hsr⟩, -, -, hdisjoint⟩ := nodup_slots_node.mp hnd
      -- Neither the root nor the other operand has a slot that an operand exposes.
      have hl_s : ∀ x ∈ l.slots, x ≠ s := fun x hx he => hsl (he ▸ hx)
      have hr_s : ∀ x ∈ r.slots, x ≠ s := fun x hx he => hsr (he ▸ hx)
      have hl_r : ∀ x ∈ l.slots, x ∉ r.exposed := fun x hx hmem =>
        hdisjoint hx (r.exposed_sublist.subset hmem)
      have hr_l : ∀ x ∈ r.slots, x ∉ l.exposed := fun x hx hmem =>
        hdisjoint (l.exposed_sublist.subset hmem) hx
      have hl_keep : l.entries (some s) =
          (l.entries (some s)).map (Entry.invertIn (s :: r.exposed)) :=
        (map_invertIn_of_disjoint (fun x hx => by simp [hl_s x hx, hl_r x hx]) _).symm
      have hr_turn : r.negate.entries (some s) =
          (r.entries (some s)).map (Entry.invertIn (s :: r.exposed)) :=
        hr.trans (map_invertIn_congr (fun x hx => by simp [hr_s x hx]) _)
      cases c with
      | implication =>
          exact entries_node_invertIn .implication List.mem_cons_self hl_keep hr_turn rfl hr' q
      | conjunction =>
          exact entries_node_invertIn .conjunction List.mem_cons_self hl_keep hr_turn rfl hr' q
      | disjunction =>
          refine entries_node_invertIn .disjunction List.mem_cons_self (hl.trans ?_) (hr.trans ?_)
            hl' hr' q
          · exact map_invertIn_congr (fun x hx => by simp [hl_s x hx, hl_r x hx]) _
          · exact map_invertIn_congr (fun x hx => by simp [hr_s x hx, hr_l x hx]) _
      | xor =>
          refine entries_node_invertIn .xor List.mem_cons_self ?_ ?_ rfl rfl q
          · exact (map_invertIn_of_disjoint (fun x hx => by simp [hl_s x hx]) _).symm
          · exact (map_invertIn_of_disjoint (fun x hx => by simp [hr_s x hx]) _).symm
      | equivalence =>
          refine entries_node_invertIn .equivalence List.mem_cons_self ?_ ?_ rfl rfl q
          · exact (map_invertIn_of_disjoint (fun x hx => by simp [hl_s x hx]) _).symm
          · exact (map_invertIn_of_disjoint (fun x hx => by simp [hr_s x hx]) _).symm

theorem WellPlaced.map_invertIn_table (h : t.WellPlaced) (hu : t.at? i = some u) :
    t.table.map (Entry.invertIn u.exposed) = (t.negateAt i).table := by
  have hnd : u.slots.Nodup := nodup_of_at? h.nodup_slots hu
  refine h.map_table (h.negateAt i) (Entry.slot_invertIn _) ?_
  refine entries_modifyAt_of_eq (fun w => slot_of_slots w.slots_negate) h.nodup_slots hu
    (entries_negate hnd) fun e he => ?_
  exact Entry.invertIn_of_not_mem fun hmem => he (u.exposed_sublist.subset hmem)

end Formula

/-! ### The negation on its way through the table -/

namespace Inverting

open Formula

/-- Parts of a formula that wait for a negation that has come to some slots already. It comes to
none of its slots twice. -/
structure Waiting (t : Formula Nat) (done : List Nat) (parts : List (Formula Nat)) : Prop where
  stored : ∀ w ∈ parts, ∃ q, (w.entries q).Sublist (t.entries none)
  apart : (done ++ parts.flatMap exposed).Nodup

variable {t u : Formula Nat} {done : List Nat} {parts : List (Formula Nat)}

/-- A turn takes one slot away from those that are still to come. -/
theorem flatMap_exposed_perm (u : Formula Nat) (parts : List (Formula Nat)) :
    (u :: parts).flatMap exposed ~ u.slot :: (parts ++ u.passed).flatMap exposed := by
  rw [List.flatMap_cons, exposed_eq_cons, List.flatMap_append, List.cons_append]
  exact List.perm_append_comm.cons _

theorem append_exposed_perm (u : Formula Nat) (done : List Nat) (parts : List (Formula Nat)) :
    done ++ (u :: parts).flatMap exposed ~
      (u.slot :: done) ++ (parts ++ u.passed).flatMap exposed :=
  ((flatMap_exposed_perm u parts).append_left done).trans List.perm_middle

theorem Waiting.turn (h : Waiting t done (u :: parts)) :
    Waiting t (u.slot :: done) (parts ++ u.passed) := by
  refine ⟨fun w hw => ?_, (append_exposed_perm u done parts).nodup_iff.mp h.apart⟩
  obtain hw | hw := List.mem_append.mp hw
  · exact h.stored w (List.mem_cons_of_mem u hw)
  · obtain ⟨q, hsub⟩ := h.stored u List.mem_cons_self
    exact exists_sublist_of_passed hw hsub

theorem Waiting.turn_eq (h : Waiting t done (u :: parts)) (ht : t.WellPlaced) :
    Inverting.turn ⟨t.table.map (Entry.invertIn done), (u :: parts).map slot⟩ =
      ⟨t.table.map (Entry.invertIn (u.slot :: done)), (parts ++ u.passed).map slot⟩ := by
  have hdone : u.slot ∉ done := by
    have hnd := (append_exposed_perm u done parts).nodup_iff.mp h.apart
    rw [List.cons_append, List.nodup_cons] at hnd
    exact fun hmem => hnd.1 (List.mem_append_left _ hmem)
  obtain ⟨q, hsub⟩ := h.stored u List.mem_cons_self
  have hentry : (t.table.map (Entry.invertIn done))[u.slot]? = some (u.rootEntry q) := by
    rw [List.getElem?_map, ht.getElem?_of_sublist hsub, Option.map_some,
      Entry.invertIn_of_not_mem (by rwa [slot_rootEntry])]
  have hset := (ht.numbered.map (Entry.slot_invertIn done)).set_eq_map hentry
    (Entry.relabel Label.invert)
  rw [List.map_map] at hset
  unfold Inverting.turn
  simp only [List.map_cons, hentry, hset, negatedChildren_rootEntry, ← List.map_append]
  congr 1
  exact List.map_congr_left fun e _ => Entry.invertIn_cons hdone e

/-- There are as many turns as the waiting parts expose slots. -/
theorem Waiting.iterate_turn (h : Waiting t done parts) (ht : t.WellPlaced) :
    Inverting.turn^[(parts.flatMap exposed).length]
        ⟨t.table.map (Entry.invertIn done), parts.map slot⟩ =
      ⟨t.table.map (Entry.invertIn (done ++ parts.flatMap exposed)), []⟩ := by
  induction hn : (parts.flatMap exposed).length generalizing done parts with
  | zero =>
      cases parts with
      | nil => simp
      | cons u parts =>
          have hlength := (flatMap_exposed_perm u parts).length_eq
          rw [hn, List.length_cons] at hlength
          omega
  | succ n ih =>
      cases parts with
      | nil => simp at hn
      | cons u parts =>
          have hlength := (flatMap_exposed_perm u parts).length_eq
          rw [hn, List.length_cons] at hlength
          rw [Function.iterate_succ_apply, h.turn_eq ht, ih h.turn (by omega),
            Entry.invertIn_perm (append_exposed_perm u done parts)]

end Inverting

namespace Formula

variable {i : Nat} {t u : Formula Nat}

/-- Negating a part of a table is negating that part of the formula. -/
theorem WellPlaced.negateAt_table (h : t.WellPlaced) (i : Nat) :
    Table.negateAt i t.table = (t.negateAt i).table := by
  cases hu : t.at? i with
  | none =>
      have hturn : Inverting.turn^[1] ⟨t.table, [i]⟩ = ⟨t.table, []⟩ := by
        simp only [Function.iterate_one, Inverting.turn, h.getElem?_table_of_at?_none hu]
      have hpos : 1 ≤ t.table.length := by
        rw [length_table]
        exact t.size_pos
      rw [Table.negateAt, repeat_eq_of_fixed hturn rfl hpos, Formula.negateAt,
        modifyAt_of_not_mem (not_mem_of_at? hu)]
  | some u =>
      obtain ⟨q, hsub⟩ := exists_sublist_of_at? hu none
      have hnd : u.exposed.Nodup := (nodup_of_at? h.nodup_slots hu).sublist u.exposed_sublist
      have hwaiting : Inverting.Waiting t [] [u] := ⟨by simpa using ⟨q, hsub⟩, by simpa using hnd⟩
      have hrun := hwaiting.iterate_turn h
      have hturns : ([u].flatMap exposed).length ≤ t.table.length := by
        rw [List.flatMap_singleton, length_table]
        exact (u.exposed_sublist.length_le.trans_eq u.length_slots).trans (size_le_of_at? hu)
      rw [Entry.invertIn_nil, List.map_id, List.map_singleton, (slot_of_at? hu).1] at hrun
      rw [Table.negateAt, repeat_eq_of_fixed hrun rfl hturns, List.nil_append,
        List.flatMap_singleton, h.map_invertIn_table hu]

/-! ### Standardizing -/

/-- Write the root as an implication if it is a disjunction, and leave the operands as they are. -/
def implicate : Formula Nat → Formula Nat
  | node s .disjunction l r => node s .implication l r
  | t => t

@[simp] theorem slots_implicate (t : Formula Nat) : t.implicate.slots = t.slots := by
  unfold implicate
  split <;> rfl

theorem children_rootEntry (t : Formula Nat) (q : Option Nat) :
    (t.rootEntry q).children = t.rewriteRoot.operands.map slot := by
  cases t with
  | leaf s a => rfl
  | node s c l r =>
      cases c with
      | disjunction =>
          have hl : l.negate.slot = l.slot := slot_of_slots l.slots_negate
          simp [rootEntry, Entry.children, rewriteRoot, operands, hl]
      | _ => rfl

/-- Only a disjunction is rewritten. -/
theorem rewriteRoot_eq_self (h : ∀ s l r, u ≠ node s .disjunction l r) : u.rewriteRoot = u := by
  unfold rewriteRoot
  split
  · exact absurd rfl (h _ _ _)
  · rfl

section

variable {s : Nat} {l r : Formula Nat}

theorem WellPlaced.set_implication_table (h : t.WellPlaced)
    (hu : t.at? i = some (node s .disjunction l r)) {q : Option Nat}
    (hentry : t.table[i]? = some ((node s .disjunction l r).rootEntry q)) :
    t.table.set i (((node s .disjunction l r).rootEntry q).relabel
        fun x => { x with op := .binary .implication }) =
      (t.modifyAt i implicate).table := by
  obtain rfl : s = i := (slot_of_at? hu).1
  have hnd : (node s .disjunction l r).slots.Nodup := nodup_of_at? h.nodup_slots hu
  rw [h.numbered.set_eq_map hentry]
  refine h.map_table (h.of_slots (slots_modifyAt s slots_implicate t))
    (fun e => by split <;> rfl) ?_
  refine entries_modifyAt_of_eq (fun w => slot_of_slots w.slots_implicate) h.nodup_slots hu
    (fun q => ?_) fun e he => if_neg fun hs => he (by simp [slots, hs])
  rw [entries_eq_cons _ q, entries_eq_cons _ q, List.map_cons]
  refine congrArg₂ List.cons (if_pos rfl).symm ?_
  refine ((List.map_congr_left fun e he => ?_).trans (List.map_id _)).symm
  exact if_neg (slot_ne_of_mem_innerEntries hnd he)

/-- A disjunction is rewritten by making it an implication and negating its left operand in
place. -/
theorem negateAt_implicate (hnd : t.slots.Nodup) (hu : t.at? i = some (node s .disjunction l r)) :
    (t.modifyAt i implicate).negateAt l.slot = t.modifyAt i rewriteRoot := by
  have himp (w : Formula Nat) : w.implicate.slot = w.slot := slot_of_slots w.slots_implicate
  have hnd' : (t.modifyAt i implicate).slots.Nodup := by rwa [slots_modifyAt i slots_implicate]
  have hat : (t.modifyAt i implicate).at? i = some (node s .implication l r) := by
    rw [at?_modifyAt himp, hu]
    rfl
  have hleft : l.slot ∈ (node s .implication l r).slots := by simp [slots, slot_mem_slots]
  have hinner : (node s .implication l r).modifyAt l.slot negate =
      node s .implication l.negate r := by
    obtain ⟨⟨hsl, -⟩, -, -, hdisjoint⟩ := nodup_slots_node.mp (nodup_of_at? hnd' hat)
    have hs : s ≠ l.slot := fun he => hsl (he ▸ l.slot_mem_slots)
    rw [modifyAt, if_neg hs, modifyAt_slot, modifyAt_of_not_mem (hdisjoint l.slot_mem_slots)]
  obtain ⟨C, -, -, hC⟩ := exists_context hnd hu
  rw [negateAt, modifyAt_inside hnd' hat hleft, modifyAt_modifyAt himp, hC, hC]
  exact congrArg C hinner

end

end Formula

namespace Rewriting

open Formula

variable {t : Formula Nat}

/-- What a sweep does to the formula is done to the table. -/
theorem turn_table (h : t.WellPlaced) (queue : List Nat) :
    turn ⟨t.table, queue⟩ =
      ⟨(Sweep.turn ⟨t, queue⟩).formula.table, (Sweep.turn ⟨t, queue⟩).queue⟩ := by
  cases queue with
  | nil => rfl
  | cons i queue =>
      have hat := at?_modifyAt (fun w => slot_of_slots w.slots_rewriteRoot) i t
      simp only [turn, Sweep.turn, hat]
      cases hu : t.at? i with
      | none =>
          simp [h.getElem?_table_of_at?_none hu, modifyAt_of_not_mem (not_mem_of_at? hu)]
      | some u =>
          obtain ⟨q, -, hentry⟩ := h.getElem?_table_of_at? hu
          simp only [hentry, label_rootEntry, children_rootEntry, Option.map_some, Option.elim_some]
          by_cases hdisjunction : ∃ s l r, u = node s .disjunction l r
          · obtain ⟨s, l, r, rfl⟩ := hdisjunction
            have hplaced : (t.modifyAt i implicate).WellPlaced :=
              h.of_slots (slots_modifyAt i slots_implicate t)
            have hlabel : ((node s .disjunction l r).label.isFunction &&
                (node s .disjunction l r).label.op == .binary .disjunction) = true := rfl
            rw [if_pos hlabel, h.set_implication_table hu hentry]
            simp only [rootEntry, Option.elim_some]
            rw [hplaced.negateAt_table, negateAt_implicate h.nodup_slots hu]
          · have hlabel : (u.label.isFunction && u.label.op == .binary .disjunction) = false := by
              cases u with
              | leaf s a => rw [label, isFunction_label, Bool.false_and]
              | node s c l r =>
                  cases c with
                  | disjunction => exact absurd ⟨s, l, r, rfl⟩ hdisjunction
                  | _ => rfl
            obtain ⟨C, -, hCu, hC⟩ := exists_context h.nodup_slots hu
            have hself : t.modifyAt i rewriteRoot = t := by
              rw [hC, rewriteRoot_eq_self fun s l r he => hdisjunction ⟨s, l, r, he⟩, hCu]
            rw [hlabel, hself]
            rfl

theorem iterate_turn_table (h : t.WellPlaced) (queue : List Nat) (n : Nat) :
    turn^[n] ⟨t.table, queue⟩ =
      ⟨(Sweep.turn^[n] ⟨t, queue⟩).formula.table, (Sweep.turn^[n] ⟨t, queue⟩).queue⟩ := by
  induction n generalizing t queue with
  | zero => rfl
  | succ n ih =>
      have hplaced : (Sweep.turn ⟨t, queue⟩).formula.WellPlaced := by
        cases queue with
        | nil => exact h
        | cons i queue => exact h.of_slots (slots_modifyAt i slots_rewriteRoot t)
      rw [Function.iterate_succ_apply, turn_table h, ih hplaced, Function.iterate_succ_apply]

end Rewriting

/-- Standardizing a table is standardizing the formula. -/
theorem Formula.WellPlaced.standardize_table {t : Formula Nat} (h : t.WellPlaced) :
    Table.standardize t.table = t.standardize.table := by
  have hsweep := Sweep.iterate_turn_root h.nodup_slots
  rw [h.1] at hsweep
  rw [Table.standardize, repeat_eq_iterate, length_table, Rewriting.iterate_turn_table h, hsweep]

end Detachment

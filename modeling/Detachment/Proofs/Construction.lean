import Detachment.Proofs.Splicing

/-!
# Tables that can be built

The operations on tables take the links as they are: they move and renumber them, set parents and
follow children without looking whether all of this fits together. It does in every table that is
built by them from single letters, because such a table is the table of a stored formula.

Reading, modus ponens, substitution and unification come down to these operations, so the table of
every formula that can be obtained can also be built.
-/
namespace Detachment

open Formula

/-- The tables that can be built from single letters by the operations on tables. -/
inductive Built : List Entry → Prop
  | blank : Built []
  | letter {a : Leaf} (h : a.Regular) : Built [⟨0, a.label, none, none, none⟩]
  | join (c : Connective) {l r : List Entry} (hl : Built l) (hr : Built r) (hl' : l ≠ [])
      (hr' : r ≠ []) : Built (Table.join c l r)
  | negate (i : Nat) {es : List Entry} (h : Built es) : Built (Table.negateAt i es)
  | rename (f : Int → Int) {es : List Entry} (h : Built es) : Built (Table.rename f es)
  | freeze {es : List Entry} (h : Built es) : Built (Table.freeze es)
  | standardize {es : List Entry} (h : Built es) : Built (Table.standardize es)
  | copy (i : Nat) {es : List Entry} (h : Built es) : Built (Table.copy i es)
  | replace (v : Int) {w es : List Entry} (hw : Built w) (h : Built es) :
      Built (Table.replace v w es)

/-! ### What is built is the table of a formula -/

namespace Table

theorem splice_nil (es : List Entry) (target : Nat) : splice [] es target = es := by
  unfold splice
  split
  · rfl
  · rename_i e _
    cases e.label.isNegated <;> rfl

theorem replace_nil (v : Int) (es : List Entry) : replace v [] es = es := by
  unfold replace
  induction slotsOf v es with
  | nil => rfl
  | cons target targets ih => rwa [List.foldl_cons, splice_nil]

end Table

theorem Formula.table_leaf (s : Nat) (a : Leaf) :
    (leaf s a).table = [⟨s, a.label, none, none, none⟩] :=
  table_of_sorted (List.pairwise_singleton _ _)

theorem Formula.table_ne_nil (t : Formula Nat) : t.table ≠ [] := by
  rw [← List.length_pos_iff, length_table]
  exact t.size_pos

/-- A table that can be built is empty or the table of a well-formed formula. -/
theorem Built.eq_table {es : List Entry} (h : Built es) :
    es = [] ∨ ∃ t : Formula Nat, t.WellFormed ∧ es = t.table := by
  have hP := persistent_wellFormed
  induction h with
  | blank => exact .inl rfl
  | @letter a h => exact .inr ⟨_, hP.place (t := leaf 0 a) h, (table_leaf ..).symm⟩
  | join c _ _ hl' hr' ihl ihr =>
      obtain ⟨l, hl, rfl⟩ := ihl.resolve_left hl'
      obtain ⟨r, hr, rfl⟩ := ihr.resolve_left hr'
      exact .inr ⟨_, hP.join c hl hr, hl.1.join_table hr.1 c⟩
  | negate i _ ih =>
      obtain rfl | ⟨t, ht, rfl⟩ := ih
      · exact .inl rfl
      · exact .inr ⟨_, hP.negateAt i ht, ht.1.negateAt_table i⟩
  | rename f _ ih =>
      obtain rfl | ⟨t, ht, rfl⟩ := ih
      · exact .inl rfl
      · exact .inr ⟨_, hP.rename f ht, ht.1.rename_table f⟩
  | freeze _ ih =>
      obtain rfl | ⟨t, ht, rfl⟩ := ih
      · exact .inl rfl
      · exact .inr ⟨_, hP.freeze ht, ht.1.freeze_table⟩
  | standardize _ ih =>
      obtain rfl | ⟨t, ht, rfl⟩ := ih
      · exact .inl rfl
      · exact .inr ⟨_, hP.standardize ht, ht.1.standardize_table⟩
  | copy i _ ih =>
      obtain rfl | ⟨t, ht, rfl⟩ := ih
      · exact .inl rfl
      · rw [ht.1.copy_table]
        cases hu : t.at? i with
        | none =>
            rw [subformula?, hu]
            exact .inl rfl
        | some u =>
            rw [subformula?_of_at? hu]
            exact .inr ⟨_, hP.part ht hu, rfl⟩
  | replace v _ _ ihw ih =>
      obtain rfl | ⟨w, hw, rfl⟩ := ihw
      · rwa [Table.replace_nil]
      · obtain rfl | ⟨t, ht, rfl⟩ := ih
        · exact .inl rfl
        · exact .inr ⟨_, hP.replace v ht hw, ht.1.replace_table hw.1 v⟩

theorem Built.isTree {es : List Entry} (h : Built es) : IsTree es := by
  obtain rfl | ⟨t, ht, rfl⟩ := h.eq_table
  · exact isTree_nil
  · exact ht.isTree

/-! ### What is obtained can be built -/

/-- The canonical placement is built from the leaves up. -/
theorem Formula.built_place {α : Type} {t : Formula α} (h : t.Within .regular) :
    Built t.place.table := by
  induction t with
  | leaf s a =>
      rw [show (leaf s a).place = leaf 0 a from rfl, table_leaf]
      exact .letter h
  | node s c l r ihl ihr =>
      rw [← join_place c l r s, ← (wellPlaced_place l).join_table (wellPlaced_place r)]
      exact .join c (ihl h.2.1) (ihr h.2.2) (table_ne_nil _) (table_ne_nil _)

/-- A well-formed formula whose table can be built. -/
structure Formula.Buildable (t : Formula Nat) : Prop where
  wellFormed : t.WellFormed
  built : Built t.table

namespace Formula.Buildable

variable {t : Formula Nat} (h : t.Buildable)
include h

theorem negateAt (i : Nat) : (t.negateAt i).Buildable := by
  refine ⟨persistent_wellFormed.negateAt i h.wellFormed, ?_⟩
  rw [← h.wellFormed.1.negateAt_table]
  exact .negate i h.built

theorem part {i : Nat} {u : Formula Nat} (hu : t.at? i = some u) : u.place.Buildable := by
  refine ⟨persistent_wellFormed.part h.wellFormed hu, ?_⟩
  have hcopy := h.wellFormed.1.copy_table i
  rw [subformula?_of_at? hu] at hcopy
  have hbuilt := Built.copy i h.built
  rwa [hcopy] at hbuilt

theorem replace {w : Formula Nat} (hw : w.Buildable) (v : Int) : (t.replace v w).Buildable := by
  refine ⟨persistent_wellFormed.replace v h.wellFormed hw.wellFormed, ?_⟩
  rw [← h.wellFormed.1.replace_table hw.wellFormed.1]
  exact .replace v hw.built h.built

theorem foldl_replace {bs : List (Int × Formula Nat)} (hbs : ∀ b ∈ bs, b.2.Buildable) :
    (bs.foldl (fun t b => t.replace b.1 b.2) t).Buildable := by
  induction bs generalizing t with
  | nil => exact h
  | cons b bs ih =>
      rw [List.forall_mem_cons] at hbs
      exact ih (h.replace hbs.1 b.1) hbs.2

end Formula.Buildable

theorem hereditary_buildable : Hereditary Formula.Buildable where
  var v := by
    have hleaf : Formula.Within .regular (leaf 0 (.var v)) := Fragment.standard.leaf_var v
    exact ⟨persistent_wellFormed.place hleaf, built_place hleaf⟩
  negate {t} h := by
    have hroot : t.negateAt t.slot = t.negate := modifyAt_slot negate t
    exact hroot ▸ h.negateAt t.slot
  parts {i c l r} h := by
    have hnd := h.wellFormed.1.nodup_slots
    exact ⟨h.part (at?_node_of_left hnd (at?_slot l)),
      h.part (at?_node_of_right hnd (at?_slot r))⟩
  apply {s t} hs h := by
    obtain ⟨-, he⟩ | he := s.apply_cases t
    · rwa [he]
    · rw [he]
      refine (h.foldl_replace fun b hb => ?_).part (at?_slot _)
      exact hs b.1 b.2 (Substitution.mem_relevant.mp hb).2

theorem persistent_buildable : Persistent Formula.Buildable where
  toHereditary := hereditary_buildable
  place h := ⟨persistent_wellFormed.place h, built_place h⟩
  join c hl hr := by
    refine ⟨persistent_wellFormed.join c hl.wellFormed hr.wellFormed, ?_⟩
    rw [← hl.wellFormed.1.join_table hr.wellFormed.1]
    exact .join c hl.built hr.built (table_ne_nil _) (table_ne_nil _)
  negateAt i h := h.negateAt i
  rename f h := by
    refine ⟨persistent_wellFormed.rename f h.wellFormed, ?_⟩
    rw [← h.wellFormed.1.rename_table]
    exact .rename f h.built
  standardize h := by
    refine ⟨persistent_wellFormed.standardize h.wellFormed, ?_⟩
    rw [← h.wellFormed.1.standardize_table]
    exact .standardize h.built
  freeze h := by
    refine ⟨persistent_wellFormed.freeze h.wellFormed, ?_⟩
    rw [← h.wellFormed.1.freeze_table]
    exact .freeze h.built
  part h hu := h.part hu
  replace v h hw := h.replace hw v

/-- The operations on tables keep their links in order. Every table that can be built by them
describes a tree or is empty. The table of every formula that can be obtained by reading, by the
operations on formulas, by modus ponens or by unification can be built, so it describes a tree as
well. -/
theorem built_tables_are_trees :
    (∀ es, Built es → IsTree es) ∧ ∀ x : Sheet, Obtained x → Built x.table ∧ IsTree x.table := by
  have hbuilt (x : Sheet) (h : Obtained x) : Built x.table := by
    cases x with
    | none => exact .blank
    | some t => exact (persistent_buildable.of_obtained h rfl).built
  exact ⟨fun es h => h.isTree, fun x h => ⟨hbuilt x h, (hbuilt x h).isTree⟩⟩

/-- `a>(b>a)` with contraposition put in the place of `a`, in the slots 1 and 4, and the second copy
negated after that. The copies are in the slots from 5 and from 11 on. -/
theorem built_tables_are_trees_appended :
    (Table.negateAt 4 (Table.replace 1 Schemas.contraposition.table Schemas.weakening.table))[4]? =
        some ⟨4, .function (.binary .conjunction), some 11, some 14, some 2⟩ ∧
      IsTree (Table.negateAt 4
        (Table.replace 1 Schemas.contraposition.table Schemas.weakening.table)) := by
  have hweakening : Obtained (some Schemas.weakening) := .schema (by simp [Schemas.classical])
  have hcontraposition : Obtained (some Schemas.contraposition) := .schema (by simp)
  refine ⟨?_, built_tables_are_trees.1 _ (.negate 4 (.replace 1 ?_ ?_))⟩
  · have hc : Schemas.contraposition.table = Schemas.contraposition.entries none :=
      (inPreorder_place _).table_eq
    have hw : Schemas.weakening.table = Schemas.weakening.entries none :=
      (inPreorder_place _).table_eq
    rw [hc, hw]
    decide
  · exact (built_tables_are_trees.2 _ hcontraposition).1
  · exact (built_tables_are_trees.2 _ hweakening).1

end Detachment

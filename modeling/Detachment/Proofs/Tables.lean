import Detachment.Proofs.ModusPonens
import Detachment.Proofs.Search
import Detachment.Proofs.Storage
import Detachment.Proofs.Targets

/-!
# The tables of stored formulas

The table of a stored formula lists its slots with their labels and links. Read by itself it
describes a tree: every slot knows its number, the root is in slot 0 and has no parent, the two
children of a connective point back to it, a letter has none, and each slot is reached from the root
along one path. This holds of every well-formed formula, and what can be read or obtained by the
operations on formulas, by modus ponens and by unification is well-formed.
-/
namespace Detachment

/-- Which of the two children to go to. -/
inductive Turn where
  | left
  | right
  deriving DecidableEq, Repr

def Entry.child (e : Entry) : Turn → Option Nat
  | .left => e.left
  | .right => e.right

/-- The slot that the links of a table lead to from slot `i`. -/
def follow (es : List Entry) : (path : List Turn) → (i : Nat) → Option Nat
  | [], i => some i
  | turn :: path, i => (es[i]?.bind (·.child turn)).bind (follow es path)

/-- The slot `j` exists and has `i` as its parent. -/
def IsChild (es : List Entry) (i j : Nat) : Prop :=
  ∃ e, es[j]? = some e ∧ e.parent = some i

/-- What a table satisfies that describes a tree of connectives over signed letters, or nothing. -/
structure IsTree (es : List Entry) : Prop where
  numbered : ∀ (i : Nat) (e : Entry), es[i]? = some e → e.slot = i
  root : ∀ e : Entry, es[0]? = some e → e.parent = none
  connective : ∀ (i : Nat) (e : Entry), es[i]? = some e → e.label.kind = .function →
    e.label.op.isBinary = true ∧ ∃ l r, e.left = some l ∧ e.right = some r ∧ l ≠ r ∧
      IsChild es i l ∧ IsChild es i r
  letter : ∀ (i : Nat) (e : Entry), es[i]? = some e → e.label.kind ≠ .function →
    (e.label.kind = .var ∨ e.label.kind = .const) ∧
      (e.label.op = .nop ∨ e.label.op = .negation) ∧ e.left = none ∧ e.right = none
  reached : ∀ i < es.length, ∃! path, follow es path 0 = some i

theorem isTree_nil : IsTree [] where
  numbered := by simp
  root := by simp
  connective := by simp
  letter := by simp
  reached := by simp

namespace Formula

variable {α : Type}

/-- The part of a formula that a path leads to. -/
def along : List Turn → Formula α → Option (Formula α)
  | [], t => some t
  | .left :: path, node _ _ l _ => l.along path
  | .right :: path, node _ _ _ r => r.along path
  | _ :: _, leaf _ _ => none

/-! ### Paths in a formula -/

theorem slot_mem_slots (t : Formula α) : t.slot ∈ t.slots := by
  cases t <;> simp [slot, slots]

theorem slot_mem_of_along {path : List Turn} {t u : Formula α} (h : t.along path = some u) :
    u.slot ∈ t.slots := by
  induction path generalizing t with
  | nil =>
      obtain rfl := Option.some.inj h
      exact t.slot_mem_slots
  | cons turn path ih =>
      cases t with
      | leaf s a => cases turn <;> cases h
      | node s c l r =>
          rw [slots, List.mem_cons, List.mem_append]
          cases turn with
          | left => exact .inr (.inl (ih h))
          | right => exact .inr (.inr (ih h))

/-- One path leads to each slot, if no two nodes have the same. -/
theorem existsUnique_along {t : Formula α} (hnd : t.slots.Nodup) {i : α} (hi : i ∈ t.slots) :
    ∃! path, (t.along path).map slot = some i := by
  induction t with
  | leaf s a =>
      obtain rfl : i = s := by simpa [slots] using hi
      refine ⟨[], rfl, fun path hpath => ?_⟩
      cases path with
      | nil => rfl
      | cons turn path => cases turn <;> simp [along] at hpath
  | node s c l r ihl ihr =>
      rw [slots, List.nodup_cons, List.nodup_append, List.mem_append, not_or] at hnd
      obtain ⟨⟨hsl, hsr⟩, hl, hr, hlr⟩ := hnd
      -- What a longer path leads to lies in the left or the right part.
      have hmem {path : List Turn} {t : Formula α} (h : (t.along path).map slot = some i) :
          i ∈ t.slots := by
        obtain ⟨u, hu, rfl⟩ := Option.map_eq_some_iff.mp h
        exact slot_mem_of_along hu
      rw [slots, List.mem_cons, List.mem_append] at hi
      obtain rfl | hi | hi := hi
      · refine ⟨[], rfl, fun path hpath => ?_⟩
        cases path with
        | nil => rfl
        | cons turn path =>
            cases turn with
            | left => exact absurd (hmem (t := l) hpath) hsl
            | right => exact absurd (hmem (t := r) hpath) hsr
      · obtain ⟨path, hpath, hunique⟩ := ihl hl hi
        refine ⟨.left :: path, hpath, fun path' hpath' => ?_⟩
        cases path' with
        | nil =>
            obtain rfl : s = i := by simpa [along, slot] using hpath'
            exact absurd hi hsl
        | cons turn path' =>
            cases turn with
            | left => rw [hunique path' hpath']
            | right => exact absurd rfl (hlr i hi i (hmem (t := r) hpath'))
      · obtain ⟨path, hpath, hunique⟩ := ihr hr hi
        refine ⟨.right :: path, hpath, fun path' hpath' => ?_⟩
        cases path' with
        | nil =>
            obtain rfl : s = i := by simpa [along, slot] using hpath'
            exact absurd hi hsr
        | cons turn path' =>
            cases turn with
            | left => exact absurd rfl (hlr i (hmem (t := l) hpath') i hi)
            | right => rw [hunique path' hpath']

/-! ### Entries of parts -/

theorem entries_left_sublist (s : Nat) (c : Connective) (l r : Formula Nat) (q : Option Nat) :
    (l.entries (some s)).Sublist ((node s c l r).entries q) :=
  (List.sublist_append_left ..).cons _

theorem entries_right_sublist (s : Nat) (c : Connective) (l r : Formula Nat) (q : Option Nat) :
    (r.entries (some s)).Sublist ((node s c l r).entries q) :=
  (List.sublist_append_right ..).cons _

theorem slots_sublist {t u : Formula Nat} {p q : Option Nat}
    (hsub : (u.entries q).Sublist (t.entries p)) : u.slots.Sublist t.slots := by
  have hslots := hsub.map Entry.slot
  rwa [map_slot_entries, map_slot_entries] at hslots

/-- Every entry is that of the root of a part. -/
theorem exists_part_of_mem_entries {t : Formula Nat} {parent : Option Nat} {e : Entry}
    (h : e ∈ t.entries parent) :
    ∃ (u : Formula Nat) (q : Option Nat), e = u.rootEntry q ∧
      (u.entries q).Sublist (t.entries parent) ∧ ∀ F, t.Within F → u.Within F := by
  induction t generalizing parent with
  | leaf s a =>
      refine ⟨leaf s a, parent, ?_, .refl _, fun _ h => h⟩
      simpa [entries, rootEntry] using h
  | node s c l r ihl ihr =>
      rw [entries, List.mem_cons, List.mem_append] at h
      obtain rfl | h | h := h
      · exact ⟨node s c l r, parent, rfl, .refl _, fun _ h => h⟩
      · obtain ⟨u, q, he, hsub, hwithin⟩ := ihl h
        exact ⟨u, q, he, hsub.trans (entries_left_sublist ..), fun F hF => hwithin F hF.2.1⟩
      · obtain ⟨u, q, he, hsub, hwithin⟩ := ihr h
        exact ⟨u, q, he, hsub.trans (entries_right_sublist ..), fun F hF => hwithin F hF.2.2⟩

/-- Entries that differ in their slots determine the formula that they belong to. -/
theorem eq_of_entries {es : List Entry} (hnd : (es.map Entry.slot).Nodup) {a b : Formula Nat}
    {p q : Option Nat} (ha : ∀ e ∈ a.entries p, e ∈ es) (hb : ∀ e ∈ b.entries q, e ∈ es)
    (hroot : a.slot = b.slot) : a = b := by
  have hentry {a b : Formula Nat} {p q : Option Nat} (ha : ∀ e ∈ a.entries p, e ∈ es)
      (hb : ∀ e ∈ b.entries q, e ∈ es) (hroot : a.slot = b.slot) :
      a.rootEntry p = b.rootEntry q :=
    List.inj_on_of_nodup_map hnd (ha _ (a.rootEntry_mem p)) (hb _ (b.rootEntry_mem q))
      (by rw [slot_rootEntry, slot_rootEntry, hroot])
  induction a generalizing b p q with
  | leaf s x =>
      have heq := hentry ha hb hroot
      cases b with
      | leaf s' y =>
          obtain ⟨k, op, v⟩ := x
          obtain ⟨k', op', v'⟩ := y
          simp only [rootEntry, Leaf.label, Entry.mk.injEq, Label.mk.injEq] at heq
          obtain ⟨rfl, ⟨hk, rfl, rfl⟩, -⟩ := heq
          rw [kind_eq_of_toKind hk]
      | node s' c l r => simp [rootEntry] at heq
  | node s c l r ihl ihr =>
      have heq := hentry ha hb hroot
      cases b with
      | leaf s' y => simp [rootEntry] at heq
      | node s' c' l' r' =>
          simp only [rootEntry, Label.function, Entry.mk.injEq, Label.mk.injEq,
            Operation.binary.injEq, Option.some.injEq] at heq
          obtain ⟨rfl, ⟨-, rfl, -⟩, hl, hr, -⟩ := heq
          have hleft : l = l' :=
            ihl (fun e he => ha e ((entries_left_sublist s c l r p).subset he))
              (fun e he => hb e ((entries_left_sublist s c l' r' q).subset he)) hl
          have hright : r = r' :=
            ihr (fun e he => ha e ((entries_right_sublist s c l r p).subset he))
              (fun e he => hb e ((entries_right_sublist s c l' r' q).subset he)) hr
          rw [hleft, hright]

namespace WellPlaced

variable {t : Formula Nat} (h : t.WellPlaced)
include h

/-- A well-placed formula can be read off its table. -/
theorem eq_of_table {t' : Formula Nat} (h' : t'.WellPlaced) (heq : t.table = t'.table) :
    t = t' := by
  have hnd : (t.table.map Entry.slot).Nodup := by
    rw [h.map_slot_table]
    exact List.nodup_range
  refine eq_of_entries hnd (p := none) (q := none) (fun e he => ?_) (fun e he => ?_)
    (h.1.trans h'.1.symm)
  · exact t.table_perm.mem_iff.mpr he
  · rw [heq]
    exact t'.table_perm.mem_iff.mpr he

theorem getElem?_table {i : Nat} {e : Entry} :
    t.table[i]? = some e ↔ e ∈ t.entries none ∧ e.slot = i := by
  have hslot {j : Nat} {e : Entry} (hj : t.table[j]? = some e) : e.slot = j := by
    obtain ⟨hlt, rfl⟩ := List.getElem?_eq_some_iff.mp hj
    exact h.slot_getElem_table hlt
  constructor
  · intro hi
    exact ⟨t.table_perm.mem_iff.mp (List.mem_of_getElem? hi), hslot hi⟩
  · rintro ⟨he, rfl⟩
    obtain ⟨j, hj⟩ := List.mem_iff_getElem?.mp (t.table_perm.mem_iff.mpr he)
    rwa [hslot hj]

/-- Slot by slot, two tables are related as the entries of their formulas are. -/
theorem forall₂_table {t' : Formula Nat} (h' : t'.WellPlaced) {R : Entry → Entry → Prop}
    (hlinks : ∀ {e e'}, R e e' → e'.links = e.links)
    (hentries : List.Forall₂ R (t.entries none) (t'.entries none)) :
    List.Forall₂ R t.table t'.table := by
  have hlength : t.table.length = t'.table.length := by
    rw [t.table_perm.length_eq, t'.table_perm.length_eq, hentries.length_eq]
  refine List.forall₂_iff_get.mpr ⟨hlength, fun i hi hi' => ?_⟩
  obtain ⟨hmem, hslot⟩ := h.getElem?_table.mp (List.getElem?_eq_getElem hi)
  obtain ⟨k, hk, hek⟩ := List.mem_iff_getElem.mp hmem
  have hk' : k < (t'.entries none).length := hentries.length_eq ▸ hk
  have hrel : R t.table[i] (t'.entries none)[k] := hek ▸ hentries.get hk hk'
  have hslot' : (t'.entries none)[k].slot = t.table[i].slot := by
    simpa [Entry.links] using congrArg Links.self (hlinks hrel)
  have hentry : t'.table[i]? = some (t'.entries none)[k] :=
    h'.getElem?_table.mpr ⟨List.getElem_mem hk', hslot'.trans hslot⟩
  rw [List.getElem?_eq_getElem hi'] at hentry
  rwa [← Option.some.inj hentry] at hrel

section

variable {u : Formula Nat} {q : Option Nat}

/-- The entry of a part stands in its slot. -/
theorem getElem?_of_sublist (hsub : (u.entries q).Sublist (t.entries none)) :
    t.table[u.slot]? = some (u.rootEntry q) :=
  h.getElem?_table.mpr ⟨hsub.subset (u.rootEntry_mem q), slot_rootEntry u q⟩

theorem isChild_of_sublist {s : Nat} (hsub : (u.entries (some s)).Sublist (t.entries none)) :
    IsChild t.table s u.slot :=
  ⟨u.rootEntry (some s), h.getElem?_of_sublist hsub, parent_rootEntry u (some s)⟩

/-- The links of the table lead where paths in the formula lead. -/
theorem follow_table (hsub : (u.entries q).Sublist (t.entries none)) (path : List Turn) :
    follow t.table path u.slot = (u.along path).map slot := by
  induction path generalizing u q with
  | nil => rfl
  | cons turn path ih =>
      rw [follow, h.getElem?_of_sublist hsub, Option.bind_some]
      cases u with
      | leaf s a => cases turn <;> rfl
      | node s c l r =>
          cases turn with
          | left => exact ih ((entries_left_sublist ..).trans hsub)
          | right => exact ih ((entries_right_sublist ..).trans hsub)

end

/-- The two children of a connective are in different slots. -/
theorem slot_ne_slot {s : Nat} {c : Connective} {l r : Formula Nat} {q : Option Nat}
    (hsub : ((node s c l r).entries q).Sublist (t.entries none)) : l.slot ≠ r.slot := by
  have hnodup := h.nodup_slots.sublist (slots_sublist hsub)
  rw [slots, List.nodup_cons, List.nodup_append] at hnodup
  exact hnodup.2.2.2 _ l.slot_mem_slots _ r.slot_mem_slots

theorem existsUnique_follow {i : Nat} (hi : i < t.table.length) :
    ∃! path, follow t.table path 0 = some i := by
  have hfollow (path : List Turn) : follow t.table path 0 = (t.along path).map slot := by
    have := h.follow_table (.refl (t.entries none)) path
    rwa [h.1] at this
  simp only [hfollow]
  refine existsUnique_along h.nodup_slots (h.2.mem_iff.mpr ?_)
  rwa [List.mem_range, ← length_table]

end WellPlaced

theorem WellFormed.isTree {t : Formula Nat} (h : t.WellFormed) : IsTree t.table := by
  obtain ⟨hplaced, hregular⟩ := h
  constructor
  case numbered => exact fun i e he => (hplaced.getElem?_table.mp he).2
  case root =>
    intro e he
    have hroot := hplaced.getElem?_of_sublist (.refl (t.entries none))
    rw [hplaced.1, he] at hroot
    obtain rfl := Option.some.inj hroot
    cases t <;> rfl
  case connective =>
    intro i e he hkind
    obtain ⟨hmem, rfl⟩ := hplaced.getElem?_table.mp he
    obtain ⟨u, q, rfl, hsub, -⟩ := exists_part_of_mem_entries hmem
    cases u with
    | leaf s a =>
        have := isFunction_label a
        simp_all [rootEntry, Label.isFunction]
    | node s c l r =>
        exact ⟨rfl, l.slot, r.slot, rfl, rfl, hplaced.slot_ne_slot hsub,
          hplaced.isChild_of_sublist ((entries_left_sublist ..).trans hsub),
          hplaced.isChild_of_sublist ((entries_right_sublist ..).trans hsub)⟩
  case letter =>
    intro i e he hkind
    obtain ⟨hmem, rfl⟩ := hplaced.getElem?_table.mp he
    obtain ⟨u, q, rfl, -, hwithin⟩ := exists_part_of_mem_entries hmem
    cases u with
    | node s c l r => exact absurd rfl hkind
    | leaf s a =>
        obtain ⟨hknown, hop⟩ := hwithin _ hregular
        refine ⟨?_, hop, rfl, rfl⟩
        cases hk : a.kind with
        | unknown => exact absurd hk hknown
        | const => exact .inr (by simp [rootEntry, Leaf.label, LeafKind.toKind, hk])
        | var => exact .inl (by simp [rootEntry, Leaf.label, LeafKind.toKind, hk])
  case reached => exact fun i hi => hplaced.existsUnique_follow hi

theorem Within.modifyAt {F : Fragment} {f : Formula Nat → Formula Nat}
    (hf : ∀ u, u.Within F → (f u).Within F) {t : Formula Nat} (h : t.Within F) (i : Nat) :
    (t.modifyAt i f).Within F := by
  induction t with
  | leaf s a =>
      rw [Formula.modifyAt]
      split
      · exact hf _ h
      · exact h
  | node s c l r ihl ihr =>
      rw [Formula.modifyAt]
      split
      · exact hf _ h
      · exact ⟨h.1, ihl h.2.1, ihr h.2.2⟩

theorem Within.at? {F : Fragment} {i : Nat} {t u : Formula Nat} (h : t.Within F)
    (hu : t.at? i = some u) : u.Within F := by
  induction t with
  | leaf s a =>
      rw [Formula.at?] at hu
      split at hu
      · exact Option.some.inj hu ▸ h
      · cases hu
  | node s c l r ihl ihr =>
      rw [Formula.at?] at hu
      split at hu
      · exact Option.some.inj hu ▸ h
      · obtain hl | ⟨-, hr⟩ := Option.or_eq_some_iff.mp hu
        · exact ihl h.2.1 hl
        · exact ihr h.2.2 hr

end Formula

/-! ### What can be obtained -/

open Formula in
/-- The sheets that can be obtained: blank ones, formulas read from a text, the schemas and single
letters, and whatever the operations on formulas make of them. -/
inductive Obtained : Sheet → Prop
  | blank : Obtained none
  | read {src : String} {t : Formula Nat} (h : parse src = .ok t) : Obtained (some t)
  | schema {t : Formula Nat} (h : t ∈ Schemas.contraposition :: Schemas.classical) :
      Obtained (some t)
  | letter {a : Leaf} (h : a.Regular) : Obtained (some (leaf 0 a))
  | join (c : Connective) {l r : Formula Nat} (hl : Obtained (some l)) (hr : Obtained (some r)) :
      Obtained (some (Formula.join c l r))
  | negate (i : Nat) {x : Sheet} (hx : Obtained x) : Obtained (x.map (negateAt i))
  | normalize {x : Sheet} (hx : Obtained x) : Obtained x.normalize
  | standardize {x : Sheet} (hx : Obtained x) : Obtained (x.map Formula.standardize)
  | freeze {x : Sheet} (hx : Obtained x) : Obtained (x.map Formula.freeze)
  | shift (fit : Int → Int) (bound : Int) {x : Sheet} (hx : Obtained x) :
      Obtained (x.shiftVariablesBy fit bound)
  | part (i : Nat) {x : Sheet} (hx : Obtained x) : Obtained (x.bind (subformula? i))
  | replace (v : Int) {t w : Formula Nat} (ht : Obtained (some t)) (hw : Obtained (some w)) :
      Obtained (some (t.replace v w))
  | substitute {s : Substitution} {x : Sheet}
      (hs : ∀ v y, s.lookup v = some y → Obtained y) (hx : Obtained x) : Obtained (x.map s.apply)
  | detach (fit : Int → Int) {minor major : Sheet} (hminor : Obtained minor)
      (hmajor : Obtained major) : Obtained (minor.detachBy fit major)
  | unifier {fit : Int → Int} {x y z : Sheet} {floor v : Int} {s : Substitution} (hx : Obtained x)
      (hy : Obtained y) (h : x.unifyBy fit floor y = .ok s) (hz : s.lookup v = some z) : Obtained z

theorem Obtained.var (v : Int) : Obtained (some (.leaf 0 (.var v))) :=
  .letter (Fragment.standard.leaf_var v)

theorem Obtained.const (v : Int) : Obtained (some (.leaf 0 (.const v))) :=
  .letter ⟨by simp [Leaf.const], .inl rfl⟩

/-- A property that passes on along every way to obtain formulas. -/
structure Persistent (P : Formula Nat → Prop) : Prop extends Hereditary P where
  place : ∀ {t : Formula Nat}, t.Within .regular → P t.place
  join : ∀ {l r} (c), P l → P r → P (Formula.join c l r)
  negateAt : ∀ {t : Formula Nat} (i), P t → P (t.negateAt i)
  rename : ∀ {t : Formula Nat} (f), P t → P (t.rename f)
  standardize : ∀ {t : Formula Nat}, P t → P t.standardize
  freeze : ∀ {t : Formula Nat}, P t → P t.freeze
  part : ∀ {i} {t u : Formula Nat}, P t → t.at? i = some u → P u.place
  replace : ∀ {t w : Formula Nat} (v), P t → P w → P (t.replace v w)

namespace Persistent

variable {P : Formula Nat → Prop} (hP : Persistent P)
include hP

/-- What is persistent holds of every formula that can be obtained. -/
theorem of_obtained {x : Sheet} (h : Obtained x) {f : Formula Nat} (hf : x = some f) : P f := by
  induction h generalizing f with
  | blank => cases hf
  | read h =>
      cases hf
      have hwithin := (within_parse h).2.mono Fragment.schematic_le
      obtain ⟨-, -, g, -, -, -, rfl⟩ := parse_eq_ok.mp h
      rw [← Formula.place_place g]
      exact hP.place hwithin
  | schema h =>
      cases hf
      rw [← Schemas.place_of_mem h]
      exact hP.place ((Schemas.within_of_mem h).2.mono Fragment.schematic_le)
  | @letter a h =>
      cases hf
      exact hP.place (t := .leaf 0 a) h
  | join c hl hr ihl ihr =>
      cases hf
      exact hP.join c (ihl rfl) (ihr rfl)
  | negate i hx ih =>
      obtain ⟨t, rfl, rfl⟩ := Option.map_eq_some_iff.mp hf
      exact hP.negateAt i (ih rfl)
  | normalize hx ih =>
      obtain ⟨t, rfl, rfl⟩ := Option.map_eq_some_iff.mp hf
      exact hP.rename _ (ih rfl)
  | standardize hx ih =>
      obtain ⟨t, rfl, rfl⟩ := Option.map_eq_some_iff.mp hf
      exact hP.standardize (ih rfl)
  | freeze hx ih =>
      obtain ⟨t, rfl, rfl⟩ := Option.map_eq_some_iff.mp hf
      exact hP.freeze (ih rfl)
  | shift fit bound hx ih =>
      obtain ⟨t, rfl, rfl⟩ := Option.map_eq_some_iff.mp hf
      exact Formula.shiftVariablesBy_preserves (fun f => hP.rename f (ih rfl)) (ih rfl) fit bound
  | part i hx ih =>
      obtain ⟨t, rfl, hpart⟩ := Option.bind_eq_some_iff.mp hf
      obtain ⟨u, hu, rfl⟩ := Option.map_eq_some_iff.mp hpart
      exact hP.part (ih rfl) hu
  | replace v ht hw iht ihw =>
      cases hf
      exact hP.replace v (iht rfl) (ihw rfl)
  | substitute hs hx ihs ih =>
      obtain ⟨t, rfl, rfl⟩ := Option.map_eq_some_iff.mp hf
      refine hP.apply (fun v w hw => ?_) (ih rfl)
      exact ihs v (some w) (Substitution.value?_eq_some.mp hw) rfl
  | detach fit hminor hmajor ihm ihM =>
      obtain ⟨m, M, rfl, rfl, hdetach⟩ := Sheet.detachBy_eq_some_iff.mp hf
      exact hP.detachBy hP.rename (ihm rfl) (ihM rfl) hdetach
  | @unifier fit x y z floor v s hx hy h hz ihx ihy =>
      subst hf
      cases x with
      | none => cases h
      | some l =>
          cases y with
          | none => cases h
          | some r =>
              exact hP.unifyBy (ihx rfl) (ihy rfl) h v f (Substitution.mem_of_lookup hz)

end Persistent

theorem hereditary_wellFormed : Hereditary Formula.WellFormed :=
  hereditary_wellPlaced.and (hereditary_within .regular)

theorem persistent_wellFormed : Persistent Formula.WellFormed where
  toHereditary := hereditary_wellFormed
  place h := ⟨Formula.wellPlaced_place _, (Formula.within_place _).mpr h⟩
  join c hl hr :=
    ⟨hl.1.join hr.1 c, trivial, (Formula.within_map _ _).mpr hl.2,
      (Formula.within_map _ _).mpr hr.2⟩
  negateAt i h := ⟨h.1.negateAt i, h.2.modifyAt (fun _ h => h.negate) i⟩
  rename f h := ⟨h.1.mapLeaves _, h.2.rename f⟩
  standardize h :=
    ⟨h.1.of_slots (Formula.slots_standardizeSigned false _),
      h.2.standardizeSigned (fun _ => trivial) false⟩
  freeze h := ⟨h.1.mapLeaves _, h.2.freeze.1⟩
  part h hu := ⟨Formula.wellPlaced_place _, (Formula.within_place _).mpr (h.2.at? hu)⟩
  replace v h hw := ⟨h.1.replace hw.1 v, h.2.replace hw.2 v⟩

theorem Obtained.wellFormed {x : Sheet} (h : Obtained x) {f : Formula Nat} (hf : x = some f) :
    f.WellFormed :=
  persistent_wellFormed.of_obtained h hf

end Detachment

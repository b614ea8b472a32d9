import Detachment.Proofs.Lockstep
import Detachment.Proofs.Normalization
import Mathlib.Data.Set.Function

/-!
# Variants of the premises

Modus ponens does not depend on the names of the variables in its premises, nor on the slots in
which they are stored. If each premise is replaced by a variant of it, with its variables renamed
one to one and its nodes placed in any other way, the conclusion is the same, slot by slot.

The two runs of unification go in lockstep. The variables that correspond to each other in them come
in three layers, each above the one before: those of the minor premise, those of the major premise
after they have been moved beyond these, and the fresh ones.
-/
namespace Detachment

/-! ### One-to-one correspondences -/

section correspondences

open Relator

theorem biUnique_iff {N : Int → Int → Prop} :
    BiUnique N ↔ ∀ u v u' v', N u v → N u' v' → (u = u' ↔ v = v') := by
  constructor
  · intro h u v u' v' huv huv'
    exact rel_eq h huv huv'
  · intro h
    constructor
    · intro u u' v huv huv'
      exact (h _ _ _ _ huv huv').mpr rfl
    · intro u v v' huv huv'
      exact (h _ _ _ _ huv huv').mp rfl

theorem biUnique_pairs {us : List Int} {p q : Int → Int}
    (h : ∀ u ∈ us, ∀ v ∈ us, (p u = p v ↔ q u = q v)) :
    BiUnique fun u v => ∃ w ∈ us, p w = u ∧ q w = v := by
  rw [biUnique_iff]
  rintro _ _ _ _ ⟨u, hu, rfl, rfl⟩ ⟨v, hv, rfl, rfl⟩
  exact h u hu v hv

/-- Two layers, of which the second lies above the first on both sides. -/
theorem biUnique_or {N N' : Int → Int → Prop} (h : BiUnique N) (h' : BiUnique N')
    (hlt : ∀ u v u' v', N u v → N' u' v' → u < u' ∧ v < v') :
    BiUnique fun u v => N u v ∨ N' u v := by
  rw [biUnique_iff] at h h' ⊢
  rintro u v u' v' (huv | huv) (huv' | huv')
  · exact h _ _ _ _ huv huv'
  · have := hlt _ _ _ _ huv huv'
    constructor <;> intro <;> omega
  · have := hlt _ _ _ _ huv' huv
    constructor <;> intro <;> omega
  · exact h' _ _ _ _ huv huv'

theorem exists_eq_of_rightUnique {N : Int → Int → Prop} (h : RightUnique N) :
    ∃ f : Int → Int, ∀ u v, N u v → f u = v := by
  have hchoice (u : Int) : ∃ w, ∀ v, N u v → w = v := by
    by_cases hu : ∃ w, N u w
    · obtain ⟨w, hw⟩ := hu
      exact ⟨w, fun v hv => h hw hv⟩
    · exact ⟨u, fun v hv => absurd ⟨v, hv⟩ hu⟩
  choose f hf using hchoice
  exact ⟨f, hf⟩

end correspondences

/-- The same leaf, or two variables with the same sign and corresponding numbers. -/
inductive Leaf.Renumbered (N : Int → Int → Prop) : Leaf → Leaf → Prop where
  | fixed {a : Leaf} (ha : a.kind ≠ .var) : Renumbered N a a
  | var (op : Operation) {u v : Int} (h : N u v) : Renumbered N ⟨.var, op, u⟩ ⟨.var, op, v⟩

/-- Leaves that differ in the numbers of their variables only. -/
def Likeness.renumbering {N : Int → Int → Prop} (hN : Relator.BiUnique N) : Likeness where
  number := N
  leaf := Leaf.Renumbered N
  number_unique := hN
  leaf_var h := .var .nop h
  leaf_negate h := by
    cases h with
    | fixed ha =>
        refine .fixed fun hk => ha ?_
        have hvar := Leaf.isVariable_of_kind hk
        rw [Leaf.isVariable_negate] at hvar
        simpa [Leaf.isVariable] using hvar
    | var op h => exact .var _ h
  leaf_unique h h' _ := by
    cases h with
    | fixed ha =>
        cases h' with
        | fixed => rfl
        | var => exact absurd rfl ha
    | var op h =>
        cases h' with
        | fixed ha => exact absurd rfl ha
        | var _ h' => rw [hN.2 h h']
  kind_eq h := by cases h <;> rfl
  negated_eq h _ := by cases h <;> rfl
  number_value h ha := by
    cases h with
    | fixed hne => exact absurd ha hne
    | var op h => exact h

namespace Formula

variable {α β : Type} {N : Int → Int → Prop} {hN : Relator.BiUnique N}

theorem alike_rename {f g : Int → Int} {t : Formula α} (h : ∀ v ∈ t.vars, N (f v) (g v)) :
    (t.rename f).Alike (.renumbering hN) (t.rename g) := by
  induction t with
  | leaf s a =>
      refine .leaf s s ?_
      obtain ⟨k, op, v⟩ := a
      cases k with
      | var => exact .var op (h v (by simp [Leaf.varNumber?, Leaf.isVariable]))
      | _ => exact .fixed (by simp [Leaf.rename, Leaf.isVariable])
  | node s c l r ihl ihr =>
      exact .node s s c (ihl fun v hv => h v (by simp [hv])) (ihr fun v hv => h v (by simp [hv]))

/-- Formulas that differ in the numbers of their variables only have the same normal form. -/
theorem Alike.shape_normalize {t : Formula α} {t' : Formula β}
    (h : t.Alike (.renumbering hN) t') : t.normalize.shape = t'.normalize.shape := by
  obtain ⟨f, hf⟩ := exists_eq_of_rightUnique hN.2
  have hshape : t'.shape = t.shape.rename f := by
    induction h with
    | leaf i j h =>
        refine congrArg (Formula.leaf ()) ?_
        cases h with
        | fixed ha => simp [Leaf.rename, Leaf.isVariable, ha]
        | var op h => simp [Leaf.rename, Leaf.isVariable, hf _ _ h]
    | node i j c _ _ ihl ihr => exact congrArg₂ (Formula.node () c) ihl ihr
  have hvars : ∀ u ∈ t.vars, N u (f u) := by
    have hall := h.vars
    rw [← t'.vars_shape, hshape, vars_rename, vars_shape] at hall
    exact List.forall₂_same.mp (List.forall₂_map_right_iff.mp hall)
  rw [Formula.shape_normalize, Formula.shape_normalize, hshape, normalize_rename]
  intro u hu v hv heq
  rw [vars_shape] at hu hv
  exact hN.1 (hvars u hu) (heq ▸ hvars v hv)

/-- The second formula is the first with its variables renamed one to one, stored in any way. -/
structure Variant (f : Int → Int) (t t' : Formula Nat) : Prop where
  shape_eq : t'.shape = (t.rename f).shape
  injective : ∀ u ∈ t.vars, ∀ v ∈ t.vars, f u = f v → u = v

variable {f g : Int → Int} {t t' : Formula Nat}

theorem vars_of_shape (h : t'.shape = (t.rename f).shape) : t'.vars = t.vars.map f := by
  rw [← vars_shape, h, vars_shape, vars_rename]

theorem Variant.exists_symm (h : t.Variant f t') : ∃ g, t'.Variant g t := by
  let g := Function.invFunOn f {v | v ∈ t.vars}
  have hback : ∀ v ∈ t.vars, g (f v) = v := fun v hv =>
    Set.InjOn.leftInvOn_invFunOn (fun u hu v hv heq => h.injective u hu v hv heq) hv
  refine ⟨g, ?_, ?_⟩
  · rw [shape_rename, h.shape_eq, shape_rename, rename_rename,
      rename_congr (g := fun v => v) fun v hv => hback v (by simpa using hv), rename_id]
  · rw [vars_of_shape h.shape_eq]
    simp only [List.mem_map]
    rintro _ ⟨u, hu, rfl⟩ _ ⟨v, hv, rfl⟩ heq
    rw [hback u hu, hback v hv] at heq
    rw [heq]

theorem alike_of_shape (h : t'.shape = (t.rename f).shape) {p q : Int → Int}
    (hpq : ∀ v ∈ t.vars, N (p v) (q (f v))) :
    (t.rename p).Alike (.renumbering hN) (t'.rename q) := by
  have hshape : (t'.rename q).shape = (t.rename fun v => q (f v)).shape := by
    rw [shape_rename, h, shape_rename, rename_rename, shape_rename]
  rw [← alike_shape, hshape, alike_shape]
  exact alike_rename hpq

theorem exists_node_of_shape {i : Nat} {c : Connective} {l r : Formula Nat}
    (h : t'.shape = ((node i c l r).rename f).shape) :
    ∃ j l' r', t' = node j c l' r' ∧ l'.shape = (l.rename f).shape ∧
      r'.shape = (r.rename f).shape := by
  cases t' with
  | leaf j b => cases h
  | node j c' l' r' =>
      obtain ⟨-, rfl, hl, hr⟩ := node.inj h
      exact ⟨j, l', r', rfl, hl, hr⟩

end Formula

/-! ### The conclusions of variants -/

open Unification

/-- The variables that correspond to each other if `f` renames those of `us`, and if `g` renames
those of `ws`, which are then moved up by `k` and `k'`. The fresh ones are counted from `x` and
`x'`. -/
def Layered (us ws : List Int) (f g : Int → Int) (k k' x x' u v : Int) : Prop :=
  ((∃ w ∈ us, w = u ∧ f w = v) ∨ ∃ w ∈ ws, w + k = u ∧ g w + k' = v) ∨
    ∃ n : Nat, x + n = u ∧ x' + n = v

theorem biUnique_layered {us ws : List Int} {f g : Int → Int} {k k' x x' : Int}
    (hf : ∀ u ∈ us, ∀ v ∈ us, f u = f v → u = v) (hg : ∀ u ∈ ws, ∀ v ∈ ws, g u = g v → u = v)
    (hmoved : ∀ u ∈ us, ∀ w ∈ ws, u < w + k ∧ f u < g w + k')
    (hus : ∀ u ∈ us, u < x ∧ f u < x') (hws : ∀ w ∈ ws, w + k < x ∧ g w + k' < x') :
    Relator.BiUnique (Layered us ws f g k k' x x') := by
  refine biUnique_or (biUnique_or (biUnique_pairs ?_) (biUnique_pairs ?_) ?_)
    (biUnique_iff.mpr ?_) ?_
  · intro u hu v hv
    exact ⟨fun h => h ▸ rfl, hf u hu v hv⟩
  · intro u hu v hv
    have hiff : g u = g v ↔ u = v := ⟨hg u hu v hv, fun h => h ▸ rfl⟩
    rw [Int.add_left_inj, Int.add_left_inj, hiff]
  · rintro _ _ _ _ ⟨u, hu, rfl, rfl⟩ ⟨w, hw, rfl, rfl⟩
    exact hmoved u hu w hw
  · rintro _ _ _ _ ⟨m, rfl, rfl⟩ ⟨n, rfl, rfl⟩
    omega
  · rintro _ _ _ _ (⟨u, hu, rfl, rfl⟩ | ⟨w, hw, rfl, rfl⟩) ⟨n, rfl, rfl⟩
    · have := hus u hu
      omega
    · have := hws w hw
      omega

theorem lt_fresh {minor a c : Formula Nat} {i : Nat} {v : Int}
    (h : v ∈ minor.vars ∨ v ∈ (Formula.node i .implication a c).vars) :
    v < (State.initial ((Formula.node i .implication a c).maxVariable + 1) minor
      a.place).fresh := by
  obtain h | h := h
  · exact (State.contained_initial _ minor a.place).fresh v (by simp [h])
  · have hle := Formula.le_maxVariable h
    have hfloor : (Formula.node i .implication a c).maxVariable + 1 ≤
        (State.initial ((Formula.node i .implication a c).maxVariable + 1) minor a.place).fresh :=
      le_max_left ..
    omega

variable {f g : Int → Int} {minor minor' major major' r : Formula Nat}

theorem biUnique_of_variant {k k' x x' : Int} (hminor : minor.Variant f minor')
    (hmajor : major.Variant g major') (hbound : ∀ v ∈ major.vars, minor.maxVariable + 1 ≤ v + k)
    (hbound' : ∀ v ∈ major'.vars, minor'.maxVariable + 1 ≤ v + k')
    (hx : ∀ v, v ∈ minor.vars ∨ v ∈ (major.rename (· + k)).vars → v < x)
    (hx' : ∀ v, v ∈ minor'.vars ∨ v ∈ (major'.rename (· + k')).vars → v < x') :
    Relator.BiUnique (Layered minor.vars major.vars f g k k' x x') := by
  have hf {u : Int} (hu : u ∈ minor.vars) : f u ∈ minor'.vars := by
    rw [Formula.vars_of_shape hminor.shape_eq]
    exact List.mem_map_of_mem hu
  have hg {w : Int} (hw : w ∈ major.vars) : g w ∈ major'.vars := by
    rw [Formula.vars_of_shape hmajor.shape_eq]
    exact List.mem_map_of_mem hw
  refine biUnique_layered hminor.injective hmajor.injective ?_ ?_ ?_
  · intro u hu w hw
    have := Formula.le_maxVariable hu
    have := Formula.le_maxVariable (hf hu)
    have := hbound w hw
    have := hbound' _ (hg hw)
    omega
  · intro u hu
    exact ⟨hx u (.inl hu), hx' (f u) (.inl (hf hu))⟩
  · intro w hw
    exact ⟨hx (w + k) (.inr (Formula.mem_vars_rename.mpr ⟨w, hw, rfl⟩)),
      hx' (g w + k') (.inr (Formula.mem_vars_rename.mpr ⟨g w, hg hw, rfl⟩))⟩

/-- A conclusion is also that of any variants of the premises. -/
theorem detach_of_variant (hminor : minor.Variant f minor') (hmajor : major.Variant g major')
    (h : detach minor major = some r) : detach minor' major' = some r := by
  obtain ⟨k, hk, hbound⟩ := major.exists_shift (minor.maxVariable + 1)
  obtain ⟨k', hk', hbound'⟩ := major'.exists_shift (minor'.maxVariable + 1)
  obtain ⟨i, a, c, -, hshift, -⟩ := detach_eq_some_iff.mp h
  rw [hk] at hshift
  cases major with
  | leaf j b => cases hshift
  | node j con a c =>
      cases hshift
      obtain ⟨j', a', c', rfl, ha, hc⟩ := Formula.exists_node_of_shape hmajor.shape_eq
      have hN := biUnique_of_variant hminor hmajor hbound hbound' (fun _ => lt_fresh)
        fun _ => lt_fresh
      have halike : minor.Alike (.renumbering hN) minor' := by
        have hself : (minor.rename fun v => v).Alike (.renumbering hN) (minor'.rename fun v => v) :=
          Formula.alike_of_shape hminor.shape_eq fun v hv => .inl (.inl ⟨v, hv, rfl, rfl⟩)
        rwa [Formula.rename_id, Formula.rename_id] at hself
      obtain ⟨t, t', htt', rfl, ht'⟩ := exists_detach_of_alike (L := .renumbering hN) hk hk' halike
        (Formula.alike_of_shape ha fun v hv => .inl (.inr ⟨v, by simp [hv], rfl, rfl⟩))
        (Formula.alike_of_shape hc fun v hv => .inl (.inr ⟨v, by simp [hv], rfl, rfl⟩))
        (fun n => .inr ⟨n, rfl, rfl⟩) h
      -- Both conclusions are canonically placed, so their shapes decide.
      have hplace := Formula.place_congr htt'.shape_normalize
      rw [place_detachBy h, place_detachBy ht'] at hplace
      rw [ht', hplace]

/-- Neither can one of the two conclusions be missing, as being a variant is mutual. -/
theorem detach_variant (hminor : minor.Variant f minor') (hmajor : major.Variant g major') :
    detach minor' major' = detach minor major := by
  cases h : detach minor major with
  | some r => exact detach_of_variant hminor hmajor h
  | none =>
      cases h' : detach minor' major' with
      | none => rfl
      | some r =>
          obtain ⟨f', hminor'⟩ := hminor.exists_symm
          obtain ⟨g', hmajor'⟩ := hmajor.exists_symm
          rw [detach_of_variant hminor' hmajor' h'] at h
          cases h

theorem numbering_of_detach (h : detach minor major = some r) :
    r.slots = List.range r.size ∧
      r.variableOrder = (List.range r.variableOrder.length).map fun i : Nat => (i : Int) + 1 := by
  constructor
  · have hslots := r.slots_placeFrom 0
    rwa [← Formula.place_eq, place_detachBy h, ← List.range_eq_range'] at hslots
  · obtain ⟨i, a, c, s, -, -, rfl⟩ := detach_eq_some_iff.mp h
    exact Formula.variableOrder_normalize_eq_range _

/-- Modus ponens depends neither on the names of the variables of its premises nor on the slots in
which they are stored. For any variants of the premises, with one renaming for each of them, the
conclusion is the same, slot by slot. Its slots are numbered parents before children and left before
right, and its variables from one on by first occurrence. -/
theorem conclusion_invariant {minor minor' major major' : Sheet}
    (hminor : Option.Rel (Formula.Variant f) minor minor')
    (hmajor : Option.Rel (Formula.Variant g) major major') :
    minor'.detach major' = minor.detach major ∧
      ∀ r, minor.detach major = some r → r.slots = List.range r.size ∧
        r.variableOrder = (List.range r.variableOrder.length).map fun i : Nat => (i : Int) + 1 := by
  cases hminor with
  | none => exact ⟨by cases hmajor <;> rfl, fun r hr => by cases hr⟩
  | some hm =>
      cases hmajor with
      | none => exact ⟨rfl, fun r hr => by cases hr⟩
      | some hM => exact ⟨detach_variant hm hM, fun r hr => numbering_of_detach hr⟩

/-- `(b|A)>b` with its nodes in order. -/
def mixedMinor : Formula Nat :=
  .node 0 .implication (.node 1 .disjunction (.leaf 2 (.var 2)) (.leaf 3 (.const 1)))
    (.leaf 4 (.var 2))

/-- `(e|A)>e` with its right part stored before its left one. -/
def mixedMinor' : Formula Nat :=
  .node 0 .implication (.node 2 .disjunction (.leaf 4 (.var 5)) (.leaf 3 (.const 1)))
    (.leaf 1 (.var 5))

/-- `b>(a>b)` -/
def swappedMajor : Formula Nat :=
  Schemas.weakening.rename fun v => 3 - v

theorem conclusion_invariant_mixed :
    ∃ r, Sheet.detach (some mixedMinor) (some Schemas.weakening) = some r ∧
      Sheet.detach (some mixedMinor') (some swappedMajor) = some r ∧
      r.slots = List.range r.size ∧
      r.variableOrder = (List.range r.variableOrder.length).map fun i : Nat => (i : Int) + 1 := by
  have hminor : mixedMinor.Variant (fun v => 7 - v) mixedMinor' :=
    ⟨by decide, fun u _ v _ h => by omega⟩
  have hmajor : Schemas.weakening.Variant (fun v => 3 - v) swappedMajor :=
    ⟨rfl, fun u _ v _ h => by omega⟩
  obtain ⟨hsame, hnumbering⟩ := conclusion_invariant (.some hminor) (.some hmajor)
  have hsome : (Sheet.detach (some mixedMinor) (some Schemas.weakening)).isSome = true := by
    decide +kernel
  obtain ⟨r, hr⟩ := Option.isSome_iff_exists.mp hsome
  exact ⟨r, hr, hsame.trans hr, hnumbering r hr⟩

end Detachment

import Detachment.Proofs.Meaning
import Mathlib.Data.List.Basic

/-!
# Normal numbering

Normalizing a formula renames its variables to their positions in the order of first occurrence,
counted from one. This loses nothing, since the positions determine the variables, and it changes
nothing the second time.
-/
namespace Detachment

theorem eraseDups_map {f : Int → Int} {l : List Int}
    (hf : ∀ a ∈ l, ∀ b ∈ l, f a = f b → a = b) : (l.map f).eraseDups = l.eraseDups.map f := by
  induction hn : l.length using Nat.strongRecOn generalizing l with
  | _ n ih =>
      cases l with
      | nil => rfl
      | cons a l =>
          have hfilter : (l.map f).filter (fun b => !(b == f a)) =
              (l.filter fun b => !(b == a)).map f := by
            rw [List.filter_map]
            refine congrArg (List.map f) (List.filter_congr fun b hb => ?_)
            have hiff : f b = f a ↔ b = a :=
              ⟨fun h => hf b (by simp [hb]) a (by simp) h, fun h => h ▸ rfl⟩
            by_cases hab : b = a <;> simp [hab, hiff]
          have hlen := List.length_filter_le (fun b => !(b == a)) l
          rw [List.map_cons, List.eraseDups_cons, hfilter, List.eraseDups_cons, List.map_cons,
            ih _ (by simp at hn; omega) _ rfl]
          intro x hx y hy
          exact hf x (by simp_all) y (by simp_all)

theorem length_eraseDups_le (l : List Int) : l.eraseDups.length ≤ l.length := by
  induction hn : l.length using Nat.strongRecOn generalizing l with
  | _ n ih =>
      cases l with
      | nil => exact Nat.zero_le _
      | cons a l =>
          have hlen := List.length_filter_le (fun b => !(b == a)) l
          rw [List.length_cons] at hn
          have := ih _ (by omega) (l.filter fun b => !(b == a)) rfl
          rw [List.eraseDups_cons, List.length_cons]
          omega

theorem nodup_eraseDups (l : List Int) : l.eraseDups.Nodup := by
  induction hn : l.length using Nat.strongRecOn generalizing l with
  | _ n ih =>
      cases l with
      | nil => exact List.nodup_nil
      | cons a l =>
          have hlen := List.length_filter_le (fun b => !(b == a)) l
          rw [List.length_cons] at hn
          rw [List.eraseDups_cons, List.nodup_cons]
          exact ⟨by simp, ih _ (by omega) _ rfl⟩

theorem idxOf_map {f : Int → Int} {l : List Int} {a : Int}
    (hf : ∀ b ∈ l, f b = f a → b = a) : (l.map f).idxOf (f a) = l.idxOf a := by
  induction l with
  | nil => rfl
  | cons b l ih =>
      rw [List.map_cons, List.idxOf_cons, List.idxOf_cons, ih fun c hc => hf c (by simp [hc])]
      have hiff : f b = f a ↔ b = a := ⟨hf b (by simp), fun h => h ▸ rfl⟩
      rw [Bool.eq_iff_iff.mpr (show (f b == f a) = true ↔ (b == a) = true by simpa using hiff)]

namespace Formula

variable {α : Type}

theorem rename_rename (f g : Int → Int) (t : Formula α) :
    (t.rename f).rename g = t.rename fun v => g (f v) := by
  induction t with
  | leaf s a =>
      change leaf s ((a.rename f).rename g) = leaf s (a.rename _)
      unfold Leaf.rename
      by_cases h : a.isVariable
      · have h' : Leaf.isVariable { a with value := f a.value } = true := h
        simp [h, h']
      · simp [h]
  | node s c l r ihl ihr => exact congrArg₂ (node s c) ihl ihr

theorem rename_id (t : Formula α) : t.rename (fun v => v) = t := by
  induction t with
  | leaf s a =>
      change leaf s (a.rename _) = leaf s a
      unfold Leaf.rename
      split <;> rfl
  | node s c l r ihl ihr => exact congrArg₂ (node s c) ihl ihr

theorem rename_congr {f g : Int → Int} {t : Formula α} (h : ∀ v ∈ t.vars, f v = g v) :
    t.rename f = t.rename g := by
  induction t with
  | leaf s a =>
      change leaf s (a.rename f) = leaf s (a.rename g)
      unfold Leaf.rename
      by_cases hv : a.isVariable
      · have hm : a.value ∈ (leaf s a).vars := by simp [Leaf.varNumber?, hv]
        simp [hv, h _ hm]
      · simp [hv]
  | node s c l r ihl ihr =>
      exact congrArg₂ (node s c) (ihl fun v hv => h v (by simp [hv]))
        (ihr fun v hv => h v (by simp [hv]))

theorem shape_rename (f : Int → Int) (t : Formula α) : (t.rename f).shape = t.shape.rename f := by
  induction t with
  | leaf s a => rfl
  | node s c l r ihl ihr => exact congrArg₂ (node () c) ihl ihr

/-- Moving the variables up is a renaming that adds the same number to each of them. -/
theorem exists_shift (bound : Int) (t : Formula α) :
    ∃ k, t.shiftVariables bound = t.rename (· + k) ∧ ∀ v ∈ t.vars, bound ≤ v + k := by
  unfold shiftVariables shiftVariablesBy minVariable?
  cases hm : t.vars.min? with
  | none =>
      rw [List.min?_eq_none_iff] at hm
      refine ⟨0, ?_, by simp [hm]⟩
      simp only [Int.add_zero]
      exact t.rename_id.symm
  | some m =>
      refine ⟨bound - m, rfl, fun v hv => ?_⟩
      have := (List.min?_eq_some_iff.mp hm).2 v hv
      omega

/-- The position of a variable in the order of first occurrence, from one. -/
def position (t : Formula α) (v : Int) : Int :=
  (t.variableOrder.idxOf v : Int) + 1

theorem normalize_eq (t : Formula α) : t.normalize = t.rename t.position := rfl

theorem shape_normalize (t : Formula α) : t.normalize.shape = t.shape.normalize := by
  have hposition : t.shape.position = t.position := by
    funext v
    rw [position, position, variableOrder, vars_shape, variableOrder]
  rw [normalize_eq, normalize_eq, shape_rename, hposition]

theorem mem_variableOrder {t : Formula α} {v : Int} : v ∈ t.variableOrder ↔ v ∈ t.vars :=
  List.mem_eraseDups

theorem position_inj {t : Formula α} {u v : Int} (hu : u ∈ t.vars)
    (h : t.position u = t.position v) : u = v := by
  have hidx : t.variableOrder.idxOf u = t.variableOrder.idxOf v := by
    unfold position at h
    omega
  exact (List.idxOf_inj (mem_variableOrder.mpr hu)).mp hidx

theorem pos_of_mem_vars_normalize {t : Formula α} {v : Int} (h : v ∈ t.normalize.vars) : 0 < v := by
  obtain ⟨u, -, rfl⟩ := mem_vars_rename.mp h
  omega

theorem variableOrder_normalize (t : Formula α) :
    t.normalize.variableOrder = t.variableOrder.map t.position := by
  unfold variableOrder
  rw [normalize_eq, vars_rename, eraseDups_map fun a ha b _ h => position_inj ha h]

/-- A normal formula has the variables from one on, in the order of their first occurrence. -/
theorem variableOrder_normalize_eq_range (t : Formula α) :
    t.normalize.variableOrder =
      (List.range t.normalize.variableOrder.length).map fun i : Nat => (i : Int) + 1 := by
  have hnodup : t.variableOrder.Nodup := nodup_eraseDups t.vars
  rw [variableOrder_normalize, List.length_map]
  refine List.ext_getElem (by simp) fun i hi _ => ?_
  rw [List.getElem_map, List.getElem_map, List.getElem_range, position, hnodup.idxOf_getElem]

/-- Renaming the variables one to one does not change the normal form. -/
theorem normalize_rename {f : Int → Int} {t : Formula α}
    (hf : ∀ u ∈ t.vars, ∀ v ∈ t.vars, f u = f v → u = v) :
    (t.rename f).normalize = t.normalize := by
  have horder : (t.rename f).variableOrder = t.variableOrder.map f := by
    unfold variableOrder
    rw [vars_rename, eraseDups_map hf]
  rw [normalize_eq, normalize_eq, rename_rename]
  refine rename_congr fun v hv => ?_
  rw [position, position, horder, idxOf_map fun u hu => hf u (mem_variableOrder.mp hu) v hv]

theorem position_normalize (t : Formula α) (v : Int) :
    t.normalize.position (t.position v) = t.position v := by
  rw [position, variableOrder_normalize, idxOf_map fun b hb hbv =>
    position_inj (mem_variableOrder.mp hb) hbv, position]

/-- A normal formula stays as it is. -/
theorem normalize_normalize (t : Formula α) : t.normalize.normalize = t.normalize := by
  rw [normalize_eq t.normalize, normalize_eq t, rename_rename, ← normalize_eq t]
  exact rename_congr fun v _ => t.position_normalize v

theorem exists_of_position (t : Formula α) :
    ∃ back : Int → Int, ∀ v ∈ t.vars, back (t.position v) = v := by
  refine ⟨fun n => t.variableOrder.getD (n - 1).toNat 0, fun v hv => ?_⟩
  have hmem := mem_variableOrder.mpr hv
  have hindex : (t.position v - 1).toNat = t.variableOrder.idxOf v := by
    unfold position
    omega
  dsimp only
  rw [hindex, List.getD_eq_getElem?_getD, List.getElem?_idxOf hmem]
  rfl

/-- A formula is true for all values of its variables if its normal form is. -/
theorem holds_of_normalize {consts : Int → Bool} {t : Formula α} (h : t.normalize.Holds consts) :
    t.Holds consts := by
  intro vars
  obtain ⟨back, hback⟩ := t.exists_of_position
  have heval := h fun n => vars (back n)
  rw [eval, normalize_eq, value_rename] at heval
  rw [eval, ← heval]
  refine (value_congr _ fun v hv => ?_).symm
  rw [hback v hv]

end Formula

end Detachment

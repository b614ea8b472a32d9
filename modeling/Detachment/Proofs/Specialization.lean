import Detachment.Proofs.Progress
import Detachment.Proofs.Readability
import Detachment.Proofs.Settling

/-!
# Reading a schema as the target that it settles

A schema that settles a target without variables becomes the target once its variables are replaced
by the constants of the same number. Unifying the two finds just this out. In every pair that is
queued on the way the left side is the right one with its variables held fixed, and every binding is
that of a variable to the constant of its number, so no step can fail. The session lists these
bindings, and substituting them in the schema gives the target.
-/
namespace Detachment

/-- For every variable the constant of its number. -/
def heldFixed (v : Int) : Option Shape :=
  some (.leaf () (.const v))

namespace Formula

variable {α : Type}

theorem substitute_heldFixed {t : Formula α} (h : t.Within .regular) :
    t.substitute heldFixed = t.freeze.shape := by
  induction t with
  | leaf s a =>
      obtain ⟨k, op, v⟩ := a
      obtain ⟨hk, hop⟩ := h
      obtain rfl | rfl : op = .nop ∨ op = .negation := hop
      all_goals
        cases k with
        | unknown => exact absurd rfl hk
        | const => rfl
        | var => rfl
  | node s c l r ihl ihr => exact congrArg₂ (node () c) (ihl h.2.1) (ihr h.2.2)

theorem vars_substitute_heldFixed (t : Formula α) : (t.substitute heldFixed).vars = [] := by
  refine List.eq_nil_iff_forall_not_mem.mpr fun u hu => ?_
  obtain ⟨-, hu⟩ | ⟨v, -, w, hw, hu⟩ := mem_vars_substitute.mp hu
  · cases hu
  · obtain rfl := Option.some.inj hw
    cases hu

theorem substitute_place (σ : Int → Option Shape) (t : Formula α) :
    t.place.substitute σ = t.substitute σ := by
  rw [← substitute_shape, shape_place, substitute_shape]

/-- What a variable with a sign becomes determines what it is bound to. -/
theorem of_shape_signed {l : Formula Nat} {v : Int} {x : Bool}
    (h : l.shape = Formula.signed x (.leaf () (.const v))) :
    l.Rigid ∧ l.vars = [] ∧ (l.signed x).shape = .leaf () (.const v) := by
  refine ⟨?_, ?_, ?_⟩
  · cases l with
    | leaf i a => cases x <;> exact (leaf.inj h).2 ▸ rfl
    | node i c l r => trivial
  · rw [← vars_shape, h, vars_signed]
    rfl
  · rw [shape_signed, h]
    cases x <;> rfl

end Formula

/-- Every value is the constant of its variable's number. -/
def Substitution.HoldsFixed (s : Substitution) : Prop :=
  ∀ v w, s.value? v = some w → w.shape = .leaf () (.const v)

/-- Following a formula does not change what it becomes once its variables are held fixed, and
the variables that it loses on the way are bound. -/
theorem Substitution.HoldsFixed.chase {s : Substitution} (hs : s.HoldsFixed) {n : Nat}
    {t t' : Formula Nat} (h : s.chase n t = some t') :
    t'.substitute heldFixed = t.substitute heldFixed ∧
      ∀ v ∈ t.vars, (s.value? v).isSome = true ∨ v ∈ t'.vars := by
  refine chase_preserves (s := s) (P := fun x => x.substitute heldFixed = t.substitute heldFixed ∧
    ∀ v ∈ t.vars, (s.value? v).isSome = true ∨ v ∈ x.vars) (fun i a v w hv hw hx => ?_) h
    ⟨rfl, fun v hv => .inr hv⟩
  obtain ⟨hsub, hvars⟩ := hx
  have hshape : (w.signed a.negated).shape = Formula.signed a.negated (.leaf () (.const v)) := by
    rw [Formula.shape_signed, hs v w hw]
  have hclosed : (w.signed a.negated).vars = [] := by
    rw [← Formula.vars_shape, hshape, Formula.vars_signed]
    rfl
  constructor
  · rw [Formula.substitute_of_none (by simp [hclosed]), hshape, ← hsub]
    exact (Formula.substitute_leaf_of_some i (by rw [hv]; rfl)).symm
  · intro u hu
    refine .inl ((hvars u hu).elim id fun hmem => ?_)
    obtain rfl : u = v := by simpa [hv] using hmem
    simp [hw]

namespace Unification.State

variable {st st' : State} {vs : List Int} {l r : Formula Nat}

/-- The variable is bound already or waits on the right side of a pair. -/
def Covers (st : State) (v : Int) : Prop :=
  (st.bindings.value? v).isSome = true ∨ ∃ p ∈ st.queue, v ∈ p.2.vars

/-- What was bound has been held fixed, the left side of every pair is its right side held fixed,
and none of the variables `vs` has been lost. -/
structure Specializes (vs : List Int) (st : State) : Prop where
  bindings : st.bindings.HoldsFixed
  queue : ∀ p ∈ st.queue, p.1.shape = p.2.substitute heldFixed
  covered : ∀ v ∈ vs, st.Covers v

section pop

variable (h : Specializes vs { st with queue := (l, r) :: st.queue })

include h

theorem Specializes.shape_eq : l.shape = r.substitute heldFixed :=
  h.queue _ List.mem_cons_self

/-- The first pair can go if what comes of it covers its variables. -/
theorem Specializes.pop (hbindings : st'.bindings.HoldsFixed)
    (hbound : ∀ v, (st.bindings.value? v).isSome = true → (st'.bindings.value? v).isSome = true)
    (hqueue : ∀ p ∈ st'.queue, p ∈ st.queue ∨ p.1.shape = p.2.substitute heldFixed)
    (hkeep : ∀ p ∈ st.queue, p ∈ st'.queue)
    (hvars : ∀ v ∈ r.vars, st'.Covers v) : st'.Specializes vs where
  bindings := hbindings
  queue p hp := (hqueue p hp).elim (fun hp => h.queue p (List.mem_cons_of_mem _ hp)) id
  covered v hv := by
    obtain hv | ⟨p, hp, hv⟩ := h.covered v hv
    · exact .inl (hbound v hv)
    · obtain rfl | hp := List.mem_cons.mp hp
      · exact hvars v hv
      · exact .inr ⟨p, hkeep p hp, hv⟩

end pop

theorem Specializes.parts {i j : Nat} {c : Connective} {l₁ l₂ r₁ r₂ : Formula Nat}
    (h : Specializes vs { st with queue := (.node i c l₁ l₂, .node j c r₁ r₂) :: st.queue }) :
    Specializes vs
      { st with queue := st.queue ++ [(l₁.place, r₁.place), (l₂.place, r₂.place)] } := by
  obtain ⟨-, -, h₁, h₂⟩ := Formula.node.inj h.shape_eq
  refine h.pop h.bindings (fun v hv => hv) (fun p hp => ?_) (fun p hp => by simp [hp])
    (fun v hv => .inr ?_)
  · refine (List.mem_append.mp hp).imp id fun hp => ?_
    obtain rfl | rfl : p = (l₁.place, r₁.place) ∨ p = (l₂.place, r₂.place) := by simpa using hp
    · rw [Formula.shape_place, Formula.substitute_place]
      exact h₁
    · rw [Formula.shape_place, Formula.substitute_place]
      exact h₂
  · rw [Formula.vars_node, List.mem_append] at hv
    obtain hv | hv := hv
    · exact ⟨(l₁.place, r₁.place), by simp, by simpa using hv⟩
    · exact ⟨(l₂.place, r₂.place), by simp, by simpa using hv⟩

theorem Specializes.bind {j : Nat} {b : Leaf} (hb : b.kind = .var)
    (h : Specializes vs { st with queue := (l, .leaf j b) :: st.queue }) :
    ∃ s, st.Meets l (.leaf j b) { st with bindings := s } ∧
      Specializes vs { st with bindings := s } := by
  have hnumber := Leaf.varNumber?_of_kind hb
  have hl := h.shape_eq
  rw [Formula.substitute_leaf_of_some j (by rw [hnumber]; rfl)] at hl
  obtain ⟨hrigid, hclosed, hvalue⟩ := Formula.of_shape_signed hl
  have hbind := Substitution.bind_eq_ok.mpr ⟨Substitution.reaches_eq_false
    (s := st.bindings) (v := b.value) (t := l.signed b.negated) (by simp [hclosed]), rfl⟩
  refine ⟨_, .right j hb hrigid hbind, h.pop (fun v w hw => ?_) (fun v hv => ?_)
    (fun p hp => .inl hp) (fun p hp => hp) (fun v hv => .inl ?_)⟩
  · rw [Substitution.value?_insert] at hw
    split at hw
    · rename_i heq
      obtain rfl := Option.some.inj hw
      rw [hvalue, heq]
    · exact h.bindings v w hw
  · rw [Substitution.value?_insert]
    split
    · rfl
    · exact hv
  · rw [Substitution.value?_insert, if_pos (by simpa [hnumber] using hv)]
    rfl

/-- The two sides meet: a compound formula stands on both sides or a constant does, and a variable
is bound to the constant of its number. -/
theorem Specializes.exists_meet (hr : r.Within .regular)
    (h : Specializes vs { st with queue := (l, r) :: st.queue }) :
    ∃ st', st.meet l r = .ok st' ∧ st'.Specializes vs := by
  have hl := h.shape_eq
  cases r with
  | node j c r₁ r₂ =>
      cases l with
      | leaf i a => cases hl
      | node i c' l₁ l₂ =>
          obtain ⟨-, rfl, -⟩ := Formula.node.inj hl
          exact ⟨_, meet_of_meets (.parts i j c' l₁ l₂ r₁ r₂), h.parts⟩
  | leaf j b =>
      cases hk : b.kind with
      | unknown => exact absurd hk hr.1
      | var =>
          obtain ⟨s, hmeets, hs⟩ := h.bind hk
          exact ⟨_, meet_of_meets hmeets, hs⟩
      | const =>
          have hnumber : b.varNumber? = none := by simp [Leaf.varNumber?, Leaf.isVariable, hk]
          rw [Formula.substitute_leaf_of_none j (by simp [hnumber])] at hl
          cases l with
          | node i c l₁ l₂ => cases hl
          | leaf i a =>
              obtain ⟨-, rfl⟩ := Formula.leaf.inj hl
              exact ⟨st, meet_of_meets (.same i j (by simp [hk])), h.pop h.bindings (fun _ hv => hv)
                (fun _ hp => .inl hp) (fun _ hp => hp) (by simp [hnumber])⟩

theorem Specializes.exists_step {rest : List (Formula Nat × Formula Nat)}
    (hst : st.Proper .regular) (h : st.Specializes vs) (hq : st.queue = (l, r) :: rest) :
    ∃ st', { st with queue := rest }.step l r = .ok st' ∧ st'.Specializes vs := by
  have hs := hst.bindings
  have hqueue := h.queue
  rw [hq, List.forall_mem_cons] at hqueue
  have hloose : st.bindings.Loose l := by
    have hclosed : l.vars = [] := by
      rw [← Formula.vars_shape, hqueue.1, Formula.vars_substitute_heldFixed]
    cases l with
    | node i c l₁ l₂ => trivial
    | leaf i a =>
        intro v hv
        simp [hv] at hclosed
  obtain ⟨r', hchase, -⟩ := Substitution.exists_chase hs.filled hs.acyclic r
  obtain ⟨hsub, hvars⟩ := h.bindings.chase hchase
  rw [step, Substitution.chase_of_loose hs.filled hloose, hchase]
  refine Specializes.exists_meet
    (Substitution.within_chase hs.within (hst.pop hq).1.2 hchase) ⟨h.bindings, ?_, fun v hv => ?_⟩
  · exact List.forall_mem_cons.mpr ⟨hqueue.1.trans hsub.symm, hqueue.2⟩
  · obtain hv | ⟨p, hp, hv⟩ := h.covered v hv
    · exact .inl hv
    · rw [hq] at hp
      obtain rfl | hp := List.mem_cons.mp hp
      · exact (hvars v hv).imp id fun hv => ⟨_, List.mem_cons_self, hv⟩
      · exact .inr ⟨p, List.mem_cons_of_mem _ hp, hv⟩

theorem Runs.specializes {n : Nat} (hst : st.Proper .regular) (h : st.Specializes vs)
    (hruns : st.Runs n st') : st'.Specializes vs := by
  induction hruns with
  | start => exact h
  | turn hruns hturn ih =>
      obtain ⟨l, r, rest, hq, hstep⟩ := hturn
      obtain ⟨st₂, hstep', hst₂⟩ := ih.exists_step (hruns.proper hst) hq
      rw [hstep'] at hstep
      exact Except.ok.inj hstep ▸ hst₂

end Unification.State

open Unification

/-- A formula and what it becomes once its variables are held fixed are unified by holding them
fixed. -/
theorem exists_unifier_of_heldFixed (floor : Int) {c t : Formula Nat} (hc : c.Within .regular)
    (ht : t.Within .regular) (h : t.shape = c.substitute heldFixed) :
    ∃ s, unifyAbove floor t c = .ok s ∧ (∀ b ∈ s, b.2.isSome) ∧
      ∀ v ∈ c.vars, ∃ w, s.value? v = some w ∧ w.shape = .leaf () (.const v) := by
  obtain ⟨n, st, hruns, hend⟩ := exists_runs_of_unifyAbove floor t c
  have hinitial : (State.initial floor t c).Proper .regular := State.proper_initial floor ht hc
  have hst := hruns.proper hinitial
  have hspecial : st.Specializes c.vars := by
    refine State.Runs.specializes hinitial ⟨?_, ?_, ?_⟩ hruns
    · exact fun v w hw => by simp [State.initial, Substitution.value?] at hw
    · simpa [State.initial] using h
    · exact fun v hv => .inr ⟨(t, c), by simp [State.initial], hv⟩
  obtain ⟨hq, s, hexpand, hs⟩ | ⟨x, y, rest, e, hq, hstep, -⟩ := hend
  · have hexpanded := Substitution.expanded_of_expand hst.bindings hexpand
    refine ⟨s, hs, hexpanded.filled, fun v hv => ?_⟩
    obtain hbound | ⟨p, hp, -⟩ := hspecial.covered v hv
    · obtain ⟨w, hw⟩ := Option.isSome_iff_exists.mp hbound
      have hshape := hspecial.bindings v w hw
      have hclosed : w.vars = [] := by
        rw [← Formula.vars_shape, hshape]
        rfl
      refine ⟨w, ?_, hshape⟩
      rw [hexpanded.expanded v w hw, Substitution.apply_of_unbound (by simp [hclosed])]
    · rw [hq] at hp
      cases hp
  · obtain ⟨st', hok, -⟩ := hspecial.exists_step hst hq
    rw [hok] at hstep
    cases hstep

/-! ### The numbers of a normal schema -/

theorem Formula.shiftVariables_of_normal {t : Formula Nat} (h : t.normalize = t) :
    t.shiftVariables 1 = t := by
  unfold shiftVariables shiftVariablesBy minVariable?
  cases hm : t.vars.min? with
  | none => rfl
  | some m =>
      obtain ⟨hmem, hle⟩ := List.min?_eq_some_iff.mp hm
      have hpos : 0 < m := by
        rw [← h] at hmem
        exact pos_of_mem_vars_normalize hmem
      -- The variable that comes first has the number one.
      have hone : 1 ∈ t.vars := by
        obtain ⟨v, rest, horder⟩ := List.exists_cons_of_ne_nil
          (List.ne_nil_of_mem (mem_variableOrder.mpr hmem))
        have hv : t.position v = 1 := by simp [position, horder]
        rw [← h, normalize_eq, vars_rename, ← hv]
        exact List.mem_map_of_mem (mem_variableOrder.mp (by simp [horder]))
      obtain rfl : m = 1 := by
        have := hle 1 hone
        omega
      exact (rename_congr (g := fun v => v) (by simp)).trans t.rename_id

theorem letter_inj {v v' : Int} (hv : 0 < v) (hv' : 0 < v') {upper : Bool}
    (h : letter v upper = letter v' upper) : v = v' := by
  have htext : (letter v upper).toList ++ [] = (letter v' upper).toList ++ [] := by rw [h]
  have habs := (letter_append_inj Formula.ends_nil Formula.ends_nil htext).1
  omega

/-! ### The lines of the session -/

namespace Substitution

variable {s : Substitution} {t : Formula Nat}

theorem mem_map_fst_relevant {v : Int} :
    v ∈ (s.relevant t).map Prod.fst ↔ v ∈ t.vars ∧ (s.value? v).isSome = true := by
  simp only [List.mem_map, mem_relevant, Option.isSome_iff_exists]
  constructor
  · rintro ⟨b, ⟨hv, hb⟩, rfl⟩
    exact ⟨hv, b.2, hb⟩
  · rintro ⟨hv, w, hw⟩
    exact ⟨(v, w), ⟨hv, hw⟩, rfl⟩

theorem nodup_relevant : ((s.relevant t).map Prod.fst).Nodup := by
  rw [relevant, List.map_filterMap]
  refine List.Nodup.filterMap (fun u v x hu hv => ?_)
    ((List.mergeSort_perm _ _).nodup_iff.mpr (nodup_eraseDups t.vars))
  simp only [Option.map_map, Option.mem_def, Option.map_eq_some_iff] at hu hv
  obtain ⟨_, _, rfl⟩ := hu
  obtain ⟨_, _, rfl⟩ := hv
  rfl

/-- Positive numbers have letters of their own. -/
theorem nodup_letters_relevant (hpos : ∀ v ∈ t.vars, 0 < v) :
    ((s.relevant t).map fun b => letter b.1 true).Nodup := by
  have hletters : (((s.relevant t).map Prod.fst).map (letter · true)).Nodup :=
    nodup_relevant.map_on fun u hu v hv =>
      letter_inj (hpos u (mem_map_fst_relevant.mp hu).1) (hpos v (mem_map_fst_relevant.mp hv).1)
  rwa [List.map_map] at hletters

end Substitution

namespace Session

/-- The lines that tell what the variables of a schema are bound to. -/
def bindingLines (schema : Formula Nat) : List (Int × Formula Nat) → List String
  | [] => []
  | bindings =>
      ("change variables: " ++ schema.text) ::
        bindings.map fun b => letter b.1 true ++ " → " ++ b.2.text

theorem bindingLines_eq_nil {schema : Formula Nat} {bindings : List (Int × Formula Nat)} :
    bindingLines schema bindings = [] ↔ bindings = [] := by
  cases bindings <;> simp [bindingLines]

theorem instantiation_eq {c t : Formula Nat} {s : Substitution} (hfill : ∀ b ∈ s, b.2.isSome)
    (h : unifyAbove 0 t (c.shiftVariables (t.maxVariable + 1)) = .ok s) :
    instantiation (some c) (some t) =
      bindingLines (c.shiftVariables (t.maxVariable + 1))
        (s.relevant (c.shiftVariables (t.maxVariable + 1))) := by
  generalize hschema : c.shiftVariables (t.maxVariable + 1) = schema at h ⊢
  have hbound : (schema.vars.eraseDups.mergeSort (· ≤ ·)).filterMap
      (fun v => (s.lookup v).map (v, ·)) = (s.relevant schema).map fun b => (b.1, some b.2) := by
    rw [Substitution.relevant, List.map_filterMap]
    refine List.filterMap_congr fun v _ => ?_
    cases hv : s.lookup v with
    | none => simp [Substitution.value?, hv]
    | some y =>
        obtain ⟨w, rfl⟩ := Option.isSome_iff_exists.mp (hfill _ (Substitution.mem_of_lookup hv))
        simp [Substitution.value?, hv]
  have hshift : Sheet.shiftVariables (t.maxVariable + 1) (some c) = some schema :=
    congrArg some hschema
  have hs : Sheet.unifyAbove 0 (some t) (some schema) = .ok s := h
  simp only [instantiation, Sheet.maxVariable, Option.elim_some, hshift, hs, hbound]
  cases s.relevant schema with
  | nil => rfl
  | cons b bs => simp [bindingLines, Sheet.text]

end Session

open Formula in
/-- What the session says about a schema that settles a target without variables is right. The
target is the schema with every variable replaced by the constant of its number, and negated where
it was negated. So unifying the two succeeds. The schema is normal and is printed with the numbers
that it has. The lines after it tell for each of its variables, once and under a letter of its own,
what it is bound to, and substituting all this in the schema gives the target. Nothing is printed
exactly if the schema has no variables. -/
theorem instantiation_gives_target {c t : Formula Nat} (hc : c.WellFormed)
    (hnormal : c.normalize = c) (ht : t.WellFormed) (hclosed : t.vars = [])
    (h : Sheet.settles (some c) (some t) = true) :
    t.shape = c.substitute heldFixed ∧
    ∃ s bindings,
      Sheet.unifyAbove 0 (some t)
        (Sheet.shiftVariables (Sheet.maxVariable (some t) + 1) (some c)) = .ok s ∧
      Session.instantiation (some c) (some t) = Session.bindingLines c bindings ∧
      (∀ b ∈ bindings, s.value? b.1 = some b.2) ∧
      (∀ v, v ∈ bindings.map Prod.fst ↔ v ∈ c.vars) ∧
      (bindings.map fun b => letter b.1 true).Nodup ∧
      c.substitute (fun v => (bindings.lookup v).map Formula.shape) = t.shape ∧
      (Session.instantiation (some c) (some t) = [] ↔ c.vars = []) := by
  have hshape : t.shape = c.substitute heldFixed := by
    have hmatches := ((Sheet.settles_iff hc.1 ht.1).mp h).1
    rw [normalize_of_closed hclosed, hnormal, matches_true_iff ht.2 hc.2,
      freeze_of_closed hclosed] at hmatches
    rw [substitute_heldFixed hc.2, hmatches]
  obtain ⟨s, hs, hfill, hvalues⟩ := exists_unifier_of_heldFixed 0 hc.2 ht.2 hshape
  have hshift : c.shiftVariables (t.maxVariable + 1) = c := by
    have hmax : t.maxVariable = 0 := by simp [maxVariable, hclosed]
    rw [hmax]
    exact shiftVariables_of_normal hnormal
  rw [← hshift] at hs
  have hlines := Session.instantiation_eq hfill hs
  rw [hshift] at hlines
  have hkeys (v : Int) : v ∈ (s.relevant c).map Prod.fst ↔ v ∈ c.vars := by
    refine Substitution.mem_map_fst_relevant.trans (and_iff_left_of_imp fun hv => ?_)
    obtain ⟨w, hw, -⟩ := hvalues v hv
    rw [hw, Option.isSome_some]
  refine ⟨hshape, s, s.relevant c, hs, hlines, fun b hb => (Substitution.mem_relevant.mp hb).2,
    hkeys, ?_, ?_, ?_⟩
  · refine Substitution.nodup_letters_relevant fun v hv => ?_
    rw [← hnormal] at hv
    exact pos_of_mem_vars_normalize hv
  · rw [hshape]
    refine substitute_congr fun v hv => ?_
    obtain ⟨w, hw, hconst⟩ := hvalues v hv
    rw [s.lookup_relevant hv, hw, Option.map_some, hconst]
    rfl
  · rw [hlines, Session.bindingLines_eq_nil, ← List.map_eq_nil_iff (f := Prod.fst),
      List.eq_nil_iff_forall_not_mem, List.eq_nil_iff_forall_not_mem]
    simp only [hkeys]

/-- `(a|!b)>(A*a)`. The constant has the number of a variable. -/
def sharedNumber : Formula Nat :=
  Formula.place (.node () .implication
    (.node () .disjunction (Schemas.v 1) (Schemas.nv 2))
    (.node () .conjunction (.leaf () (.const 1)) (Schemas.v 1)))

theorem wellFormed_sharedNumber : sharedNumber.WellFormed :=
  ⟨Formula.wellPlaced_place _, (Formula.within_place _).mpr
    ⟨trivial, ⟨trivial, ⟨by decide, .inl rfl⟩, ⟨by decide, .inr rfl⟩⟩,
      ⟨trivial, ⟨by decide, .inl rfl⟩, ⟨by decide, .inl rfl⟩⟩⟩⟩

theorem instantiation_gives_sharedNumber :
    sharedNumber.freeze.text = "(A|!B)>(A*A)" ∧
    Sheet.settles (some sharedNumber) (some sharedNumber.freeze) = true ∧
    ∃ bindings, Session.instantiation (some sharedNumber) (some sharedNumber.freeze) =
        Session.bindingLines sharedNumber bindings ∧
      bindings ≠ [] ∧ (∀ v, v ∈ bindings.map Prod.fst ↔ v = 1 ∨ v = 2) ∧
      sharedNumber.substitute (fun v => (bindings.lookup v).map Formula.shape) =
        sharedNumber.freeze.shape := by
  have hfrozen := wellFormed_sharedNumber.2.freeze
  have htarget : sharedNumber.freeze.WellFormed :=
    ⟨wellFormed_sharedNumber.1.mapLeaves _, hfrozen.1⟩
  have hsettles : Sheet.settles (some sharedNumber) (some sharedNumber.freeze) = true := by
    rw [Sheet.settles_iff wellFormed_sharedNumber.1 htarget.1,
      Formula.matches_true_iff htarget.2.normalize wellFormed_sharedNumber.2.normalize]
    decide
  obtain ⟨-, s, bindings, -, hlines, -, hkeys, -, hsub, hnil⟩ := instantiation_gives_target
    wellFormed_sharedNumber (by decide) htarget hfrozen.2 hsettles
  refine ⟨by decide, hsettles, bindings, hlines, ?_, fun v => ?_, hsub⟩
  · rw [hlines, Session.bindingLines_eq_nil] at hnil
    rw [Ne, hnil]
    decide
  · rw [hkeys, show sharedNumber.vars = [1, 2, 1] by decide]
    simp only [List.mem_cons, List.not_mem_nil, or_false]
    omega

end Detachment

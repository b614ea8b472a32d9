import Detachment.Proofs.ModusPonens
import Detachment.Proofs.Progress
import Mathlib.Data.List.Forall2

/-!
# Unification in lockstep

Of the leaves of its operands unification only sees their kinds, their signs and which of them are
equal. So two runs whose operands are alike in this respect go on in lockstep: if one of them
succeeds, then so does the other, and their unifiers are alike as well. Which numbers the variables
have does not matter, except that different ones stay different. It does not matter either in which
order the bindings are expanded, since the bindings alone determine what they expand to.
-/
namespace Detachment

theorem cases_of_rel {β γ : Type} {R : β → γ → Prop} {x : Option β} {y : Option γ}
    (h : Option.Rel R x y) :
    (x = none ∧ y = none) ∨ ∃ b c, x = some b ∧ y = some c ∧ R b c := by
  cases h with
  | none => exact .inl ⟨rfl, rfl⟩
  | some h => exact .inr ⟨_, _, rfl, rfl, h⟩

/-- A correspondence between the variables and between the leaves of two runs. -/
structure Likeness where
  number : Int → Int → Prop
  leaf : Leaf → Leaf → Prop
  number_unique : Relator.BiUnique number
  leaf_var : ∀ {u v}, number u v → leaf (.var u) (.var v)
  leaf_negate : ∀ {a b}, leaf a b → leaf a.negate b.negate
  leaf_unique : ∀ {a b b'}, leaf a b → leaf a b' → a.kind ≠ .unknown → b = b'
  kind_eq : ∀ {a b}, leaf a b → a.kind = b.kind
  negated_eq : ∀ {a b}, leaf a b → a.kind = .var → a.negated = b.negated
  number_value : ∀ {a b}, leaf a b → a.kind = .var → number a.value b.value

namespace Likeness

variable {L : Likeness}

theorem varNumber? {a b : Leaf} (h : L.leaf a b) :
    Option.Rel L.number a.varNumber? b.varNumber? := by
  have hkind := L.kind_eq h
  by_cases ha : a.kind = .var
  · rw [Leaf.varNumber?_of_kind ha, Leaf.varNumber?_of_kind (hkind.symm.trans ha)]
    exact .some (L.number_value h ha)
  · have hb : b.kind ≠ .var := hkind ▸ ha
    simp only [Leaf.varNumber?, Leaf.isVariable, beq_false_of_ne ha, beq_false_of_ne hb]
    exact .none

theorem number_inj {u v u' v' : Int} (h : L.number u v) (h' : L.number u' v') :
    u = u' ↔ v = v' :=
  Relator.rel_eq L.number_unique h h'

end Likeness

namespace Formula

/-- The same connectives throughout, and leaves that correspond to each other. -/
inductive Alike {α β : Type} (L : Likeness) : Formula α → Formula β → Prop where
  | leaf (i : α) (j : β) {a b : Leaf} (h : L.leaf a b) : Alike L (.leaf i a) (.leaf j b)
  | node (i : α) (j : β) (c : Connective) {l r : Formula α} {l' r' : Formula β}
      (hl : Alike L l l') (hr : Alike L r r') : Alike L (.node i c l r) (.node j c l' r')

variable {α β γ δ : Type} {L : Likeness} {t : Formula α} {t' : Formula β}

theorem alike_map (f : α → γ) (g : β → δ) : (t.map f).Alike L (t'.map g) ↔ t.Alike L t' := by
  constructor
  · intro h
    induction t generalizing t' with
    | leaf i a =>
        cases t' with
        | leaf j b =>
            cases h with
            | leaf _ _ h => exact .leaf i j h
        | node j c l r => cases h
    | node i c l r ihl ihr =>
        cases t' with
        | leaf j b => cases h
        | node j c' l' r' =>
            cases h with
            | node _ _ _ hl hr => exact .node i j c (ihl hl) (ihr hr)
  · intro h
    induction h with
    | leaf i j h => exact .leaf (f i) (g j) h
    | node i j c _ _ ihl ihr => exact .node (f i) (g j) c ihl ihr

@[simp] theorem alike_shape : t.shape.Alike L t'.shape ↔ t.Alike L t' :=
  alike_map _ _

@[simp] theorem alike_place : t.place.Alike L t'.place ↔ t.Alike L t' := by
  rw [← alike_shape, shape_place, shape_place, alike_shape]

theorem Alike.vars (h : t.Alike L t') : List.Forall₂ L.number t.vars t'.vars := by
  induction h with
  | leaf i j h =>
      rw [vars_leaf, vars_leaf]
      obtain ⟨ha, hb⟩ | ⟨u, v, ha, hb, huv⟩ := cases_of_rel (Likeness.varNumber? h)
      · rw [ha, hb]
        exact .nil
      · rw [ha, hb]
        exact .cons huv .nil
  | node _ _ _ _ _ ihl ihr =>
      rw [vars_node, vars_node]
      exact List.rel_append ihl ihr

theorem Alike.negate (h : t.Alike L t') : t.negate.Alike L t'.negate := by
  induction h with
  | leaf i j h => exact .leaf i j (L.leaf_negate h)
  | node i j c hl hr ihl ihr =>
      cases c with
      | implication => exact .node i j _ hl ihr
      | conjunction => exact .node i j _ hl ihr
      | disjunction => exact .node i j _ ihl ihr
      | xor => exact .node i j _ hl hr
      | equivalence => exact .node i j _ hl hr

theorem Alike.signed (h : t.Alike L t') (b : Bool) : (t.signed b).Alike L (t'.signed b) := by
  cases b with
  | false => exact h
  | true => exact h.negate

theorem Alike.rigid (h : t.Alike L t') (ht : t.Rigid) : t'.Rigid := by
  cases h with
  | leaf i j h => exact (L.kind_eq h).symm.trans ht
  | node => trivial

/-- Substituting alike formulas for corresponding variables. -/
theorem Alike.substitute (h : t.Alike L t') {σ τ : Int → Option Shape}
    (hσ : ∀ u ∈ t.vars, ∀ v, L.number u v → Option.Rel (Alike L) (σ u) (τ v)) :
    (t.substitute σ).Alike L (t'.substitute τ) := by
  induction h with
  | @leaf i j a b h =>
      by_cases ha : a.kind = .var
      · have hb : b.kind = .var := (L.kind_eq h).symm.trans ha
        have hnum := Leaf.varNumber?_of_kind ha
        have hrel := hσ a.value (by simp [hnum]) b.value (L.number_value h ha)
        simp only [Formula.substitute, hnum, Leaf.varNumber?_of_kind hb, Option.bind_some]
        obtain ⟨hx, hy⟩ | ⟨x, y, hx, hy, hxy⟩ := cases_of_rel hrel
        · rw [hx, hy]
          exact .leaf () () h
        · rw [hx, hy, Option.elim_some, Option.elim_some, L.negated_eq h ha]
          exact hxy.signed _
      · have hb : b.kind ≠ .var := L.kind_eq h ▸ ha
        rw [substitute_leaf_of_none i (by simp [Leaf.varNumber?, Leaf.isVariable, ha]),
          substitute_leaf_of_none j (by simp [Leaf.varNumber?, Leaf.isVariable, hb])]
        exact .leaf () () h
  | node i j c _ _ ihl ihr =>
      refine .node () () c (ihl fun u hu => ?_) (ihr fun u hu => ?_)
      · exact hσ u (by simp [hu])
      · exact hσ u (by simp [hu])

end Formula

namespace Substitution

/-- Corresponding variables are bound to alike formulas, in the same order. -/
def Alike (L : Likeness) (s s' : Substitution) : Prop :=
  List.Forall₂ (fun b b' => L.number b.1 b'.1 ∧ Option.Rel (Formula.Alike L) b.2 b'.2) s s'

variable {L : Likeness} {s s' : Substitution} {u v : Int} {t t' : Formula Nat}

theorem Alike.lookup (h : s.Alike L s') (huv : L.number u v) :
    Option.Rel (Option.Rel (Formula.Alike L)) (s.lookup u) (s'.lookup v) := by
  induction h with
  | nil => exact .none
  | @cons b b' s s' hhead _ ih =>
      obtain ⟨k, x⟩ := b
      obtain ⟨k', x'⟩ := b'
      rw [List.lookup_cons, List.lookup_cons]
      by_cases hk : u = k
      · have hk' : v = k' := (L.number_inj huv hhead.1).mp hk
        simpa [hk, hk'] using hhead.2
      · have hk' : v ≠ k' := fun he => hk ((L.number_inj huv hhead.1).mpr he)
        rw [beq_false_of_ne hk, beq_false_of_ne hk']
        exact ih

theorem Alike.value? (h : s.Alike L s') (huv : L.number u v) :
    Option.Rel (Formula.Alike L) (s.value? u) (s'.value? v) := by
  unfold Substitution.value?
  obtain ⟨hx, hy⟩ | ⟨x, y, hx, hy, hxy⟩ := cases_of_rel (h.lookup huv)
  · rw [hx, hy]
    exact .none
  · rw [hx, hy]
    exact hxy

theorem Alike.insert (h : s.Alike L s') (huv : L.number u v) (ht : t.Alike L t') :
    (s.insert u (some t)).Alike L (s'.insert v (some t')) := by
  refine .cons ⟨huv, .some ht⟩ (List.rel_filter ?_ h)
  intro b b' hb
  simp [L.number_inj hb.1 huv]

theorem Alike.occurrences (h : s.Alike L s') : s.occurrences = s'.occurrences := by
  refine List.rel_foldl (P := Eq) ?_ rfl h
  rintro n _ rfl b b' ⟨-, hb⟩
  obtain ⟨hx, hy⟩ | ⟨x, y, hx, hy, hxy⟩ := cases_of_rel hb
  · simp [hx, hy]
  · simp [hx, hy, hxy.vars.length_eq]

/-- The occurs check goes the same way. -/
theorem Alike.reachesLoop (h : s.Alike L s') (huv : L.number u v) {fuel : Nat}
    {pending pending' seen seen' : List Int} (hpending : List.Forall₂ L.number pending pending')
    (hseen : List.Forall₂ L.number seen seen') :
    s.reachesLoop u fuel pending seen = s'.reachesLoop v fuel pending' seen' := by
  induction fuel generalizing pending pending' seen seen' with
  | zero => rfl
  | succ fuel ih =>
      cases hpending with
      | nil => rfl
      | @cons x y pending pending' hxy hrest =>
          have hfound : x = u ↔ y = v := L.number_inj hxy huv
          have hcontains : seen.contains x = seen'.contains y := by
            rw [Bool.eq_iff_iff, List.contains_iff_mem, List.contains_iff_mem]
            exact List.rel_mem L.number_unique hxy hseen
          have hmore : List.Forall₂ L.number (((s.value? x).map Formula.vars).getD [])
              (((s'.value? y).map Formula.vars).getD []) := by
            obtain ⟨hw, hw'⟩ | ⟨w, w', hw, hw', hww'⟩ := cases_of_rel (h.value? hxy)
            · rw [hw, hw']
              exact .nil
            · rw [hw, hw']
              exact hww'.vars
          simp only [Substitution.reachesLoop, hfound, hcontains]
          split
          · rfl
          · split
            · exact ih hrest hseen
            · exact ih (List.rel_append hmore hrest) (.cons hxy hseen)

theorem Alike.reaches (h : s.Alike L s') (huv : L.number u v) (ht : t.Alike L t') :
    s.reaches u t = s'.reaches v t' := by
  unfold Substitution.reaches
  rw [ht.vars.length_eq, h.occurrences]
  exact h.reachesLoop huv ht.vars .nil

theorem Alike.chase (h : s.Alike L s') (n : Nat) (ht : t.Alike L t') :
    Option.Rel (Formula.Alike L) (s.chase n t) (s'.chase n t') := by
  induction n generalizing t t' with
  | zero => exact .some ht
  | succ n ih =>
      cases ht with
      | node i j c hl hr => exact .some (.node i j c hl hr)
      | @leaf i j a b hab =>
          by_cases ha : a.kind = .var
          · have hb : b.kind = .var := (L.kind_eq hab).symm.trans ha
            have hrel := h.lookup (L.number_value hab ha)
            simp only [Substitution.chase, Leaf.varNumber?_of_kind ha, Leaf.varNumber?_of_kind hb,
              Option.bind_some]
            obtain ⟨hx, hy⟩ | ⟨x, y, hx, hy, hxy⟩ := cases_of_rel hrel
            · rw [hx, hy]
              exact .some (.leaf i j hab)
            · rw [hx, hy]
              cases hxy with
              | none => exact .none
              | some hw =>
                  simp only [L.negated_eq hab ha]
                  exact ih (hw.signed _)
          · have hb : b.kind ≠ .var := L.kind_eq hab ▸ ha
            simp only [Substitution.chase, Leaf.varNumber?, Leaf.isVariable, beq_false_of_ne ha,
              beq_false_of_ne hb]
            exact .some (.leaf i j hab)

/-- A binding that passes the occurs check in one run passes it in the other. -/
theorem Alike.exists_bind (h : s.Alike L s') {a b : Leaf} (hab : L.leaf a b) (ha : a.kind = .var)
    (ht : t.Alike L t') {s₁ : Substitution} (hbind : s.bind a t = .ok s₁) :
    ∃ s₁', s'.bind b t' = .ok s₁' ∧ s₁.Alike L s₁' := by
  have hnum := L.number_value hab ha
  have hsigned : (t.signed a.negated).Alike L (t'.signed b.negated) := by
    rw [← L.negated_eq hab ha]
    exact ht.signed _
  obtain ⟨hno, rfl⟩ := bind_eq_ok.mp hbind
  rw [h.reaches hnum hsigned] at hno
  exact ⟨_, bind_eq_ok.mpr ⟨hno, rfl⟩, h.insert hnum hsigned⟩

theorem rel_shapes (h : Option.Rel (Formula.Alike L) (s.value? u) (s'.value? v)) :
    Option.Rel (Formula.Alike L) (s.shapes u) (s'.shapes v) := by
  unfold shapes
  obtain ⟨hx, hy⟩ | ⟨x, y, hx, hy, hxy⟩ := cases_of_rel h
  · rw [hx, hy]
    exact .none
  · rw [hx, hy]
    exact .some (Formula.alike_shape.mpr hxy)

/-- The expanded values are alike, in whichever order the bindings have been expanded. -/
theorem Alike.expand {F : Fragment} (hs : s.Proper F) (hs' : s'.Proper F) (h : s.Alike L s')
    {r r' : Substitution} (hr : s.expand = .ok r) (hr' : s'.expand = .ok r')
    (huv : L.number u v) : Option.Rel (Formula.Alike L) (r.value? u) (r'.value? v) := by
  have hexp := expanded_of_expand hs hr
  have hexp' := expanded_of_expand hs' hr'
  -- The expanded values of the variables that a variable needs determine its own.
  induction u using hs.acyclic.induction generalizing v with
  | hstep u ih =>
      obtain ⟨hx, hy⟩ | ⟨t, t', ht, ht', halike⟩ := cases_of_rel (h.value? huv)
      · rw [(hexp.bound_iff u).mpr hx, (hexp'.bound_iff v).mpr hy]
        exact .none
      · rw [hexp.expanded u t ht, hexp'.expanded v t' ht']
        refine .some (Formula.alike_shape.mp ?_)
        rw [shape_apply hexp.solved, shape_apply hexp'.solved]
        exact halike.substitute fun z hz z' hzz' => rel_shapes (ih z ⟨t, ht, hz⟩ hzz')

end Substitution

namespace Unification

namespace State

/-- Two states between which a step makes no difference. The fresh variables still to come
correspond to each other in their order. -/
structure Alike (L : Likeness) (st st' : State) : Prop where
  bindings : st.bindings.Alike L st'.bindings
  fresh : ∀ n : Nat, L.number (st.fresh + n) (st'.fresh + n)
  queue : List.Forall₂ (fun p p' => p.1.Alike L p'.1 ∧ p.2.Alike L p'.2) st.queue st'.queue

variable {L : Likeness} {st st' st₁ : State} {l r l' r' : Formula Nat}

theorem Alike.bind (h : st.Alike L st') {a b : Leaf} {t t' : Formula Nat} (hab : L.leaf a b)
    (ha : a.kind = .var) (ht : t.Alike L t') {s : Substitution}
    (hbind : st.bindings.bind a t = .ok s) :
    ∃ s', st'.bindings.bind b t' = .ok s' ∧
      State.Alike L { st with bindings := s } { st' with bindings := s' } := by
  obtain ⟨s', hs', halike⟩ := h.bindings.exists_bind hab ha ht hbind
  exact ⟨s', hs', halike, h.fresh, h.queue⟩

theorem Alike.meets (h : st.Alike L st') (hl : l.Alike L l') (hr : r.Alike L r')
    (hmeets : st.Meets l r st₁) : ∃ st₁', st'.Meets l' r' st₁' ∧ st₁.Alike L st₁' := by
  cases hmeets with
  | parts i j c =>
      cases hl with
      | node _ i' _ hl₁ hr₁ =>
          cases hr with
          | node _ j' _ hl₂ hr₂ =>
              refine ⟨_, .parts i' j' c _ _ _ _, h.bindings, h.fresh, ?_⟩
              refine List.rel_append h.queue ?_
              exact .cons ⟨Formula.alike_place.mpr hl₁, Formula.alike_place.mpr hl₂⟩
                (.cons ⟨Formula.alike_place.mpr hr₁, Formula.alike_place.mpr hr₂⟩ .nil)
  | same i j ha =>
      cases hl with
      | leaf i i' hb =>
          cases hr with
          | leaf j j' hb' =>
              obtain rfl := L.leaf_unique hb hb' ha
              exact ⟨st', .same i' j' (L.kind_eq hb ▸ ha), h⟩
  | left i ha ht hbind =>
      cases hl with
      | leaf i i' hab =>
          obtain ⟨s', hs', halike⟩ := h.bind hab ha hr hbind
          exact ⟨_, .left i' ((L.kind_eq hab).symm.trans ha) (hr.rigid ht) hs', halike⟩
  | right j hb ht hbind =>
      cases hr with
      | leaf j j' hab =>
          obtain ⟨s', hs', halike⟩ := h.bind hab hb hl hbind
          exact ⟨_, .right j' ((L.kind_eq hab).symm.trans hb) (hl.rigid ht) hs', halike⟩
  | fresh i j ha hb hne hbind hbind' =>
      cases hl with
      | leaf i i' haa' =>
          cases hr with
          | leaf j j' hbb' =>
              have hleaf : (Formula.leaf 0 (Leaf.var st.fresh)).Alike L
                  (Formula.leaf 0 (Leaf.var st'.fresh)) :=
                .leaf 0 0 (L.leaf_var (by simpa using h.fresh 0))
              -- Both variables are bound to the fresh one, the second in the state that the first
              -- leaves.
              obtain ⟨s, hs, hmid⟩ := h.bind haa' ha hleaf hbind
              obtain ⟨s', hs', hend⟩ := hmid.bind hbb' hb hleaf hbind'
              refine ⟨_, .fresh i' j' ((L.kind_eq haa').symm.trans ha)
                ((L.kind_eq hbb').symm.trans hb) ?_ hs hs', hend.bindings, fun n => ?_, hend.queue⟩
              · exact fun he => hne
                  ((L.number_inj (L.number_value haa' ha) (L.number_value hbb' hb)).mpr he)
              · have hnext := h.fresh (n + 1)
                rwa [Int.natCast_succ, Int.add_comm (n : Int) 1, ← Int.add_assoc,
                  ← Int.add_assoc] at hnext

theorem Alike.step (h : st.Alike L st') (hl : l.Alike L l') (hr : r.Alike L r')
    (hstep : st.step l r = .ok st₁) : ∃ st₁', st'.step l' r' = .ok st₁' ∧ st₁.Alike L st₁' := by
  have hlength : st.bindings.length = st'.bindings.length := h.bindings.length_eq
  rw [State.step] at hstep
  split at hstep
  · rename_i l₁ r₁ hl₁ hr₁
    have hchase {t t' t₁ : Formula Nat} (ht : t.Alike L t')
        (hc : st.bindings.chase st.bindings.length t = some t₁) :
        ∃ t₁', st'.bindings.chase st'.bindings.length t' = some t₁' ∧ t₁.Alike L t₁' := by
      obtain ⟨hx, -⟩ | ⟨x, y, hx, hy, hxy⟩ := cases_of_rel (h.bindings.chase st.bindings.length ht)
      · rw [hc] at hx
        cases hx
      · obtain rfl : t₁ = x := Option.some.inj (hc.symm.trans hx)
        exact ⟨y, hlength ▸ hy, hxy⟩
    obtain ⟨l₁', hl₁', hl⟩ := hchase hl hl₁
    obtain ⟨r₁', hr₁', hr⟩ := hchase hr hr₁
    obtain ⟨st₁', hmeets, halike⟩ := h.meets hl hr (meets_of_meet hstep)
    refine ⟨st₁', ?_, halike⟩
    rw [State.step, hl₁', hr₁']
    exact meet_of_meets hmeets
  · cases hstep

theorem Alike.turn (h : st.Alike L st') (hturn : st.Turn st₁) :
    ∃ st₁', st'.Turn st₁' ∧ st₁.Alike L st₁' := by
  obtain ⟨l, r, rest, hq, hstep⟩ := hturn
  have hqueue := h.queue
  rw [hq, List.forall₂_cons_left_iff] at hqueue
  obtain ⟨⟨l', r'⟩, rest', ⟨hl, hr⟩, hrest, hq'⟩ := hqueue
  have hpopped : State.Alike L { st with queue := rest } { st' with queue := rest' } :=
    ⟨h.bindings, h.fresh, hrest⟩
  obtain ⟨st₁', hstep', halike⟩ := hpopped.step hl hr hstep
  exact ⟨st₁', ⟨l', r', rest', hq', hstep'⟩, halike⟩

/-- Whatever one run comes to, the other comes to something alike in as many turns. -/
theorem Alike.runs {n : Nat} (h : st.Alike L st') (hruns : st.Runs n st₁) :
    ∃ st₁', st'.Runs n st₁' ∧ st₁.Alike L st₁' := by
  induction hruns with
  | start => exact ⟨st', .start, h⟩
  | turn _ hturn ih =>
      obtain ⟨st₂', hruns', halike⟩ := ih
      obtain ⟨st₃', hturn', halike'⟩ := halike.turn hturn
      exact ⟨st₃', .turn hruns' hturn', halike'⟩

end State

end Unification

open Unification

variable {L : Likeness} {floor floor' : Int} {l r l' r' : Formula Nat}

/-- Alike operands have alike unifiers, which make alike formulas of alike ones. -/
theorem exists_unifyAbove_of_alike (hl : l.Alike L l') (hr : r.Alike L r')
    (hfresh : ∀ n : Nat, L.number ((State.initial floor l r).fresh + n)
      ((State.initial floor' l' r').fresh + n))
    {s : Substitution} (h : unifyAbove floor l r = .ok s) :
    ∃ s', unifyAbove floor' l' r' = .ok s' ∧
      ∀ t t' : Formula Nat, t.Alike L t' → (s.apply t).Alike L (s'.apply t') := by
  have hstart : (State.initial floor l r).Alike L (State.initial floor' l' r') :=
    ⟨.nil, hfresh, .cons ⟨hl, hr⟩ .nil⟩
  obtain ⟨n, st, hruns, ⟨hq, s₁, hexpand, hs₁⟩ | ⟨x, y, rest, e, -, -, he⟩⟩ :=
    exists_runs_of_unifyAbove floor l r
  · obtain rfl : s₁ = s := Except.ok.inj (hs₁.symm.trans h)
    obtain ⟨st', hruns', halike⟩ := hstart.runs hruns
    have hq' : st'.queue = [] := by
      have hqueue := halike.queue
      rwa [hq, List.forall₂_nil_left_iff] at hqueue
    have hst := (hruns.proper (State.proper_initial _ l.within_full r.within_full)).bindings
    have hst' := (hruns'.proper (State.proper_initial _ l'.within_full r'.within_full)).bindings
    obtain ⟨s', hexpand'⟩ := hst'.exists_expand
    refine ⟨s', unifyAbove_of_runs hruns' hq' hexpand', fun t t' ht => ?_⟩
    rw [← Formula.alike_shape,
      Substitution.shape_apply (Substitution.expanded_of_expand hst hexpand).solved,
      Substitution.shape_apply (Substitution.expanded_of_expand hst' hexpand').solved]
    exact ht.substitute fun u _ v huv =>
      Substitution.rel_shapes (halike.bindings.expand hst hst' hexpand hexpand' huv)
  · rw [he] at h
    cases h

/-- Alike premises have conclusions that are the normal forms of alike formulas. -/
theorem exists_detach_of_alike {minor major minor' major' a a' c c' f : Formula Nat} {i j : Nat}
    (hshift : major.shiftVariables (minor.maxVariable + 1) = .node i .implication a c)
    (hshift' : major'.shiftVariables (minor'.maxVariable + 1) = .node j .implication a' c')
    (hminor : minor.Alike L minor') (ha : a.Alike L a') (hc : c.Alike L c')
    (hfresh : ∀ n : Nat,
      L.number ((State.initial ((Formula.node i .implication a c).maxVariable + 1) minor
          a.place).fresh + n)
        ((State.initial ((Formula.node j .implication a' c').maxVariable + 1) minor'
          a'.place).fresh + n))
    (h : detach minor major = some f) :
    ∃ t t' : Formula Nat, t.Alike L t' ∧ t.normalize = f ∧
      detach minor' major' = some t'.normalize := by
  obtain ⟨i₁, a₁, c₁, s, hnode, hs, rfl⟩ := detach_eq_some_iff.mp h
  obtain ⟨-, -, rfl, rfl⟩ := Formula.node.inj (hshift.symm.trans hnode)
  rw [hshift] at hs
  obtain ⟨s', hs', happly⟩ :=
    exists_unifyAbove_of_alike hminor (Formula.alike_place.mpr ha) hfresh hs
  refine ⟨_, _, happly _ _ (Formula.alike_place.mpr hc), rfl, ?_⟩
  exact detach_eq_some_iff.mpr ⟨j, a', c', s', hshift', by rw [hshift', hs'], rfl⟩

end Detachment

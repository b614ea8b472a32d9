import Detachment.Proofs.Bindings

/-!
# Unification makes its operands equal

An assignment solves a state of the algorithm if it gives every bound variable the value of its
formula and both sides of every queued pair the same value. Each step keeps the bindings acyclic and
turns solutions of the new state into solutions of the old one, so whatever solves the last state
solves the first. Expanding the bindings yields a substitution through which every assignment
becomes such a solution.

All of this holds in every meaning. Read in shapes, it says that the operands become the same
formula, and read in truth values, that they become equivalent.
-/
namespace Detachment

namespace Substitution

/-- What the bindings of the algorithm satisfy all along. -/
structure Proper (F : Fragment) (s : Substitution) : Prop where
  nodup : (s.map Prod.fst).Nodup
  filled : ∀ b ∈ s, b.2.isSome
  within : s.Within F
  acyclic : s.Acyclic

theorem proper_nil (F : Fragment) : Proper F [] where
  nodup := by simp
  filled := by simp
  within := by simp [Within, value?]
  acyclic v h := by
    obtain ⟨_, ⟨_, h, _⟩, _⟩ := Relation.TransGen.head'_iff.mp h
    simp [value?] at h

/-- Every bound variable has the value of its formula. -/
def Satisfied {D : Type} (M : Meaning D) (vars consts : Int → D) (s : Substitution) : Prop :=
  ∀ v t, s.value? v = some t → vars v = t.value M vars consts

theorem bind_eq_ok {s s' : Substitution} {a : Leaf} {t : Formula Nat} :
    s.bind a t = .ok s' ↔ s.reaches a.value (t.signed a.negated) = false ∧
      s' = s.insert a.value (some (t.signed a.negated)) := by
  unfold bind
  dsimp only
  split
  · rename_i h
    simp [h]
  · rename_i h
    simp only [h, Except.ok.injEq, true_and]
    exact eq_comm

theorem bind_eq_error {s : Substitution} {a : Leaf} {t : Formula Nat} {e : UnifyError} :
    s.bind a t = .error e ↔ s.reaches a.value (t.signed a.negated) = true ∧
      e = .occursCheck a.value (t.signed a.negated) := by
  unfold bind
  dsimp only
  split
  · rename_i h
    simp only [h, Except.error.injEq, true_and]
    exact eq_comm
  · rename_i h
    simp [h]

/-- A binding changes the value of its own variable only. -/
theorem value?_bind {s s' : Substitution} {a : Leaf} {t : Formula Nat} (h : s.bind a t = .ok s')
    (v : Int) :
    s'.value? v = if v = a.value then some (t.signed a.negated) else s.value? v := by
  obtain ⟨-, rfl⟩ := bind_eq_ok.mp h
  exact value?_insert ..

theorem value?_bind_of_ne {s s' : Substitution} {a : Leaf} {t : Formula Nat}
    (h : s.bind a t = .ok s') {v : Int} (hne : v ≠ a.value) : s'.value? v = s.value? v := by
  rw [value?_bind h, if_neg hne]

theorem within_bind {F : Fragment} {s s' : Substitution} {a : Leaf} {t : Formula Nat}
    (hs : s.Within F) (ht : t.Within F) (h : s.bind a t = .ok s') : s'.Within F := by
  intro v w hw
  rw [value?_bind h] at hw
  split at hw
  · obtain rfl := Option.some.inj hw
    exact ht.signed _
  · exact hs v w hw

theorem Proper.bind {F : Fragment} {s s' : Substitution} {a : Leaf} {t : Formula Nat}
    (hs : s.Proper F) (ha : s.value? a.value = none) (ht : t.Within F)
    (h : s.bind a t = .ok s') : s'.Proper F := by
  have hwithin := within_bind hs.within ht h
  obtain ⟨hno, rfl⟩ := bind_eq_ok.mp h
  refine ⟨nodup_insert hs.nodup _ _, fun b hb => ?_, hwithin,
    acyclic_insert hs.acyclic ha (not_path_of_reaches hno)⟩
  obtain rfl | hb := List.mem_cons.mp hb
  · rfl
  · exact hs.filled b (List.mem_filter.mp hb).1

section solutions

variable {D : Type} {M : Meaning D} {vars consts : Int → D}

/-- If the leaf was unbound, then what satisfies the extended bindings satisfies the old ones and
makes the leaf equal to the formula. -/
theorem Satisfied.of_bind {s s' : Substitution} {a : Leaf} {t : Formula Nat}
    (hvar : a.isVariable) (ha : s.value? a.value = none) (ht : t.Within .lettered)
    (h : s.bind a t = .ok s') (hsat : s'.Satisfied M vars consts) :
    s.Satisfied M vars consts ∧ a.meaning M vars consts = t.value M vars consts := by
  constructor
  · intro v w hw
    have hne : v ≠ a.value := by rintro rfl; simp [ha] at hw
    exact hsat v w ((value?_bind_of_ne h hne).trans hw)
  · have hv := hsat a.value _ ((value?_bind h _).trans (if_pos rfl))
    rw [Formula.value_signed M vars consts ht] at hv
    simp only [Leaf.meaning, hvar, if_true, hv]
    cases a.negated <;> simp [M.neg_neg]

theorem Satisfied.chase {s : Substitution} (hsat : s.Satisfied M vars consts)
    (hs : s.Within .lettered) {n : Nat} {t t' : Formula Nat} (ht : t.Within .lettered)
    (h : s.chase n t = some t') : t'.value M vars consts = t.value M vars consts := by
  have hboth := chase_preserves (s := s)
    (P := fun x => x.Within .lettered ∧ x.value M vars consts = t.value M vars consts)
    (fun i a v w hv hw hx => ?_) h ⟨ht, rfl⟩
  · exact hboth.2
  · refine ⟨(hs v w hw).signed _, ?_⟩
    obtain ⟨hvar, rfl⟩ := Leaf.varNumber?_eq_some.mp hv
    rw [← hx.2, Formula.value_signed M vars consts (hs _ w hw), ← hsat _ w hw]
    simp [Formula.value, Leaf.meaning, hvar]

end solutions

theorem within_chase {F : Fragment} {s : Substitution} (hs : s.Within F) {n : Nat}
    {t t' : Formula Nat} (ht : t.Within F) (h : s.chase n t = some t') : t'.Within F :=
  chase_preserves (fun _ _ v w _ hw _ => (hs v w hw).signed _) h ht

end Substitution

theorem exists_of_bind_eq_ok {ε β γ : Type} {x : Except ε β} {f : β → Except ε γ} {c : γ}
    (h : x >>= f = .ok c) : ∃ b, x = .ok b ∧ f b = .ok c := by
  cases x with
  | error e => cases h
  | ok b => exact ⟨b, rfl, h⟩

/-- A compound formula or a constant. -/
def Formula.Rigid {α : Type} : Formula α → Prop
  | leaf _ a => a.kind = .const
  | node _ _ _ _ => True

namespace Unification

namespace State

/-- What a step can do with two formulas that are not bound variables. -/
inductive Meets (st : State) : Formula Nat → Formula Nat → State → Prop where
  | parts (i j : Nat) (c : Connective) (l r l' r' : Formula Nat) :
      Meets st (.node i c l r) (.node j c l' r')
        { st with queue := st.queue ++ [(l.place, l'.place), (r.place, r'.place)] }
  | same (i j : Nat) {a : Leaf} (ha : a.kind ≠ .unknown) : Meets st (.leaf i a) (.leaf j a) st
  | left (i : Nat) {a : Leaf} {t : Formula Nat} {s : Substitution} (ha : a.kind = .var)
      (ht : t.Rigid) (h : st.bindings.bind a t = .ok s) :
      Meets st (.leaf i a) t { st with bindings := s }
  | right (j : Nat) {b : Leaf} {t : Formula Nat} {s : Substitution} (hb : b.kind = .var)
      (ht : t.Rigid) (h : st.bindings.bind b t = .ok s) :
      Meets st t (.leaf j b) { st with bindings := s }
  | fresh (i j : Nat) {a b : Leaf} {s s' : Substitution} (ha : a.kind = .var) (hb : b.kind = .var)
      (hne : a.value ≠ b.value) (h : st.bindings.bind a (.leaf 0 (.var st.fresh)) = .ok s)
      (h' : s.bind b (.leaf 0 (.var st.fresh)) = .ok s') :
      Meets st (.leaf i a) (.leaf j b) { st with bindings := s', fresh := st.fresh + 1 }

theorem bindings_of_ok {st st' : State} {a : Leaf} {t : Formula Nat}
    (h : (do return { st with bindings := ← st.bindings.bind a t } : Except UnifyError State) =
      .ok st') : ∃ s, st.bindings.bind a t = .ok s ∧ st' = { st with bindings := s } := by
  obtain ⟨s, hs, h⟩ := exists_of_bind_eq_ok h
  exact ⟨s, hs, (Except.ok.inj h).symm⟩

theorem meets_of_meet {st st' : State} {l r : Formula Nat} (h : st.meet l r = .ok st') :
    st.Meets l r st' := by
  cases l with
  | node i c l r₀ =>
      cases r with
      | node j c' l' r' =>
          rw [meet] at h
          split at h
          · rename_i hc
            cases h
            exact hc ▸ .parts i j c l r₀ l' r'
          · cases h
      | leaf j b =>
          rw [meet] at h
          split at h
          · rename_i hb
            obtain ⟨s, hs, rfl⟩ := bindings_of_ok h
            exact .right j hb trivial hs
          · cases h
  | leaf i a =>
      cases r with
      | node j c' l' r' =>
          rw [meet] at h
          split at h
          · rename_i ha
            obtain ⟨s, hs, rfl⟩ := bindings_of_ok h
            exact .left i ha trivial hs
          · cases h
      | leaf j b =>
          rw [meet] at h
          split at h
          · rename_i ha hb
            split at h
            · rename_i hab
              cases h
              exact hab ▸ .same i j (by simp [ha])
            · cases h
          · rename_i ha hb
            split at h
            · rename_i hv
              split at h
              · rename_i ho
                cases h
                -- Same kind, number and operation, so the leaves are equal.
                have hab : a = b := by
                  cases a; cases b; simp_all
                exact hab ▸ .same i j (by simp [ha])
              · cases h
            · rename_i hne
              obtain ⟨s, hs, h⟩ := exists_of_bind_eq_ok h
              obtain ⟨s', hs', h⟩ := exists_of_bind_eq_ok h
              cases h
              exact .fresh i j ha hb hne hs hs'
          · rename_i ha hb
            obtain ⟨s, hs, rfl⟩ := bindings_of_ok h
            exact .left i ha hb hs
          · rename_i ha hb
            obtain ⟨s, hs, rfl⟩ := bindings_of_ok h
            exact .right j hb ha hs
          · cases h

theorem meet_of_meets {st st' : State} {l r : Formula Nat} (h : st.Meets l r st') :
    st.meet l r = .ok st' := by
  cases h with
  | parts i j c l r l' r' => simp [meet]
  | @same i j a ha =>
      cases hk : a.kind with
      | unknown => exact absurd hk ha
      | const => simp [meet, hk]
      | var => simp [meet, hk]
  | left i ha ht h =>
      cases r with
      | leaf j b =>
          have hb : b.kind = .const := ht
          simp only [meet, ha, hb, h]
          rfl
      | node j c l r =>
          simp only [meet, ha, h]
          rfl
  | right j hb ht h =>
      cases l with
      | leaf i a =>
          have ha : a.kind = .const := ht
          simp only [meet, ha, hb, h]
          rfl
      | node i c l r =>
          simp only [meet, hb, h]
          rfl
  | fresh i j ha hb hne h h' =>
      simp only [meet, ha, hb, hne, h, h', if_false, Bind.bind, Except.bind]
      rfl

/-- What the algorithm satisfies all along. -/
structure Proper (F : Fragment) (st : State) : Prop where
  bindings : st.bindings.Proper F
  queue : ∀ p ∈ st.queue, p.1.Within F ∧ p.2.Within F

variable {F : Fragment} {st st' : State} {l r : Formula Nat}

theorem Proper.meets (hst : st.Proper F) (hl : l.Within F) (hr : r.Within F)
    (hloose : st.bindings.Loose l) (hloose' : st.bindings.Loose r) (h : st.Meets l r st') :
    st'.Proper F := by
  cases h with
  | parts i j c l r l' r' =>
      refine ⟨hst.bindings, fun p hp => ?_⟩
      obtain hp | hp := List.mem_append.mp hp
      · exact hst.queue p hp
      · obtain rfl | rfl : p = (l.place, l'.place) ∨ p = (r.place, r'.place) := by simpa using hp
        · exact ⟨(l.within_place).mpr hl.2.1, (l'.within_place).mpr hr.2.1⟩
        · exact ⟨(r.within_place).mpr hl.2.2, (r'.within_place).mpr hr.2.2⟩
  | same i j ha => exact hst
  | left i ha ht h =>
      exact ⟨hst.bindings.bind (hloose _ (Leaf.varNumber?_of_kind ha)) hr h, hst.queue⟩
  | right j hb ht h =>
      exact ⟨hst.bindings.bind (hloose' _ (Leaf.varNumber?_of_kind hb)) hl h, hst.queue⟩
  | fresh i j ha hb hne h h' =>
      have hfresh : (Formula.leaf 0 (.var st.fresh)).Within F := F.leaf_var st.fresh
      have ha' := hloose _ (Leaf.varNumber?_of_kind ha)
      have hb' := hloose' _ (Leaf.varNumber?_of_kind hb)
      have hs := hst.bindings.bind ha' hfresh h
      have hmid := (Substitution.value?_bind_of_ne h hne.symm).trans hb'
      exact ⟨hs.bind hmid hfresh h', hst.queue⟩

/-- The first pair is as proper as what remains without it. -/
theorem Proper.pop {rest : List (Formula Nat × Formula Nat)} (hst : st.Proper F)
    (hq : st.queue = (l, r) :: rest) :
    (l.Within F ∧ r.Within F) ∧ State.Proper F { st with queue := rest } := by
  have hqueue := hst.queue
  rw [hq, List.forall_mem_cons] at hqueue
  exact ⟨hqueue.1, hst.bindings, hqueue.2⟩

/-- A step follows both sides to what is not bound, and then they meet. -/
theorem step_cases (hst : st.Proper F) (hl : l.Within F) (hr : r.Within F)
    (h : st.step l r = .ok st') :
    ∃ l' r', st.bindings.chase st.bindings.length l = some l' ∧
      st.bindings.chase st.bindings.length r = some r' ∧ l'.Within F ∧ r'.Within F ∧
      st.bindings.Loose l' ∧ st.bindings.Loose r' ∧ st.Meets l' r' st' := by
  obtain ⟨l', hl', hloose⟩ := Substitution.exists_chase hst.bindings.filled hst.bindings.acyclic l
  obtain ⟨r', hr', hloose'⟩ := Substitution.exists_chase hst.bindings.filled hst.bindings.acyclic r
  rw [step, hl', hr'] at h
  exact ⟨l', r', hl', hr', Substitution.within_chase hst.bindings.within hl hl',
    Substitution.within_chase hst.bindings.within hr hr', hloose, hloose', meets_of_meet h⟩

theorem Proper.step (hst : st.Proper F) (hl : l.Within F) (hr : r.Within F)
    (h : st.step l r = .ok st') : st'.Proper F := by
  obtain ⟨l', r', -, -, hl, hr, hloose, hloose', hmeets⟩ := step_cases hst hl hr h
  exact hst.meets hl hr hloose hloose' hmeets

section solutions

variable {D : Type} {M : Meaning D} {vars consts : Int → D}

/-- The assignment respects the bindings and makes the two sides of every pair equal. -/
structure Solved (M : Meaning D) (vars consts : Int → D) (st : State) : Prop where
  bindings : st.bindings.Satisfied M vars consts
  queue : ∀ p ∈ st.queue, p.1.value M vars consts = p.2.value M vars consts

theorem Solved.of_meets (hl : l.Within .lettered) (hr : r.Within .lettered)
    (hloose : st.bindings.Loose l) (hloose' : st.bindings.Loose r) (h : st.Meets l r st')
    (hsol : st'.Solved M vars consts) :
    st.Solved M vars consts ∧ l.value M vars consts = r.value M vars consts := by
  cases h with
  | parts i j c l r l' r' =>
      have hleft : l.value M vars consts = l'.value M vars consts := by
        simpa using hsol.queue (l.place, l'.place) (by simp)
      have hright : r.value M vars consts = r'.value M vars consts := by
        simpa using hsol.queue (r.place, r'.place) (by simp)
      refine ⟨⟨hsol.bindings, fun p hp => hsol.queue p (by simp [hp])⟩, ?_⟩
      rw [Formula.value, Formula.value, hleft, hright]
  | same i j ha => exact ⟨hsol, rfl⟩
  | left i ha ht h =>
      obtain ⟨hsat, heq⟩ := Substitution.Satisfied.of_bind (Leaf.isVariable_of_kind ha)
        (hloose _ (Leaf.varNumber?_of_kind ha)) hr h hsol.bindings
      exact ⟨⟨hsat, hsol.queue⟩, heq⟩
  | right j hb ht h =>
      obtain ⟨hsat, heq⟩ := Substitution.Satisfied.of_bind (Leaf.isVariable_of_kind hb)
        (hloose' _ (Leaf.varNumber?_of_kind hb)) hl h hsol.bindings
      exact ⟨⟨hsat, hsol.queue⟩, heq.symm⟩
  | fresh i j ha hb hne h h' =>
      have hfresh : (Formula.leaf 0 (.var st.fresh)).Within .lettered :=
        Fragment.lettered.leaf_var st.fresh
      have ha' := hloose _ (Leaf.varNumber?_of_kind ha)
      have hb' := hloose' _ (Leaf.varNumber?_of_kind hb)
      obtain ⟨hmid, hright⟩ := Substitution.Satisfied.of_bind (Leaf.isVariable_of_kind hb)
        ((Substitution.value?_bind_of_ne h hne.symm).trans hb') hfresh h' hsol.bindings
      obtain ⟨hsat, hleft⟩ := Substitution.Satisfied.of_bind (Leaf.isVariable_of_kind ha) ha'
        hfresh h hmid
      exact ⟨⟨hsat, hsol.queue⟩, hleft.trans hright.symm⟩

theorem Solved.of_step (hst : st.Proper .lettered) (hl : l.Within .lettered)
    (hr : r.Within .lettered) (h : st.step l r = .ok st') (hsol : st'.Solved M vars consts) :
    st.Solved M vars consts ∧ l.value M vars consts = r.value M vars consts := by
  obtain ⟨l', r', hl', hr', hwl, hwr, hloose, hloose', hmeets⟩ := step_cases hst hl hr h
  obtain ⟨hsol, heq⟩ := hsol.of_meets hwl hwr hloose hloose' hmeets
  refine ⟨hsol, ?_⟩
  rw [← hsol.bindings.chase hst.bindings.within hl hl', heq,
    hsol.bindings.chase hst.bindings.within hr hr']

end solutions

end State

open State

variable {F : Fragment} {s : Substitution} {fit : Int → Int}

/-- How the fresh variable is stored does not matter to what is proper. -/
theorem State.Proper.refresh {st : State} (hst : st.Proper F) (v : Int) :
    State.Proper F { st with fresh := v } :=
  ⟨hst.bindings, hst.queue⟩

section turns

variable (fit : Int → Int) (fuel : Nat) {st st' : State} {l r : Formula Nat}
  {rest : List (Formula Nat × Formula Nat)}

theorem loopBy_of_nil (hq : st.queue = []) :
    loopBy fit (fuel + 1) st = some (.ok st.bindings) := by
  rw [loopBy, hq]

theorem loopBy_of_error {e : UnifyError} (hq : st.queue = (l, r) :: rest)
    (hstep : { st with queue := rest }.step l r = .error e) :
    loopBy fit (fuel + 1) st = some (.error e) := by
  rw [loopBy, hq]
  dsimp only
  rw [hstep]

theorem loopBy_of_ok (hq : st.queue = (l, r) :: rest)
    (hstep : { st with queue := rest }.step l r = .ok st') :
    loopBy fit (fuel + 1) st = loopBy fit fuel { st' with fresh := fit st'.fresh } := by
  rw [loopBy, hq]
  dsimp only
  rw [hstep]

end turns

/-- One turn of the loop: there is nothing left to do, or a step fails, or the loop goes on from the
state after the step. -/
theorem loopBy_succ (fit : Int → Int) (fuel : Nat) (st : State) :
    (st.queue = [] ∧ loopBy fit (fuel + 1) st = some (.ok st.bindings)) ∨
      ∃ l r rest, st.queue = (l, r) :: rest ∧
        ((∃ e, { st with queue := rest }.step l r = .error e ∧
            loopBy fit (fuel + 1) st = some (.error e)) ∨
          ∃ st', { st with queue := rest }.step l r = .ok st' ∧
            loopBy fit (fuel + 1) st = loopBy fit fuel { st' with fresh := fit st'.fresh }) := by
  cases hq : st.queue with
  | nil => exact .inl ⟨rfl, loopBy_of_nil fit fuel hq⟩
  | cons p rest =>
      refine .inr ⟨p.1, p.2, rest, rfl, ?_⟩
      cases hstep : { st with queue := rest }.step p.1 p.2 with
      | error e => exact .inl ⟨e, rfl, loopBy_of_error fit fuel hq hstep⟩
      | ok st' => exact .inr ⟨st', rfl, loopBy_of_ok fit fuel hq hstep⟩

/-- One turn of the loop with fresh variables of any size. -/
theorem loop_succ (fuel : Nat) (st : State) :
    (st.queue = [] ∧ loop (fuel + 1) st = some (.ok st.bindings)) ∨
      ∃ l r rest, st.queue = (l, r) :: rest ∧
        ((∃ e, { st with queue := rest }.step l r = .error e ∧
            loop (fuel + 1) st = some (.error e)) ∨
          ∃ st', { st with queue := rest }.step l r = .ok st' ∧
            loop (fuel + 1) st = loop fuel st') :=
  loopBy_succ id fuel st

/-- One turn of the loop that ends in success. -/
theorem loopBy_cases {fuel : Nat} {st : State} (h : loopBy fit (fuel + 1) st = some (.ok s)) :
    (st.queue = [] ∧ st.bindings = s) ∨
      ∃ l r rest st', st.queue = (l, r) :: rest ∧ { st with queue := rest }.step l r = .ok st' ∧
        loopBy fit fuel { st' with fresh := fit st'.fresh } = some (.ok s) := by
  obtain ⟨hq, hloop⟩ | ⟨l, r, rest, hq, ⟨e, -, hloop⟩ | ⟨st', hstep, hloop⟩⟩ :=
    loopBy_succ fit fuel st
  · rw [hloop] at h
    exact .inl ⟨hq, by simpa using h⟩
  · rw [hloop] at h
    simp at h
  · exact .inr ⟨l, r, rest, st', hq, hstep, hloop ▸ h⟩

theorem proper_of_loopBy {fuel : Nat} {st : State} (hst : st.Proper F)
    (h : loopBy fit fuel st = some (.ok s)) : s.Proper F := by
  induction fuel generalizing st with
  | zero => cases h
  | succ fuel ih =>
      obtain ⟨-, rfl⟩ | ⟨l, r, rest, st', hq, hstep, hloop⟩ := loopBy_cases h
      · exact hst.bindings
      · obtain ⟨hhead, hrest⟩ := hst.pop hq
        exact ih ((hrest.step hhead.1 hhead.2 hstep).refresh _) hloop

/-- What satisfies the final bindings solves the state the loop began with. -/
theorem solved_of_loopBy {D : Type} {M : Meaning D} {vars consts : Int → D} {fuel : Nat}
    {st : State} (hst : st.Proper .lettered) (h : loopBy fit fuel st = some (.ok s))
    (hsat : s.Satisfied M vars consts) : st.Solved M vars consts := by
  induction fuel generalizing st with
  | zero => cases h
  | succ fuel ih =>
      obtain ⟨hq, rfl⟩ | ⟨l, r, rest, st', hq, hstep, hloop⟩ := loopBy_cases h
      · exact ⟨hsat, by simp [hq]⟩
      · obtain ⟨hhead, hrest⟩ := hst.pop hq
        have hsol' := ih ((hrest.step hhead.1 hhead.2 hstep).refresh _) hloop
        obtain ⟨hsol, heq⟩ := Solved.of_step hrest hhead.1 hhead.2 hstep
          ⟨hsol'.bindings, hsol'.queue⟩
        refine ⟨hsol.bindings, fun p hp => ?_⟩
        rw [hq] at hp
        obtain rfl | hp := List.mem_cons.mp hp
        · exact heq
        · exact hsol.queue p hp

end Unification

end Detachment

import Detachment.Proofs.Termination

/-!
# The runs of unification

A `Turn` takes the first pair off the queue and works it off without failing. Runs are sequences of
turns, described without any bound on their length, but none that begins where unification begins is
as long as the budget. In every state on the way a formula can be followed through the bindings to
its end, only variables that are not yet bound are bound, and once the queue is empty, all bindings
can be expanded. So unification fails for one reason only: two formulas that have to become equal do
not meet.
-/
namespace Detachment

namespace Substitution

variable {F : Fragment} {s : Substitution} {t t' : Formula Nat}

/-- A formula that has been followed to its end stays there, however many more steps are allowed. -/
theorem Proper.chase_mono (hs : s.Proper F) {n k : Nat} (h : s.chase n t = some t')
    (hloose : s.Loose t') (hk : n ≤ k) : s.chase k t = some t' := by
  induction n generalizing t k with
  | zero =>
      rw [chase, Option.some.injEq] at h
      subst h
      exact chase_of_loose hs.filled hloose k
  | succ n ih =>
      obtain ⟨k, rfl⟩ : ∃ m, k = m + 1 := ⟨k - 1, by omega⟩
      cases t with
      | node i c l r => exact h
      | leaf i a =>
          rw [chase] at h ⊢
          rcases hx : a.varNumber?.bind fun v => s.lookup v with _ | _ | w <;> rw [hx] at h
          · exact h
          · exact h
          · exact ih h (by omega)

/-- Within as many steps as there are bindings every formula is followed to its end. -/
theorem Proper.exists_chase_eq (hs : s.Proper F) (t : Formula Nat) :
    ∃ t', s.Loose t' ∧ ∀ k, s.length ≤ k → s.chase k t = some t' := by
  obtain ⟨t', ht', hloose⟩ := exists_chase hs.filled hs.acyclic t
  exact ⟨t', hloose, fun k hk => hs.chase_mono ht' hloose hk⟩

end Substitution

namespace Unification

namespace State

variable {F : Fragment} {st st₁ st₂ : State} {l r : Formula Nat}

/-! ### Turns and runs -/

/-- The first pair is worked off without failing. -/
def Turn (st st' : State) : Prop :=
  ∃ l r rest, st.queue = (l, r) :: rest ∧ { st with queue := rest }.step l r = .ok st'

/-- A number of turns leads from the first state to the second. -/
inductive Runs (st : State) : Nat → State → Prop where
  | start : Runs st 0 st
  | turn {n : Nat} {st₁ st₂ : State} : Runs st n st₁ → st₁.Turn st₂ → Runs st (n + 1) st₂

theorem Turn.runs {n : Nat} (hturn : st.Turn st₁) (h : st₁.Runs n st₂) : st.Runs (n + 1) st₂ := by
  induction h with
  | start => exact .turn .start hturn
  | turn _ hlast ih => exact .turn ih hlast

theorem Turn.loop_eq (h : st.Turn st₁) (fuel : Nat) : loop (fuel + 1) st = loop fuel st₁ := by
  obtain ⟨l, r, rest, hq, hstep⟩ := h
  exact loopBy_of_ok id fuel hq hstep

theorem Runs.loop_eq {n : Nat} (h : st.Runs n st₁) (fuel : Nat) :
    loop (n + fuel) st = loop fuel st₁ := by
  induction h generalizing fuel with
  | start => rw [Nat.zero_add]
  | turn _ hturn ih => rw [Nat.add_assoc, Nat.add_comm 1, ih, hturn.loop_eq]

/-- An answer of the loop is given where a run ends: at an empty queue or at a step that fails. -/
theorem exists_runs_of_loop {fuel : Nat} {x : Except UnifyError Substitution}
    (h : loop fuel st = some x) :
    ∃ n st', st.Runs n st' ∧ ((st'.queue = [] ∧ x = .ok st'.bindings) ∨
      ∃ l r rest e, st'.queue = (l, r) :: rest ∧ { st' with queue := rest }.step l r = .error e ∧
        x = .error e) := by
  induction fuel generalizing st with
  | zero => cases h
  | succ fuel ih =>
      obtain ⟨hq, hloop⟩ | ⟨l, r, rest, hq, ⟨e, hstep, hloop⟩ | ⟨st₁, hstep, hloop⟩⟩ :=
        loop_succ fuel st
      · exact ⟨0, st, .start, .inl ⟨hq, Option.some.inj (h.symm.trans hloop)⟩⟩
      · exact ⟨0, st, .start,
          .inr ⟨l, r, rest, e, hq, hstep, Option.some.inj (h.symm.trans hloop)⟩⟩
      · obtain ⟨n, st', hruns, hend⟩ := ih (hloop.symm.trans h)
        exact ⟨n + 1, st', Turn.runs ⟨l, r, rest, hq, hstep⟩ hruns, hend⟩

theorem Turn.proper (hst : st.Proper F) (h : st.Turn st₁) : st₁.Proper F := by
  obtain ⟨l, r, rest, hq, hstep⟩ := h
  obtain ⟨hhead, hrest⟩ := hst.pop hq
  exact hrest.step hhead.1 hhead.2 hstep

theorem Runs.proper {n : Nat} (hst : st.Proper F) (h : st.Runs n st₁) : st₁.Proper F := by
  induction h with
  | start => exact hst
  | turn _ hturn ih => exact hturn.proper ih

/-! ### What is bound -/

/-- A way of binding the variable of a leaf so that the leaf becomes equal to a formula. -/
abbrev Binder := Substitution → Leaf → Formula Nat → Except UnifyError Substitution

/-- The binder does what `bind` does as long as the variable is not bound yet. What it does with a
bound variable, or with a leaf that is no variable, is left open. -/
def Binder.Faithful (bind : Binder) : Prop :=
  ∀ s a t, a.kind = .var → s.lookup a.value = none → bind s a t = s.bind a t

/-- `meet` with another binder. -/
def meetBy (bind : Binder) (st : State) : Formula Nat → Formula Nat → Except UnifyError State
  | .node _ c l r, .node _ c' l' r' =>
      if c = c' then
        .ok { st with queue := st.queue ++ [(l.place, l'.place), (r.place, r'.place)] }
      else .error (.operatorClash c c')
  | .leaf i a, .leaf j b =>
      match a.kind, b.kind with
      | .const, .const => if a = b then .ok st else .error (.constantClash a b)
      | .var, .var =>
          if a.value = b.value then
            if a.op = b.op then .ok st else .error (.polarityClash a.value)
          else do
            let fresh : Formula Nat := .leaf 0 (.var st.fresh)
            let s ← bind st.bindings a fresh
            let s ← bind s b fresh
            return { st with bindings := s, fresh := st.fresh + 1 }
      | .var, .const => return { st with bindings := ← bind st.bindings a (.leaf j b) }
      | .const, .var => return { st with bindings := ← bind st.bindings b (.leaf i a) }
      | _, _ => .error (.mismatch (.leaf i a) (.leaf j b))
  | .leaf i a, .node j c l r =>
      match a.kind with
      | .var => return { st with bindings := ← bind st.bindings a (.node j c l r) }
      | _ => .error (.mismatch (.leaf i a) (.node j c l r))
  | .node i c l r, .leaf j b =>
      match b.kind with
      | .var => return { st with bindings := ← bind st.bindings b (.node i c l r) }
      | _ => .error (.mismatch (.node i c l r) (.leaf j b))

theorem meetBy_bind (st : State) (l r : Formula Nat) :
    st.meetBy Substitution.bind l r = st.meet l r := by
  cases l <;> cases r <;> rfl

/-- `step` with another binder. -/
def stepBy (bind : Binder) (st : State) (l r : Formula Nat) : Except UnifyError State :=
  match st.bindings.chase st.bindings.length l, st.bindings.chase st.bindings.length r with
  | some l', some r' => st.meetBy bind l' r'
  | _, _ => .error .emptyOperand

/-- Two formulas that are not bound variables meet without binding a bound variable. -/
theorem meetBy_eq {bind : Binder} (hbind : bind.Faithful) (hst : st.Proper F)
    (hl : st.bindings.Loose l) (hr : st.bindings.Loose r) : st.meetBy bind l r = st.meet l r := by
  have hlookup {i : Nat} {a : Leaf} (ha : a.kind = .var) (h : st.bindings.Loose (.leaf i a)) :
      st.bindings.lookup a.value = none :=
    hst.bindings.lookup_eq_none (h _ (Leaf.varNumber?_of_kind ha))
  rw [← meetBy_bind]
  cases l with
  | node i c l₁ l₂ =>
      cases r with
      | node j c' r₁ r₂ => rfl
      | leaf j b =>
          rw [meetBy, meetBy]
          split
          · rename_i hb
            rw [hbind _ _ _ hb (hlookup hb hr)]
          · rfl
  | leaf i a =>
      cases r with
      | node j c r₁ r₂ =>
          rw [meetBy, meetBy]
          split
          · rename_i ha
            rw [hbind _ _ _ ha (hlookup ha hl)]
          · rfl
      | leaf j b =>
          rw [meetBy, meetBy]
          split
          · rfl
          · rename_i ha hb
            split
            · rfl
            · rename_i hne
              dsimp only
              rw [hbind _ _ _ ha (hlookup ha hl)]
              cases hs : st.bindings.bind a (.leaf 0 (.var st.fresh)) with
              | error e => rfl
              | ok s =>
                  -- The first of the two bindings does not bind the second variable.
                  have hmid : s.lookup b.value = none := by
                    obtain ⟨-, rfl⟩ := Substitution.bind_eq_ok.mp hs
                    rw [Substitution.lookup_insert, if_neg (Ne.symm hne), hlookup hb hr]
                  change (bind s b _ >>= _) = (s.bind b _ >>= _)
                  rw [hbind _ _ _ hb hmid]
          · rename_i ha hb
            rw [hbind _ _ _ ha (hlookup ha hl)]
          · rename_i ha hb
            rw [hbind _ _ _ hb (hlookup hb hr)]
          · rfl

theorem stepBy_eq {bind : Binder} (hbind : bind.Faithful) (hst : st.Proper F)
    (l r : Formula Nat) : st.stepBy bind l r = st.step l r := by
  have hs := hst.bindings
  obtain ⟨l', hl', hloose⟩ := Substitution.exists_chase hs.filled hs.acyclic l
  obtain ⟨r', hr', hloose'⟩ := Substitution.exists_chase hs.filled hs.acyclic r
  rw [stepBy, step, hl', hr']
  exact meetBy_eq hbind hst hloose hloose'

/-! ### How a step fails -/

theorem cases_of_bind_eq_error {ε β γ : Type} {x : Except ε β} {f : β → Except ε γ} {e : ε}
    (h : x >>= f = .error e) : x = .error e ∨ ∃ b, x = .ok b ∧ f b = .error e := by
  cases x with
  | error e' => exact .inl (congrArg Except.error (Except.error.inj h))
  | ok b => exact .inr ⟨b, rfl, h⟩

theorem bindings_of_error {a : Leaf} {t : Formula Nat} {e : UnifyError}
    (h : (do return { st with bindings := ← st.bindings.bind a t } : Except UnifyError State) =
      .error e) : st.bindings.bind a t = .error e := by
  obtain hs | ⟨s, -, hs⟩ := cases_of_bind_eq_error h
  · exact hs
  · cases hs

/-- Why two formulas that are not bound variables do not meet. -/
inductive Clashes (st : State) : Formula Nat → Formula Nat → UnifyError → Prop where
  | connectives (i j : Nat) {c c' : Connective} (l r l' r' : Formula Nat) (h : c ≠ c') :
      Clashes st (.node i c l r) (.node j c' l' r') (.operatorClash c c')
  | constants (i j : Nat) {a b : Leaf} (ha : a.kind = .const) (hb : b.kind = .const)
      (h : a ≠ b) : Clashes st (.leaf i a) (.leaf j b) (.constantClash a b)
  | signs (i j : Nat) {a b : Leaf} (ha : a.kind = .var) (hb : b.kind = .var)
      (hv : a.value = b.value) (h : a.op ≠ b.op) :
      Clashes st (.leaf i a) (.leaf j b) (.polarityClash a.value)
  | left (i : Nat) {a : Leaf} {t : Formula Nat} {e : UnifyError} (ha : a.kind = .var)
      (ht : t.Rigid) (h : st.bindings.bind a t = .error e) : Clashes st (.leaf i a) t e
  | right (j : Nat) {b : Leaf} {t : Formula Nat} {e : UnifyError} (hb : b.kind = .var)
      (ht : t.Rigid) (h : st.bindings.bind b t = .error e) : Clashes st t (.leaf j b) e
  | fresh (i j : Nat) {a b : Leaf} {e : UnifyError} (ha : a.kind = .var) (hb : b.kind = .var)
      (hne : a.value ≠ b.value)
      (h : (st.bindings.bind a (.leaf 0 (.var st.fresh)) >>= fun s =>
        s.bind b (.leaf 0 (.var st.fresh))) = .error e) : Clashes st (.leaf i a) (.leaf j b) e
  | unknown (i j : Nat) {a b : Leaf} (h : a.kind = .unknown ∨ b.kind = .unknown) :
      Clashes st (.leaf i a) (.leaf j b) (.mismatch (.leaf i a) (.leaf j b))
  | leafNode (i j : Nat) {a : Leaf} (c : Connective) (l r : Formula Nat) (ha : a.kind ≠ .var) :
      Clashes st (.leaf i a) (.node j c l r) (.mismatch (.leaf i a) (.node j c l r))
  | nodeLeaf (i j : Nat) {b : Leaf} (c : Connective) (l r : Formula Nat) (hb : b.kind ≠ .var) :
      Clashes st (.node i c l r) (.leaf j b) (.mismatch (.node i c l r) (.leaf j b))

theorem clashes_of_meet {e : UnifyError} (h : st.meet l r = .error e) : st.Clashes l r e := by
  cases l with
  | node i c l₁ l₂ =>
      cases r with
      | node j c' r₁ r₂ =>
          rw [meet] at h
          split at h
          · cases h
          · rename_i hc
            cases h
            exact .connectives i j _ _ _ _ hc
      | leaf j b =>
          rw [meet] at h
          split at h
          · rename_i hb
            exact .right j hb trivial (bindings_of_error h)
          · rename_i hb
            cases h
            exact .nodeLeaf i j c l₁ l₂ hb
  | leaf i a =>
      cases r with
      | node j c r₁ r₂ =>
          rw [meet] at h
          split at h
          · rename_i ha
            exact .left i ha trivial (bindings_of_error h)
          · rename_i ha
            cases h
            exact .leafNode i j c r₁ r₂ ha
      | leaf j b =>
          rw [meet] at h
          split at h
          · rename_i ha hb
            split at h
            · cases h
            · rename_i hab
              cases h
              exact .constants i j ha hb hab
          · rename_i ha hb
            split at h
            · rename_i hv
              split at h
              · cases h
              · rename_i hop
                cases h
                exact .signs i j ha hb hv hop
            · rename_i hne
              refine .fresh i j ha hb hne ?_
              obtain hs | ⟨s, hs, h⟩ := cases_of_bind_eq_error h
              · rw [hs]
                rfl
              · obtain hs' | ⟨s', -, hs'⟩ := cases_of_bind_eq_error h
                · rw [hs]
                  exact hs'
                · cases hs'
          · rename_i ha hb
            exact .left i ha hb (bindings_of_error h)
          · rename_i ha hb
            exact .right j hb ha (bindings_of_error h)
          · rename_i hcc hvv hvc hcv
            cases h
            refine .unknown i j ?_
            cases ha : a.kind <;> cases hb : b.kind <;> simp_all

theorem meet_of_clashes {e : UnifyError} (h : st.Clashes l r e) : st.meet l r = .error e := by
  cases h with
  | connectives i j _ _ _ _ hc => rw [meet, if_neg hc]
  | constants i j ha hb hab => simp [meet, ha, hb, hab]
  | signs i j ha hb hv hop => simp [meet, ha, hb, hv, hop]
  | left i ha ht h =>
      cases r with
      | leaf j b =>
          have hb : b.kind = .const := ht
          simp only [meet, ha, hb, h]
          rfl
      | node j c l r =>
          simp only [meet, ha, h]
          rfl
  | right j hb ht h =>
      cases l with
      | leaf i a =>
          have ha : a.kind = .const := ht
          simp only [meet, ha, hb, h]
          rfl
      | node i c l r =>
          simp only [meet, hb, h]
          rfl
  | fresh i j ha hb hne h =>
      simp only [meet, ha, hb, hne, if_false]
      obtain hs | ⟨s, hs, hs'⟩ := cases_of_bind_eq_error h
      · rw [hs]
        rfl
      · simp only [hs, hs', Bind.bind, Except.bind]
  | @unknown i j a b h =>
      obtain h | h := h
      · simp [meet, h]
      · cases ha : a.kind <;> simp [meet, ha, h]
  | @leafNode i j a c l r ha => cases hk : a.kind <;> simp_all [meet]
  | @nodeLeaf i j b c l r hb => cases hk : b.kind <;> simp_all [meet]

/-- A step that fails tells of two formulas that do not meet. -/
theorem meet_eq_error {e : UnifyError} (h : st.meet l r = .error e) :
    e ≠ .emptyOperand ∧ ∀ v, e ≠ .cycle v := by
  cases clashes_of_meet h with
  | left i ha ht hbind => simp [(Substitution.bind_eq_error.mp hbind).2]
  | right j hb ht hbind => simp [(Substitution.bind_eq_error.mp hbind).2]
  | fresh i j ha hb hne hbind =>
      obtain hs | ⟨s, -, hs⟩ := cases_of_bind_eq_error hbind
      · simp [(Substitution.bind_eq_error.mp hs).2]
      · simp [(Substitution.bind_eq_error.mp hs).2]
  | _ => simp

theorem step_eq_error (hst : st.Proper F) {e : UnifyError} (h : st.step l r = .error e) :
    e ≠ .emptyOperand ∧ ∀ v, e ≠ .cycle v := by
  have hs := hst.bindings
  obtain ⟨l', hl', -⟩ := Substitution.exists_chase hs.filled hs.acyclic l
  obtain ⟨r', hr', -⟩ := Substitution.exists_chase hs.filled hs.acyclic r
  rw [step, hl', hr'] at h
  exact meet_eq_error h

end State

open State

/-- An answer stays the same if more steps are allowed. -/
theorem loop_add {fuel : Nat} {st : State} {x : Except UnifyError Substitution}
    (h : loop fuel st = some x) (more : Nat) : loop (fuel + more) st = some x := by
  induction fuel generalizing st with
  | zero => cases h
  | succ fuel ih =>
      rw [Nat.succ_add]
      obtain ⟨hq, hloop⟩ | ⟨a, b, rest, hq, ⟨e, hstep, hloop⟩ | ⟨st₁, hstep, hloop⟩⟩ :=
        loop_succ fuel st
      · rw [← h, hloop]
        exact loopBy_of_nil id _ hq
      · rw [← h, hloop]
        exact loopBy_of_error id _ hq hstep
      · have hturn : st.Turn st₁ := ⟨a, b, rest, hq, hstep⟩
        rw [hturn.loop_eq]
        exact ih (hloop.symm.trans h)

/-- No run is as long as the budget. -/
theorem lt_budget_of_runs {floor : Int} {l r : Formula Nat} {n : Nat} {st : State}
    (h : (State.initial floor l r).Runs n st) :
    n < budget (l.size + r.size) := by
  obtain ⟨x, hx⟩ := exists_loop_eq_some floor l r
  by_contra hn
  have hmore := loop_add hx (n - budget (l.size + r.size))
  rw [Nat.add_sub_cancel' (Nat.le_of_not_lt hn), ← Nat.add_zero n, h.loop_eq] at hmore
  cases hmore

/-- Wherever a run comes to, there is fuel for another turn. -/
theorem exists_loop_of_runs {floor : Int} {l r : Formula Nat} {n : Nat} {st : State}
    (h : (State.initial floor l r).Runs n st) :
    ∃ m, loop (budget (l.size + r.size)) (State.initial floor l r) = loop (m + 1) st := by
  obtain ⟨m, hm⟩ := Nat.exists_eq_add_of_lt (lt_budget_of_runs h)
  exact ⟨m, by rw [hm, Nat.add_assoc, h.loop_eq]⟩

end Unification

open Unification

/-- Unification answers where a run ends. If the queue is empty there, the answer is the expansion
of the bindings, and otherwise it is the error of the next step. -/
theorem exists_runs_of_unifyAbove (floor : Int) (l r : Formula Nat) :
    ∃ n st, (State.initial floor l r).Runs n st ∧
      ((st.queue = [] ∧ ∃ s, st.bindings.expand = .ok s ∧ unifyAbove floor l r = .ok s) ∨
        ∃ x y rest e, st.queue = (x, y) :: rest ∧
          { st with queue := rest }.step x y = .error e ∧ unifyAbove floor l r = .error e) := by
  obtain ⟨answer, hloop⟩ := exists_loop_eq_some floor l r
  obtain ⟨n, st, hruns, hend⟩ := State.exists_runs_of_loop hloop
  refine ⟨n, st, hruns, ?_⟩
  rw [unifyAbove_eq, hloop]
  obtain ⟨hq, rfl⟩ | ⟨x, y, rest, e, hq, hstep, rfl⟩ := hend
  · have hst := hruns.proper (State.proper_initial floor l.within_full r.within_full)
    obtain ⟨s, hs⟩ := hst.bindings.exists_expand
    exact .inl ⟨hq, s, hs, hs⟩
  · exact .inr ⟨x, y, rest, e, hq, hstep, rfl⟩

/-- A run that empties the queue leads to the unifier. -/
theorem unifyAbove_of_runs {floor : Int} {l r : Formula Nat} {n : Nat} {st : State}
    {s : Substitution} (h : (State.initial floor l r).Runs n st) (hq : st.queue = [])
    (hs : st.bindings.expand = .ok s) : unifyAbove floor l r = .ok s := by
  obtain ⟨m, hloop⟩ := exists_loop_of_runs h
  have hend : loop (m + 1) st = some (.ok st.bindings) := loopBy_of_nil id m hq
  rw [unifyAbove_eq, hloop, hend]
  exact hs

/-- A run that comes to a step that fails leads to the error of this step. -/
theorem unifyAbove_eq_error_of_runs {floor : Int} {l r x y : Formula Nat} {n : Nat} {st : State}
    {rest : List (Formula Nat × Formula Nat)} {e : UnifyError}
    (h : (State.initial floor l r).Runs n st) (hq : st.queue = (x, y) :: rest)
    (hstep : { st with queue := rest }.step x y = .error e) :
    unifyAbove floor l r = .error e := by
  obtain ⟨m, hloop⟩ := exists_loop_of_runs h
  have hend : loop (m + 1) st = some (.error e) := loopBy_of_error id m hq hstep
  rw [unifyAbove_eq, hloop, hend]

/-- Unification comes to an end, and what can go wrong after its loop does not. No run of the loop
is longer than the budget. In every state that it comes to, each formula is followed through the
bindings to its end within as many hops as there are bindings. The next step only binds variables
that are not bound yet: it would go the same way if binding a bound one did something else. If
nothing is left to do, no binding depends on itself and all of them can be expanded. So the answer
is the expansion of the last bindings, or else the error of a step in which two formulas did not
meet. -/
theorem unification_completes (floor : Int) (l r : Formula Nat) :
    (∀ n st, (State.initial floor l r).Runs n st →
      n < budget (l.size + r.size) ∧
      (∀ t, ∃ t', st.bindings.Loose t' ∧
        ∀ k, st.bindings.length ≤ k → st.bindings.chase k t = some t') ∧
      (∀ bind : State.Binder, bind.Faithful → ∀ x y rest, st.queue = (x, y) :: rest →
        State.stepBy bind { st with queue := rest } x y = { st with queue := rest }.step x y) ∧
      (st.queue = [] → st.bindings.Acyclic ∧ ∃ s, st.bindings.expand = .ok s)) ∧
    ∃ n st, (State.initial floor l r).Runs n st ∧
      ((st.queue = [] ∧ ∃ s, st.bindings.expand = .ok s ∧ unifyAbove floor l r = .ok s) ∨
        ∃ x y rest e, st.queue = (x, y) :: rest ∧
          { st with queue := rest }.step x y = .error e ∧ unifyAbove floor l r = .error e ∧
          e ≠ .emptyOperand ∧ ∀ v, e ≠ .cycle v) := by
  have hproper {n : Nat} {st : State} (h : (State.initial floor l r).Runs n st) :
      st.Proper .full :=
    h.proper (State.proper_initial floor l.within_full r.within_full)
  constructor
  · intro n st hruns
    have hst := hproper hruns
    refine ⟨lt_budget_of_runs hruns, hst.bindings.exists_chase_eq, ?_, ?_⟩
    · intro bind hbind x y rest hq
      exact State.stepBy_eq hbind (hst.pop hq).2 x y
    · exact fun _ => ⟨hst.bindings.acyclic, hst.bindings.exists_expand⟩
  · obtain ⟨n, st, hruns, hend⟩ := exists_runs_of_unifyAbove floor l r
    refine ⟨n, st, hruns, hend.imp id ?_⟩
    rintro ⟨x, y, rest, e, hq, hstep, he⟩
    exact ⟨x, y, rest, e, hq, hstep, he, State.step_eq_error ((hproper hruns).pop hq).2 hstep⟩

end Detachment

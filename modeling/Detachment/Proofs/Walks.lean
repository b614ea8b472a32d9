import Detachment.Proofs.Standardization
import Detachment.Proofs.Traversal

/-!
# The order of a walk

A walk has a list of parts pending, visits the first of them and puts its operands before or behind
the others. If they go before the others, the walk is a pre-order traversal. If they go behind, it
passes through one level after the other, each of them from left to right: `walkLoop_levels`. What
is pending shrinks with every visit, since a part is larger than its operands together.

Whatever the plan, a walk carries the length of the path to the part it visits.
-/
namespace Detachment

/-- The paths of `d` turns, from left to right. -/
def paths : (d : Nat) → List (List Turn)
  | 0 => [[]]
  | d + 1 => (paths d).map (.left :: ·) ++ (paths d).map (.right :: ·)

namespace Formula

section

variable {α : Type}

/-! ### Levels -/

/-- The parts that are `d` turns below the root, from left to right. -/
def level (d : Nat) (t : Formula α) : List (Formula α) :=
  (paths d).filterMap (t.along ·)

theorem level_zero (t : Formula α) : t.level 0 = [t] := rfl

/-- The levels of the operands are one turn further down. -/
theorem level_succ (d : Nat) (t : Formula α) : t.level (d + 1) = t.operands.flatMap (level d) := by
  rw [level, paths, List.filterMap_append, List.filterMap_map, List.filterMap_map]
  cases t with
  | leaf s a => simp [Function.comp_def, along, operands]
  | node s c l r => simp [Function.comp_def, along, operands, level]

theorem along_append (p q : List Turn) (t : Formula α) :
    t.along (p ++ q) = (t.along p).bind (along q) := by
  induction p generalizing t with
  | nil => rfl
  | cons turn p ih =>
      cases t with
      | leaf s a => cases turn <;> rfl
      | node s c l r =>
          cases turn with
          | left => exact ih l
          | right => exact ih r

/-! ### What is pending -/

/-- The number of nodes in what is pending. -/
def backlog : List (Formula α × Nat) → Nat
  | [] => 0
  | p :: pending => p.1.size + backlog pending

theorem backlog_append (pending later : List (Formula α × Nat)) :
    backlog (pending ++ later) = backlog pending + backlog later := by
  induction pending with
  | nil => simp [backlog]
  | cons p pending ih =>
      rw [List.cons_append, backlog, backlog, ih]
      omega

theorem pending_eq_nil {pending : List (Formula α × Nat)} (h : backlog pending = 0) :
    pending = [] := by
  cases pending with
  | nil => rfl
  | cons p pending =>
      have hpos := p.1.size_pos
      rw [backlog] at h
      omega

theorem size_eq_backlog (t : Formula α) (d : Nat) :
    t.size = 1 + backlog (t.operands.map (·, d)) := by
  cases t <;> simp [size, operands, backlog, Nat.add_assoc]

/-- The next level is smaller by the number of nodes on this one. -/
theorem backlog_level (ts : List (Formula α)) (d : Nat) :
    backlog (ts.map (·, d)) = ts.length + backlog ((ts.flatMap operands).map (·, d + 1)) := by
  induction ts with
  | nil => rfl
  | cons t ts ih =>
      rw [List.map_cons, backlog, ih, List.flatMap_cons, List.map_append, backlog_append,
        t.size_eq_backlog (d + 1), List.length_cons]
      omega

/-- A visit leaves less to do, whichever operands it schedules. -/
theorem backlog_schedule_lt (plan : Plan) (t : Formula α) (d : Nat)
    (pending : List (Formula α × Nat)) :
    backlog (t.schedule plan d pending) < t.size + backlog pending := by
  cases t with
  | leaf s a =>
      rw [schedule, size]
      omega
  | node s c l r =>
      have hpick : backlog ((plan.pick .now l r).map (·, d + 1)) +
          backlog ((plan.pick .later l r).map (·, d + 1)) ≤ l.size + r.size := by
        obtain ⟨left, right⟩ := plan
        cases left <;> cases right <;> grind [Plan.pick, backlog]
      rw [schedule, backlog_append, backlog_append, size]
      omega

theorem schedule_depthFirst (t : Formula α) (d : Nat) (pending : List (Formula α × Nat)) :
    t.schedule .depthFirst d pending = t.operands.map (·, d + 1) ++ pending := by
  cases t <;> simp [schedule, Plan.depthFirst, Plan.pick, operands]

theorem schedule_breadthFirst (t : Formula α) (d : Nat) (pending : List (Formula α × Nat)) :
    t.schedule .breadthFirst d pending = pending ++ t.operands.map (·, d + 1) := by
  cases t <;> simp [schedule, Plan.breadthFirst, Plan.pick, operands]

/-- What is pending after a visit was pending before, or is an operand one turn further down. -/
theorem mem_schedule {plan : Plan} {t : Formula α} {d : Nat} {pending : List (Formula α × Nat)}
    {p : Formula α × Nat} (h : p ∈ t.schedule plan d pending) :
    p ∈ pending ∨ ∃ w ∈ t.operands, p = (w, d + 1) := by
  cases t with
  | leaf s a => exact .inl h
  | node s c l r =>
      have hpick (timing : Timing) (h : p ∈ (plan.pick timing l r).map (·, d + 1)) :
          ∃ w ∈ (node s c l r).operands, p = (w, d + 1) := by
        obtain ⟨w, hw, rfl⟩ := List.mem_map.mp h
        refine ⟨w, ?_, rfl⟩
        rw [Plan.pick, List.mem_append] at hw
        rw [operands]
        obtain hw | hw := hw
        · split at hw <;> simp_all
        · split at hw <;> simp_all
      rw [schedule, List.mem_append, List.mem_append] at h
      obtain (h | h) | h := h
      · exact .inr (hpick .now h)
      · exact .inl h
      · exact .inr (hpick .later h)

end

/-! ### Steps of a walk -/

section

variable {plan : Plan} {stop : Option Nat} {d fuel : Nat} {t u : Formula Nat}
  {pending : List (Formula Nat × Nat)}

theorem walkLoop_nil (fuel : Nat) : walkLoop plan stop fuel [] = [] := by
  cases fuel <;> rfl

theorem walkLoop_cons :
    walkLoop plan stop (fuel + 1) ((t, d) :: pending) =
      (t, d) :: walkLoop plan stop fuel
        (if stop = some t.slot then [] else t.schedule plan d pending) := rfl

/-- What the operands inherit one turn further down holds of everything that a walk visits. -/
theorem forall_mem_walkLoop {P : Formula Nat → Nat → Prop}
    (hstep : ∀ t d, P t d → ∀ w ∈ t.operands, P w (d + 1)) (h : ∀ p ∈ pending, P p.1 p.2) :
    ∀ p ∈ walkLoop plan stop fuel pending, P p.1 p.2 := by
  induction fuel generalizing pending with
  | zero => exact fun p hp => absurd hp List.not_mem_nil
  | succ fuel ih =>
      cases pending with
      | nil =>
          rw [walkLoop_nil]
          exact fun p hp => absurd hp List.not_mem_nil
      | cons q pending =>
          obtain ⟨t, d⟩ := q
          have ht : P t d := h (t, d) (by simp)
          rw [walkLoop_cons]
          intro p hp
          obtain rfl | hp := List.mem_cons.mp hp
          · exact ht
          · refine ih (fun p hp => ?_) p hp
            split at hp
            · exact absurd hp List.not_mem_nil
            · obtain hp | ⟨w, hw, rfl⟩ := mem_schedule hp
              · exact h p (by simp [hp])
              · exact hstep t d ht w hw

/-- The depth of a visit is the length of the path to it. -/
theorem exists_path_of_mem_walkLoop {p : Formula Nat × Nat}
    (hp : p ∈ walkLoop plan stop fuel [(u, 0)]) :
    ∃ path, u.along path = some p.1 ∧ path.length = p.2 := by
  let P (w : Formula Nat) (d : Nat) : Prop := ∃ path, u.along path = some w ∧ path.length = d
  have hstep (w : Formula Nat) (d : Nat) (hw : P w d) : ∀ v ∈ w.operands, P v (d + 1) := by
    obtain ⟨path, hpath, rfl⟩ := hw
    intro v hv
    cases w with
    | leaf s a => exact absurd hv List.not_mem_nil
    | node s c l r =>
        obtain rfl | rfl : v = l ∨ v = r := by simpa [operands] using hv
        · exact ⟨path ++ [.left], by simp [along_append, hpath, along], by simp⟩
        · exact ⟨path ++ [.right], by simp [along_append, hpath, along], by simp⟩
  refine forall_mem_walkLoop hstep (fun q hq => ?_) p hp
  obtain rfl := List.mem_singleton.mp hq
  exact ⟨[], rfl, rfl⟩

end

/-! ### Depth first -/

/-- A depth-first walk takes the steps of a pre-order traversal. -/
theorem map_slot_depthFirst (fuel : Nat) (pending : List (Formula Nat × Nat)) :
    (walkLoop .depthFirst none fuel pending).map (·.1.slot) =
      preorderLoop fuel (pending.map (·.1)) := by
  induction fuel generalizing pending with
  | zero => rfl
  | succ fuel ih =>
      cases pending with
      | nil => rfl
      | cons p pending =>
          obtain ⟨t, d⟩ := p
          rw [walkLoop_cons, if_neg (by simp), schedule_depthFirst, List.map_cons, ih]
          cases t <;> simp [operands, preorderLoop, slot]

/-! ### Breadth first -/

/-- A breadth-first walk passes through one level, with the next one pending afterwards. -/
theorem walkLoop_level (ts us : List (Formula Nat)) (d fuel : Nat) :
    walkLoop .breadthFirst none (ts.length + fuel) (ts.map (·, d) ++ us.map (·, d + 1)) =
      ts.map (·, d) ++
        walkLoop .breadthFirst none fuel ((us ++ ts.flatMap operands).map (·, d + 1)) := by
  induction ts generalizing us with
  | nil => simp
  | cons t ts ih =>
      have hfuel : (t :: ts).length + fuel = (ts.length + fuel) + 1 := by
        rw [List.length_cons]
        omega
      rw [hfuel, List.map_cons, List.cons_append, walkLoop_cons, if_neg (by simp),
        schedule_breadthFirst, List.append_assoc, ← List.map_append, ih, List.flatMap_cons,
        List.append_assoc, List.cons_append]

/-- A breadth-first walk goes level by level, and there are no more levels than nodes. -/
theorem walkLoop_levels {d fuel n : Nat} (ts : List (Formula Nat))
    (hfuel : backlog (ts.map (·, d)) ≤ fuel) (hn : backlog (ts.map (·, d)) ≤ n) :
    walkLoop .breadthFirst none fuel (ts.map (·, d)) =
      (List.range n).flatMap fun k => (ts.flatMap (level k)).map (·, d + k) := by
  induction n generalizing ts d fuel with
  | zero =>
      have hts : ts = [] := by simpa using pending_eq_nil (Nat.le_zero.mp hn)
      rw [hts, List.map_nil, walkLoop_nil]
      rfl
  | succ n ih =>
      have hlevel := backlog_level ts d
      obtain ⟨rest, hrest⟩ : ∃ rest, fuel = ts.length + rest := ⟨fuel - ts.length, by omega⟩
      have hpass := walkLoop_level ts [] d rest
      rw [List.map_nil, List.append_nil, List.nil_append] at hpass
      -- An empty level is followed by empty ones. Any other level uses up a node.
      have hnext : backlog ((ts.flatMap operands).map (·, d + 1)) ≤ n := by
        cases ts with
        | nil => exact Nat.zero_le n
        | cons t ts =>
            rw [List.length_cons] at hlevel
            omega
      have hhere : ts.flatMap (level 0) = ts := by
        rw [funext level_zero, List.flatMap_singleton']
      have hbelow (k : Nat) :
          (ts.flatMap operands).flatMap (level k) = ts.flatMap (level (k + 1)) := by
        rw [funext (level_succ k), List.flatMap_assoc]
      rw [hrest, hpass, ih (ts.flatMap operands) (by omega) hnext, List.range_succ_eq_map,
        List.flatMap_cons, hhere, List.flatMap_map]
      simp only [hbelow, Nat.add_assoc, Nat.add_comm 1, Nat.succ_eq_add_one, Nat.add_zero]

/-- A breadth-first walk visits every node of what is pending once. -/
theorem walkLoop_perm {fuel : Nat} (pending : List (Formula Nat × Nat))
    (h : backlog pending ≤ fuel) :
    ((walkLoop .breadthFirst none fuel pending).map (·.1.slot)).Perm
      (pending.flatMap (·.1.slots)) := by
  induction fuel generalizing pending with
  | zero =>
      rw [pending_eq_nil (Nat.le_zero.mp h)]
      exact .refl _
  | succ fuel ih =>
      cases pending with
      | nil => exact .refl _
      | cons p pending =>
          obtain ⟨t, d⟩ := p
          have hless := backlog_schedule_lt .breadthFirst t d pending
          have h : t.size + backlog pending ≤ fuel + 1 := h
          rw [walkLoop_cons, if_neg (by simp), List.map_cons, List.flatMap_cons, slots_eq_cons,
            List.cons_append]
          refine .cons _ ((ih _ (by omega)).trans ?_)
          rw [schedule_breadthFirst, List.flatMap_append, List.flatMap_map]
          exact List.perm_append_comm

end Formula

end Detachment

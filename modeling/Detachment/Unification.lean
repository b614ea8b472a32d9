import Detachment.Substitution

/-!
# Unification

Two formulas are unified by working off a queue of pairs that have to become equal. A variable is
bound when it meets something else, and two distinct variables are both bound to a fresh one. The
values bound on the way may mention other bound variables, so both sides of a pair are first
followed through the bindings, and a variable is only bound to what does not reach it. In the end
every value is expanded until no bound variable is left in it.

Constants are equal to themselves only. A negated variable is bound to the negation of what it
meets.

The numbers of the fresh variables go up one by one. How they are stored is a parameter: as they
are, or with a fixed number of bits.
-/
namespace Detachment

inductive UnifyError where
  | emptyOperand
  | operatorClash (left right : Connective)
  | constantClash (left right : Leaf)
  | polarityClash (v : Int)
  | occursCheck (v : Int) (value : Formula Nat)
  | cycle (v : Int)
  | mismatch (left right : Formula Nat)
  deriving DecidableEq, Repr

namespace UnifyError

def message : UnifyError → String
  | emptyOperand => "cannot unify an empty formula"
  | operatorClash l r => "operator clash: '" ++ l.symbol ++ "' against '" ++ r.symbol ++ "'"
  | constantClash l r => "constant clash: " ++ l.text ++ " against " ++ r.text
  | polarityClash v => "variable " ++ Int.repr v ++ " is required with both polarities"
  | occursCheck v t => "variable " ++ Int.repr v ++ " occurs in " ++ t.text
  | cycle v => "bindings depend on each other through variable " ++ Int.repr v
  | mismatch l r => "cannot match " ++ l.text ++ " against " ++ r.text

end UnifyError

namespace Substitution

/-- Whether `v` is found among the variables `pending` or in the values of those that are bound,
followed through all bindings. `seen` holds the variables already followed. -/
def reachesLoop (s : Substitution) (v : Int) : Nat → (pending seen : List Int) → Bool
  | 0, _, _ => false
  | _, [], _ => false
  | fuel + 1, u :: pending, seen =>
      if u = v then true
      else if seen.contains u then s.reachesLoop v fuel pending seen
      else
        let more := ((s.value? u).map Formula.vars).getD []
        s.reachesLoop v fuel (more ++ pending) (u :: seen)

/-- The number of variable occurrences in all values. -/
def occurrences (s : Substitution) : Nat :=
  s.foldl (fun n b => n + b.2.elim 0 fun t => t.vars.length) 0

/-- Whether `v` occurs in `t` once the bindings are expanded. Every value is looked into at most
once, which bounds the number of steps. -/
def reaches (s : Substitution) (v : Int) (t : Formula Nat) : Bool :=
  s.reachesLoop v (t.vars.length + s.occurrences) t.vars []

/-- Bind the variable of the leaf `a` so that the leaf becomes equal to `t`. -/
def bind (s : Substitution) (a : Leaf) (t : Formula Nat) : Except UnifyError Substitution :=
  let value := t.signed a.negated
  if s.reaches a.value value then .error (.occursCheck a.value value)
  else .ok (s.insert a.value (some value))

/-- Expand the values of `pending`, each as soon as it mentions no pending variable. -/
def expandLoop : Nat → (pending done : Substitution) → Except UnifyError Substitution
  | _, [], done => .ok done
  | 0, (v, _) :: _, _ => .error (.cycle v)
  | fuel + 1, (v, value) :: pending, done =>
      let all := (v, value) :: pending
      let ready (b : Int × Sheet) : Bool :=
        b.2.all fun t => t.vars.all fun u => !isBound all u
      match all.find? ready with
      | none => .error (.cycle v)
      | some (u, none) => expandLoop fuel (all.filter (·.1 != u)) ((u, none) :: done)
      | some (u, some t) =>
          let t' := apply done t
          if t'.hasVariable u then .error (.occursCheck u t')
          else expandLoop fuel (all.filter (·.1 != u)) ((u, some t') :: done)

/-- Expand every value until no bound variable is left in any of them. -/
def expand (s : Substitution) : Except UnifyError Substitution :=
  (expandLoop s.length s []).map sorted

end Substitution

namespace Unification

/-- The bindings made so far, the next fresh variable and the pairs still to be made equal. -/
structure State where
  bindings : Substitution
  fresh : Int
  queue : List (Formula Nat × Formula Nat)
  deriving Repr

/-- Make the two formulas equal or queue what remains to be made equal. Neither of them is a bound
variable. -/
def State.meet (st : State) : Formula Nat → Formula Nat → Except UnifyError State
  | .node _ c l r, .node _ c' l' r' =>
      if c = c' then
        .ok { st with queue := st.queue ++ [(l.place, l'.place), (r.place, r'.place)] }
      else .error (.operatorClash c c')
  | .leaf i a, .leaf j b =>
      match a.kind, b.kind with
      | .const, .const => if a = b then .ok st else .error (.constantClash a b)
      | .var, .var =>
          if a.value = b.value then
            if a.op = b.op then .ok st else .error (.polarityClash a.value)
          else do
            let fresh : Formula Nat := .leaf 0 (.var st.fresh)
            let s ← st.bindings.bind a fresh
            let s ← s.bind b fresh
            return { st with bindings := s, fresh := st.fresh + 1 }
      | .var, .const => return { st with bindings := ← st.bindings.bind a (.leaf j b) }
      | .const, .var => return { st with bindings := ← st.bindings.bind b (.leaf i a) }
      | _, _ => .error (.mismatch (.leaf i a) (.leaf j b))
  | .leaf i a, .node j c l r =>
      match a.kind with
      | .var => return { st with bindings := ← st.bindings.bind a (.node j c l r) }
      | _ => .error (.mismatch (.leaf i a) (.node j c l r))
  | .node i c l r, .leaf j b =>
      match b.kind with
      | .var => return { st with bindings := ← st.bindings.bind b (.node i c l r) }
      | _ => .error (.mismatch (.node i c l r) (.leaf j b))

/-- Follow both sides of a pair through the bindings, then make them equal. -/
def State.step (st : State) (l r : Formula Nat) : Except UnifyError State :=
  match st.bindings.chase st.bindings.length l, st.bindings.chase st.bindings.length r with
  | some l', some r' => st.meet l' r'
  | _, _ => .error .emptyOperand

/-- Work off the queue. Between two steps the next fresh variable is stored as `fit` makes it. There
is no answer if `fuel` steps do not suffice. -/
def loopBy (fit : Int → Int) : Nat → State → Option (Except UnifyError Substitution)
  | 0, _ => none
  | fuel + 1, st =>
      match st.queue with
      | [] => some (.ok st.bindings)
      | (l, r) :: rest =>
          match { st with queue := rest }.step l r with
          | .error e => some (.error e)
          | .ok st' => loopBy fit fuel { st' with fresh := fit st'.fresh }

/-- Work off the queue with fresh variables of any size. -/
def loop : Nat → State → Option (Except UnifyError Substitution) :=
  loopBy id

/-- A number of steps that empties the queue for operands of `n` nodes together. At most `2 * n`
variables are bound, each to a value of at most `n` nodes, so no operand grows beyond
`n ^ (2 * n + 1)` nodes when it is expanded. -/
def budget (n : Nat) : Nat :=
  Nat.pow (n + 2) (2 * n + 4)

end Unification

open Unification in
/-- Unify two formulas with fresh variables numbered from `floor` on, above all variables of both as
far as `fit` stores numbers as they are. No bound variable occurs in any value of the result. -/
def unifyBy (fit : Int → Int) (floor : Int) (l r : Formula Nat) : Except UnifyError Substitution :=
  let st : State :=
    { bindings := [], fresh := max floor (fit (max l.maxVariable r.maxVariable + 1)),
      queue := [(l, r)] }
  match loopBy fit (budget (l.size + r.size)) st with
  | none => .error .emptyOperand
  | some (.error e) => .error e
  | some (.ok s) => s.expand

/-- Unify two formulas with fresh variables of any size, numbered from `floor` on, above all
variables of both. -/
def unifyAbove (floor : Int) (l r : Formula Nat) : Except UnifyError Substitution :=
  unifyBy id floor l r

namespace Sheet

/-- Unify two sheets that keep their variables apart. -/
def unifyBy (fit : Int → Int) (floor : Int) : Sheet → Sheet → Except UnifyError Substitution
  | some l, some r => Detachment.unifyBy fit floor l r
  | _, _ => .error .emptyOperand

def unifyAbove (floor : Int) (l r : Sheet) : Except UnifyError Substitution :=
  unifyBy id floor l r

/-- Unify two sheets after moving the variables of the second beyond those of the first. -/
def unifyApartBy (fit : Int → Int) (l r : Sheet) : Except UnifyError Substitution :=
  unifyBy fit 0 l (r.shiftVariablesBy fit (fit (l.maxVariable + 1)))

def unify (l r : Sheet) : Except UnifyError Substitution :=
  unifyApartBy id l r

end Sheet

end Detachment

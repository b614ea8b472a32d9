import Detachment.Sheet

/-!
# Substitutions

A substitution binds finitely many variables to sheets. A negated leaf stands for the negation of
what its variable is bound to.
-/
namespace Detachment

/-- Variables with their values. No variable occurs twice as a key. -/
abbrev Substitution := List (Int × Sheet)

namespace Substitution

/-- Bind `v`, forgetting what it was bound to before. -/
def insert (v : Int) (value : Sheet) (s : Substitution) : Substitution :=
  (v, value) :: s.filter (·.1 != v)

def isBound (s : Substitution) (v : Int) : Bool :=
  (s.lookup v).isSome

/-- The formula that `v` is bound to. A variable bound to a blank sheet has none. -/
def value? (s : Substitution) (v : Int) : Option (Formula Nat) :=
  (s.lookup v).join

/-- The bindings in ascending order of their variables. -/
def sorted (s : Substitution) : Substitution :=
  s.mergeSort fun a b => a.1 ≤ b.1

/-- The bindings that concern `t`, in ascending order of their variables. -/
def relevant (s : Substitution) (t : Formula Nat) : List (Int × Formula Nat) :=
  (t.vars.eraseDups.mergeSort (· ≤ ·)).filterMap fun v => (s.value? v).map (v, ·)

/-- Replace the bound variables of `t` one after the other. The result is canonically placed if
there are any, and `t` itself if there are none. -/
def apply (s : Substitution) (t : Formula Nat) : Formula Nat :=
  match s.relevant t with
  | [] => t
  | bound => (bound.foldl (fun t b => t.replace b.1 b.2) t).place

/-- Follow bindings as long as the formula is a bound variable, for at most `fuel` steps. -/
def chase (s : Substitution) : Nat → Formula Nat → Sheet
  | 0, t => some t
  | _, .node i c l r => some (.node i c l r)
  | fuel + 1, .leaf i a =>
      match a.varNumber?.bind fun v => s.lookup v with
      | none => some (.leaf i a)
      | some none => none
      | some (some t) => s.chase fuel (t.signed a.negated)

/-- The value of a leaf with the given label, following bindings from variable to variable. There
is none unless the label is a bound variable. -/
def resolve (s : Substitution) (l : Label) : Option Sheet :=
  if l.isVariable then
    (s.lookup l.value).map fun value => value.bind fun t => s.chase s.length (t.signed l.isNegated)
  else none

end Substitution

end Detachment

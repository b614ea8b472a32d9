import Detachment.Derivation

/-!
# Proof chains

A proof is replayed from a ledger as a list of numbered steps that ends with the proved formula.
The premises that it rests on come first, in the order in which a breadth-first search back from
the proved formula meets them. Then every derived formula follows the two it was obtained from. A
circular ledger goes unnoticed: a formula that rests on itself is numbered all the same, and some
step on the way back to it refers to a later one.
-/
namespace Detachment

structure Step where
  number : Nat
  formula : String
  /-- The numbers of the minor and the major premise of a derived formula. -/
  premises : Option (Nat × Nat)
  deriving DecidableEq, Repr

namespace Step

def text (s : Step) : String :=
  match s.premises with
  | none => Nat.repr s.number ++ ". axiom: " ++ s.formula
  | some (minor, major) =>
      Nat.repr s.number ++ ". mp(" ++ Nat.repr minor ++ "," ++ Nat.repr major ++ "): " ++ s.formula

end Step

/-- The text of a list of steps, each on a line of its own. -/
def chainText (steps : List Step) : String :=
  String.join (steps.map fun s => s.text ++ "\n")

namespace Ledger

/-- The derivation of a formula. -/
def get (ledger : Ledger) (formula : String) : Except ProverError Derivation :=
  match ledger[formula]? with
  | none => .error (.missingDerivation formula)
  | some d => .ok d

/-- The premises reachable from the formulas in the queue, in the order of a breadth-first search.
`seen` holds the formulas already met and `found` the premises among them, latest first. -/
def gatherLoop (ledger : Ledger) :
    Nat → (queue seen : List String) → (found : List Derivation) →
      Except ProverError (List Derivation)
  | 0, _, _, found => .ok found.reverse
  | _, [], _, found => .ok found.reverse
  | fuel + 1, f :: queue, seen, found =>
      if seen.contains f then ledger.gatherLoop fuel queue seen found
      else
        match ledger.get f with
        | .error e => .error e
        | .ok d =>
            match d.rule with
            | .premise => ledger.gatherLoop fuel queue (f :: seen) (d :: found)
            | .modusPonens minor major =>
                ledger.gatherLoop fuel (queue ++ [minor, major]) (f :: seen) found

/-- The premises that the derivation of a formula rests on. Every formula of the ledger puts at
most two into the queue, which bounds the number of steps. -/
def gather (ledger : Ledger) (formula : String) : Except ProverError (List Derivation) :=
  ledger.gatherLoop (2 * ledger.size + 2) [formula] [] []

/-- The derivations in the order of their numbers, and the formulas whose own derivation has been
entered. -/
structure Trail where
  order : List Derivation
  entered : List String

/-- The number of a formula, from one. -/
def Trail.number? (t : Trail) (formula : String) : Option Nat :=
  (t.order.findIdx? fun d => d.formula == formula).map (· + 1)

/-- Number the formulas that `formula` was derived from, and then `formula` itself. Calls nest at
most once per formula of the ledger. -/
def visit (ledger : Ledger) : Nat → String → Trail → Trail
  | 0, _, t => t
  | fuel + 1, f, t =>
      if (t.number? f).isSome || t.entered.contains f then t
      else
        match ledger[f]? with
        | none => t
        | some d =>
            let t := { t with entered := f :: t.entered }
            let t := d.parents.foldl (fun t p => ledger.visit fuel p t) t
            { t with order := t.order ++ [d] }

/-- The step of a derivation that has the given number. -/
def Trail.step (t : Trail) (number : Nat) (d : Derivation) : Except ProverError Step :=
  let find (f : String) : Except ProverError Nat :=
    match t.number? f with
    | none => .error (.missingDerivation f)
    | some n => .ok n
  match d.rule with
  | .premise => .ok ⟨number, d.formula, none⟩
  | .modusPonens minor major => do return ⟨number, d.formula, some (← find minor, ← find major)⟩

/-- Replay the proof of a formula. -/
def chain (ledger : Ledger) (proof : String) : Except ProverError (List Step) := do
  let premises ← ledger.gather proof
  let t := ledger.visit (ledger.size + 1) proof ⟨premises, []⟩
  (t.order.zipIdx 1).mapM fun (d, number) => t.step number d

end Ledger

end Detachment

import Detachment.Chain
import Detachment.Schemas
import Detachment.Search
import Detachment.Settings

/-!
# Proving a target

A session takes a target apart by the deduction theorem, searches for a formula that settles one of
the parts, and tells the proof: the steps of the deduction theorem, the numbered chain of
derivations, and how the variables of the last formula are to be read.
-/
namespace Detachment

inductive Status where
  | proved
  | notFound
  deriving DecidableEq, Repr

/-- Where a session is between calls. -/
inductive Phase where
  | ready
  | rendered
  | failed
  deriving DecidableEq, Repr

/-- One use of the deduction theorem: to prove the whole, assume the hypothesis and prove the
conclusion. -/
structure Discharge where
  whole : Formula Nat
  hypothesis : Formula Nat
  conclusion : Formula Nat
  deriving DecidableEq, Repr

namespace Discharge

def text (d : Discharge) : String :=
  "deduction theorem: Γ ⊢ " ++ d.whole.text ++ " <=> Γ U \x7b" ++ d.hypothesis.text ++ "\x7d ⊢ " ++
    d.conclusion.text

end Discharge

/-- Take an implication apart as far as the deduction theorem goes. -/
def Formula.discharges {α : Type} : Formula α → List Discharge
  | .node s .implication l r =>
      ⟨(Formula.node s .implication l r).place, l.place, r.place⟩ :: r.discharges
  | _ => []

structure Session where
  settings : Settings
  /-- The premises, and after a search the formulas it promoted. -/
  premises : List Sheet
  /-- The target, and once it is taken apart its conclusions. -/
  targets : List Sheet
  journal : Journal := {}
  narrative : String := ""
  phase : Phase := .ready

namespace Session

def start (settings : Settings) (premises : List Sheet) (target : Sheet) :
    Except ProverError Session :=
  if premises.length < requiredPremises then .error (.notEnoughPremises premises.length)
  else .ok { settings, premises, targets := [target] }

def say (s : Session) (line : String) : Session :=
  { s with narrative := s.narrative ++ line ++ "\n" }

/-- Which earlier formulas yield the lemmas on the way to contraposition, minor premise first. The
three classical schemas have the numbers 0 to 2, and the lemmas follow. -/
def lemmaPlan : List (Nat × Nat) :=
  [(0, 0), (1, 0), (3, 1), (4, 1), (2, 5), (6, 5), (7, 8), (3, 9)]

/-- Derive the lemmas of a plan one after the other, recording those that exist. -/
def recordLemmas : List (Nat × Nat) → List Sheet → Journal → Journal
  | [], _, j => j
  | (i, k) :: plan, known, j =>
      let minor := (known[i]?).getD none
      let major := (known[k]?).getD none
      let conclusion := minor.detach major
      let j :=
        if conclusion.isSome then
          j.record ⟨conclusion.text, .modusPonens minor.text major.text⟩
        else j
      recordLemmas plan (known ++ [conclusion]) j

def recordPremise (j : Journal) (premise : Sheet) : Journal :=
  j.record ⟨premise.text, .premise⟩

/-- Record the classical schemas and the lemmas that lead from them towards contraposition. -/
def recordClassical (s : Session) : Session :=
  let schemas : List Sheet := Schemas.classical.map some
  { s with journal := recordLemmas lemmaPlan schemas (schemas.foldl recordPremise s.journal) }

/-- Take the target apart. The hypotheses join the premises. -/
def decompose (s : Session) : Session :=
  let ds := ((s.targets.getLast?.getD none).map Formula.discharges).getD []
  let s := ds.foldl (fun s d => s.say d.text) s
  { s with
    premises := s.premises ++ ds.map fun d => some d.hypothesis
    targets := s.targets ++ ds.map fun d => some d.conclusion }

/-- The first generation of the search. -/
def seeds (s : Session) : List Sheet :=
  s.premises.map Sheet.normalize ++
    (if s.settings.seedContraposition then [some Schemas.contraposition] else [])

/-- Everything up to the search, and the search itself before its first step. -/
def prepare (s : Session) : Session × Search :=
  let s := { s with narrative := "" }.decompose
  let journal := s.seeds.foldl recordPremise s.journal
  (s, Search.start s.settings.maxSize s.targets s.seeds journal)

/-- How the variables of a schema are to be read so that it becomes the target. The schema is
written with variables of its own, whose letters are then listed in capitals. -/
def instantiation (proof target : Sheet) : List String :=
  let shifted := proof.shiftVariables (target.maxVariable + 1)
  match Sheet.unifyAbove 0 target shifted with
  | .error _ => []
  | .ok s =>
      let names := (shifted.elim [] Formula.vars).eraseDups.mergeSort (· ≤ ·)
      let bound := names.filterMap fun v => (s.lookup v).map (v, ·)
      if bound.isEmpty then []
      else
        ("change variables: " ++ shifted.text) ::
          bound.map fun (v, value) => letter v true ++ " → " ++ value.text

/-- The first promoted formula that settles a target, with that target. -/
def proof? (s : Session) : Option (Sheet × Sheet) :=
  s.premises.findSome? fun p => (p.settled? s.targets).map (p, ·)

/-- Look for a proof among the promoted formulas and tell it. It is replayed from `stored`, which is
the journal as its file gives it back, or the reason why it does not. -/
def reconstruct (s : Session) (stored : Except ProverError Journal) :
    Except ProverError Status × Session :=
  match s.proof? with
  | none =>
      (.ok .notFound, { s.say "No proof was found in the time allotted" with phase := .failed })
  | some (proof, target) =>
      match stored.bind fun j => j.ledger.bind (·.chain proof.text) with
      | .error e => (.error e, { s with phase := .failed })
      | .ok steps =>
          let s := { s with narrative := s.narrative ++ chainText steps }
          let s := (instantiation proof target).foldl say s
          let s := s.say ("proved: " ++ (s.targets.head?.getD none).text)
          (.ok .proved, { s with phase := .rendered })

/-- Take over what a finished search has found, and replay the proof from the stored journal. -/
def conclude (s : Session) (search : Search) (stored : Except ProverError Journal) :
    Except ProverError Status × Session :=
  { s with premises := search.promoted, journal := search.journal }.reconstruct stored

/-- The answer of a session that has already been asked. -/
def settled? (s : Session) : Option Status :=
  match s.phase with
  | .ready => none
  | .rendered => some .proved
  | .failed => some .notFound

/-- Try to prove the target, with time for `looks` looks at the clock. A session that has been asked
before repeats its answer. `store` says what the file of the journal gives back. -/
def solveStoring (store : Journal → Except ProverError Journal) (s : Session) (looks : Nat) :
    Except ProverError Status × Session :=
  match s.settled? with
  | some status => (.ok status, s)
  | none =>
      let (s, search) := s.prepare
      let search := (search.run looks).2
      s.conclude search (store search.journal)

/-- Try to prove the target with a journal that is given back as it was written. -/
def solve : Session → (looks : Nat) → Except ProverError Status × Session :=
  solveStoring .ok

end Session

end Detachment

import Detachment.Toml.Document

/-!
# Settings of a proof search
-/
namespace Detachment

structure Settings where
  /-- The time for the search in milliseconds, zero for the default. -/
  timeBudget : Nat := 60000
  /-- Formulas with more nodes are discarded. -/
  maxSize : Nat := 20
  /-- Where the derivation journal is kept. Without a path it is temporary. -/
  journalPath? : Option String := none
  /-- Whether contraposition joins the premises. -/
  seedContraposition : Bool := true
  deriving DecidableEq, Repr, Inhabited

namespace Settings

/-- The time budget with zero standing for the default. -/
def effectiveBudget (s : Settings) : Nat :=
  if s.timeBudget = 0 then ({} : Settings).timeBudget else s.timeBudget

/-- Look up a key. There is no result if its value is of the wrong type, and the fallback is taken
if it is missing. -/
def entry? {α : Type} (t : Toml.Table) (key : String) (fallback : α)
    (read : Toml.Value → Option α) : Option α :=
  match t.get? key with
  | none => some fallback
  | some v => read v

/-- A number of at most 64 bits. -/
def readNat? : Toml.Value → Option Nat
  | .integer n => if 0 ≤ n ∧ n < 0x10000000000000000 then some n.toNat else none
  | _ => none

def readText? : Toml.Value → Option String
  | .text s => some s
  | _ => none

def readBool? : Toml.Value → Option Bool
  | .boolean b => some b
  | _ => none

/-- Read settings from a document. Missing keys keep their defaults and unknown ones are
ignored. -/
def ofToml? (src : String) : Option Settings := do
  let t ← Toml.parse? src
  let default : Settings := {}
  return {
    timeBudget := ← entry? t "time_budget_ms" default.timeBudget readNat?
    maxSize := ← entry? t "max_formula_size" default.maxSize readNat?
    journalPath? :=
      ← entry? t "log_path" default.journalPath? fun v => (readText? v).map some
    seedContraposition :=
      ← entry? t "seed_contraposition" default.seedContraposition readBool? }

end Settings

end Detachment

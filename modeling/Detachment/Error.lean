/-!
# Failures of the prover
-/
namespace Detachment

/-- The fewest premises a session accepts. -/
def requiredPremises : Nat := 3

inductive ProverError where
  | notEnoughPremises (found : Nat)
  /-- The file of the derivation journal cannot be created. -/
  | journalUnavailable
  /-- The derivation journal is not valid text. -/
  | journalUnreadable
  | missingDerivation (formula : String)
  | settingsUnreadable
  | settingsInvalid
  deriving DecidableEq, Repr

namespace ProverError

def message : ProverError → String
  | notEnoughPremises found =>
      "not enough axioms: found " ++ Nat.repr found ++ ", at least " ++ Nat.repr requiredPremises ++
        " are required"
  | journalUnavailable => "derivation log is unavailable"
  | journalUnreadable => "I/O error on the derivation log"
  | missingDerivation f => "derivation of '" ++ f ++ "' is missing from the log"
  | settingsUnreadable => "failed to read configuration file"
  | settingsInvalid => "failed to parse configuration file"

/-- Whether the failure is due to the settings that the user supplied. -/
def isInputError : ProverError → Bool
  | settingsUnreadable => true
  | settingsInvalid => true
  | _ => false

end ProverError

end Detachment

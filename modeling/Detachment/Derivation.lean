import Std.Data.HashMap
import Detachment.Error
import Detachment.Text.Blank

/-!
# Derivations and their journal

A derivation records a formula and how it was obtained: as a premise or by modus ponens. Formulas
are recorded by their text, which never contains a blank, so a derivation is one line of words.

The journal is the text of all derivations recorded so far. It is kept as bytes, because foreign
bytes may be appended to it. Reading it back gives a ledger: for each formula its first derivation.
Lines that are no derivations are passed over.
-/
namespace Detachment

inductive Rule where
  | premise
  | modusPonens (minor major : String)
  deriving DecidableEq, Repr

structure Derivation where
  formula : String
  rule : Rule
  deriving DecidableEq, Repr

namespace Derivation

def isPremise (d : Derivation) : Bool :=
  d.rule = .premise

/-- The formulas from which this one was obtained. -/
def parents (d : Derivation) : List String :=
  match d.rule with
  | .premise => []
  | .modusPonens minor major => [minor, major]

def text (d : Derivation) : String :=
  match d.rule with
  | .premise => d.formula ++ " axiom"
  | .modusPonens minor major => d.formula ++ " mp " ++ minor ++ " " ++ major

/-- Read a line of words. -/
def ofLine? (line : List Char) : Option Derivation :=
  match (Text.words line).map String.ofList with
  | [f, "axiom"] => some ⟨f, .premise⟩
  | [f, "mp", minor, major] => some ⟨f, .modusPonens minor major⟩
  | _ => none

end Derivation

/-- For each formula its derivation. -/
abbrev Ledger := Std.HashMap String Derivation

namespace Ledger

/-- The first derivation of a formula stays. -/
def add (ledger : Ledger) (d : Derivation) : Ledger :=
  ledger.insertIfNew d.formula d

def ofLines (lines : List (List Char)) : Ledger :=
  (lines.filterMap Derivation.ofLine?).foldl add ∅

end Ledger

structure Journal where
  bytes : ByteArray := .empty
  /-- The number of derivations recorded, foreign lines not counted. -/
  count : Nat := 0

namespace Journal

/-- Append foreign bytes. -/
def append (j : Journal) (bytes : ByteArray) : Journal :=
  { j with bytes := j.bytes ++ bytes }

def record (j : Journal) (d : Derivation) : Journal :=
  ⟨j.bytes ++ (d.text ++ "\n").toUTF8, j.count + 1⟩

/-- The journal as text, unless foreign bytes have made it something else. -/
def text? (j : Journal) : Option String :=
  String.fromUTF8? j.bytes

def ledger (j : Journal) : Except ProverError Ledger :=
  match j.text? with
  | none => .error .journalUnreadable
  | some s => .ok (.ofLines (Text.lines s.toList))

end Journal

end Detachment

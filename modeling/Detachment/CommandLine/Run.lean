import Detachment.CommandLine.Arguments
import Detachment.Formula.Layout
import Detachment.Reading.Parsing
import Detachment.Session

/-!
# The command

`run` is the command from its arguments to its exit code. It reaches files, the clock and the
terminal through a `Host`, so it can be carried out for real or followed step by step.
-/
namespace Detachment.CommandLine

/-- What the command needs from its surroundings. -/
structure Host (m : Type → Type) where
  /-- The text of a file, if it can be read. -/
  readText : String → m (Option String)
  /-- Create an empty journal file, and tell whether that succeeded. -/
  createJournal : String → m Bool
  /-- Write a journal to its file, and tell whether that succeeded. -/
  saveJournal : String → Journal → m Bool
  /-- The bytes of a journal file, if it can be read. -/
  readJournal : String → m (Option ByteArray)
  /-- Carry a search to its end within a number of milliseconds, and tell how many it took. -/
  search : Search → (budget : Nat) → m (Search × Nat)
  write : String → m Unit
  /-- Write to the channel for errors. -/
  warn : String → m Unit
  coloured : Bool

namespace Exit

def proved : UInt32 := 0

def notFound : UInt32 := 1

/-- The arguments, the formula or the settings are wrong. -/
def input : UInt32 := 2

/-- Anything else went wrong. -/
def failure : UInt32 := 3

def ofError (e : ProverError) : UInt32 :=
  if e.isInputError then input else failure

end Exit

def versionText : String := "hyprop 0.1.0"

def usageText : String :=
  "Prove a propositional formula from the classical Hilbert axioms\n\n" ++
    "Usage: hyprop [OPTIONS] <FORMULA>\n"

/-- The width within which the target is laid out. -/
def lineWidth : Nat := 80

/-- A number of milliseconds as seconds with three places. -/
def secondsText (ms : Nat) : String :=
  let fraction := Nat.repr (ms % 1000)
  Nat.repr (ms / 1000) ++ "." ++ String.ofList (List.replicate (3 - fraction.length) '0') ++
    fraction ++ "s"

/-- What the arguments say takes precedence over what the settings file says. -/
def Arguments.override (a : Arguments) (s : Settings) : Settings :=
  { s with
    timeBudget := a.timeBudget?.getD s.timeBudget
    maxSize := a.maxSize?.getD s.maxSize
    journalPath? := a.journalPath?.or s.journalPath? }

variable {m : Type → Type} [Monad m]

def loadSettings (host : Host m) (a : Arguments) : m (Except ProverError Settings) := do
  match a.settingsPath? with
  | none => return .ok (a.override {})
  | some path =>
      match ← host.readText path with
      | none => return .error .settingsUnreadable
      | some text =>
          match Settings.ofToml? text with
          | none => return .error .settingsInvalid
          | some s => return .ok (a.override s)

/-- Create the journal file if one is asked for, and tell whether there is nothing in the way. -/
def createJournal (host : Host m) (s : Settings) : m Bool :=
  match s.journalPath? with
  | none => return true
  | some path => host.createJournal path

/-- Write the journal to its file, if it has one, and read it back. -/
def storeJournal (host : Host m) (s : Settings) (j : Journal) : m (Except ProverError Journal) := do
  match s.journalPath? with
  | none => return .ok j
  | some path =>
      if ← host.saveJournal path j then
        match ← host.readJournal path with
        | none => return .error .journalUnreadable
        | some bytes => return .ok { j with bytes }
      else return .error .journalUnreadable

/-- Search and tell the result. A journal that could not be kept is a failure even then. -/
def carryOut (host : Host m) (s : Session) : m (Except ProverError Status) := do
  let (s, search) := s.prepare
  let (search, elapsed) ← host.search search s.settings.effectiveBudget
  let stored ← storeJournal host s.settings search.journal
  let (status, s) := s.conclude search stored
  if status.isOk then host.write s.narrative
  match status, stored with
  | .error e, _ => return .error e
  | _, .error e => return .error e
  | .ok status, .ok _ =>
      host.write ("elapsed: " ++ secondsText elapsed ++ "\n")
      return .ok status

def prove (host : Host m) (a : Arguments) (t : Formula Nat) : m (Except ProverError Status) := do
  match ← loadSettings host a with
  | .error e => return .error e
  | .ok settings =>
      let target : Sheet := some (if a.raw then t else t.asTarget)
      let shown :=
        if host.coloured then target.colouredLayout lineWidth else target.plainLayout lineWidth
      host.write ("target: " ++ shown ++ "\n")
      match Session.start settings (Schemas.classical.map some) target with
      | .error e => return .error e
      | .ok session =>
          if ← createJournal host settings then carryOut host session
          else return .error .journalUnavailable

/-- Carry out a command line and return its exit code. -/
def run (host : Host m) (args : List String) : m UInt32 := do
  match Request.ofArguments args with
  | .error e =>
      host.warn ("error: " ++ e.message ++ "\n")
      return Exit.input
  | .ok .version =>
      host.write (versionText ++ "\n")
      return 0
  | .ok .help =>
      host.write usageText
      return 0
  | .ok (.prove a) =>
      match parse a.formula with
      | .error e =>
          host.warn ("Error: " ++ e.message ++ "\n")
          return Exit.input
      | .ok t =>
          match ← prove host a t with
          | .error e =>
              host.warn ("Error: " ++ e.message ++ "\n")
              return Exit.ofError e
          | .ok .proved => return Exit.proved
          | .ok .notFound => return Exit.notFound

end Detachment.CommandLine

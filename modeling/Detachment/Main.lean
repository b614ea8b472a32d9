import Detachment.CommandLine.Run
import Detachment.Deadline

/-!
# The executable
-/
namespace Detachment.Main

/-- Step a search until it ends, looking at the clock before each step. -/
partial def searchUntil (deadline : Deadline) (s : Search) : IO Search := do
  match s.step (deadline.expired (← IO.monoNanosNow)) with
  | .ended _ s => return s
  | .running s => searchUntil deadline s

def timedSearch (s : Search) (budget : Nat) : IO (Search × Nat) := do
  let start ← IO.monoNanosNow
  let s ← searchUntil (.afterMillis start budget) s
  return (s, ((← IO.monoNanosNow) - start) / millisecond)

/-- Terminals take colour unless they are dumb or it is switched off. -/
def wantsColour : IO Bool := do
  let term ← IO.getEnv "TERM"
  let off ← IO.getEnv "NO_COLOR"
  return term.any (· != "dumb") && off.isNone

def host (coloured : Bool) : CommandLine.Host IO where
  readText path := try some <$> IO.FS.readFile path catch _ => return none
  createJournal path :=
    try
      IO.FS.writeFile path ""
      return true
    catch _ => return false
  saveJournal path journal :=
    try
      IO.FS.writeBinFile path journal.bytes
      return true
    catch _ => return false
  readJournal path := try some <$> IO.FS.readBinFile path catch _ => return none
  search := timedSearch
  write := IO.print
  warn := IO.eprint
  coloured := coloured

end Detachment.Main

def main (args : List String) : IO UInt32 := do
  Detachment.CommandLine.run (Detachment.Main.host (← Detachment.Main.wantsColour)) args

/-!
# Arguments of the command line

Arguments are read from left to right, and the first that is wrong decides. An option takes its
value from the same argument (`-s5`, `-s=5`, `--max-size=5`) or from the next one. Single-letter
flags can be joined (`-vv`), and after `--` everything is taken literally.
-/
namespace Detachment.CommandLine

/-- What the command line asks for. -/
structure Arguments where
  formula : String
  timeBudget? : Option Nat := none
  maxSize? : Option Nat := none
  journalPath? : Option String := none
  settingsPath? : Option String := none
  /-- Take the formula as it is, with its disjunctions and with its letters left open. -/
  raw : Bool := false
  verbosity : Nat := 0
  deriving DecidableEq, Repr

inductive Request where
  | prove (a : Arguments)
  | version
  | help
  deriving DecidableEq, Repr

inductive ArgumentError where
  | unknown (argument : String)
  | missingValue (argument : String)
  | invalidValue (value : String)
  | unexpectedValue (argument : String)
  | repeated (argument : String)
  | missingFormula
  deriving DecidableEq, Repr

namespace ArgumentError

def message : ArgumentError → String
  | unknown a => "unexpected argument '" ++ a ++ "' found"
  | missingValue a => "a value is required for '" ++ a ++ "' but none was supplied"
  | invalidValue v => "invalid value '" ++ v ++ "'"
  | unexpectedValue a => "unexpected value for '" ++ a ++ "' found; no more were expected"
  | repeated a => "the argument '" ++ a ++ "' cannot be used multiple times"
  | missingFormula => "the following required arguments were not provided: <FORMULA>"

end ArgumentError

/-- The switches that take no value and those that take one. -/
inductive Switch where
  | raw
  | verbose
  | version
  | help
  | timeBudget
  | maxSize
  | journal
  | settings
  deriving DecidableEq, Repr

namespace Switch

def takesValue : Switch → Bool
  | timeBudget => true
  | maxSize => true
  | journal => true
  | settings => true
  | _ => false

def ofLong? : String → Option Switch
  | "raw" => some raw
  | "verbose" => some verbose
  | "version" => some version
  | "help" => some help
  | "time-budget" => some timeBudget
  | "max-size" => some maxSize
  | "log" => some journal
  | "config" => some settings
  | _ => none

def ofShort? : Char → Option Switch
  | 'v' => some verbose
  | 'V' => some version
  | 'h' => some help
  | 't' => some timeBudget
  | 's' => some maxSize
  | 'l' => some journal
  | 'c' => some settings
  | _ => none

end Switch

/-- What has been read so far. -/
structure Draft where
  formula? : Option String := none
  timeBudget? : Option Nat := none
  maxSize? : Option Nat := none
  journalPath? : Option String := none
  settingsPath? : Option String := none
  raw : Bool := false
  verbosity : Nat := 0

/-- A request that is made at once, or else a draft to go on with. -/
abbrev Reading := Except ArgumentError (Request ⊕ Draft)

/-- Decimal digits after an optional plus sign, for a number of at most 64 bits. -/
def number? (s : String) : Option Nat :=
  let digits := match s.toList with
    | '+' :: cs => cs
    | cs => cs
  if !digits.isEmpty && digits.all Char.isDigit then
    let n := digits.foldl (fun n c => 10 * n + (c.toNat - '0'.toNat)) 0
    if n < 0x10000000000000000 then some n else none
  else none

namespace Draft

/-- Set a field that is not set yet. -/
def fill {α : Type} (name : String) (old : Option α) (new : α) : Except ArgumentError (Option α) :=
  match old with
  | some _ => .error (.repeated name)
  | none => .ok (some new)

/-- Take the value of a switch. -/
def setValue (d : Draft) (name value : String) (switch : Switch) : Except ArgumentError Draft := do
  let asNumber : Except ArgumentError Nat :=
    match number? value with
    | some n => .ok n
    | none => .error (.invalidValue value)
  let asPath : Except ArgumentError String :=
    if value.isEmpty then .error (.invalidValue value) else .ok value
  match switch with
  | .timeBudget => return { d with timeBudget? := ← fill name d.timeBudget? (← asNumber) }
  | .maxSize => return { d with maxSize? := ← fill name d.maxSize? (← asNumber) }
  | .journal => return { d with journalPath? := ← fill name d.journalPath? (← asPath) }
  | .settings => return { d with settingsPath? := ← fill name d.settingsPath? (← asPath) }
  | _ => .error (.unexpectedValue name)

/-- Take a switch without a value. -/
def setFlag (d : Draft) (name : String) (switch : Switch) : Reading :=
  match switch with
  | .raw => if d.raw then .error (.repeated name) else .ok (.inr { d with raw := true })
  | .verbose => .ok (.inr { d with verbosity := d.verbosity + 1 })
  | .version => .ok (.inl .version)
  | .help => .ok (.inl .help)
  | _ => .error (.missingValue name)

def setFormula (d : Draft) (value : String) : Except ArgumentError Draft :=
  match d.formula? with
  | some _ => .error (.unknown value)
  | none => .ok { d with formula? := some value }

def finish (d : Draft) : Except ArgumentError Request :=
  match d.formula? with
  | none => .error .missingFormula
  | some formula =>
      .ok (.prove {
        formula, timeBudget? := d.timeBudget?, maxSize? := d.maxSize?,
        journalPath? := d.journalPath?, settingsPath? := d.settingsPath?, raw := d.raw,
        verbosity := d.verbosity })

end Draft

/-- What joined single-letter switches come to. -/
inductive Cluster where
  | request (r : Request)
  | draft (d : Draft)
  /-- The last switch still needs a value, which the next argument has to supply. -/
  | needsValue (name : String) (switch : Switch) (d : Draft)

/-- Read joined single-letter switches. What follows one that takes a value is its value, with or
without an equals sign. -/
def cluster : List Char → Draft → Except ArgumentError Cluster
  | [], d => .ok (.draft d)
  | c :: cs, d =>
      let name := "-" ++ String.singleton c
      match Switch.ofShort? c with
      | none => .error (.unknown name)
      | some switch =>
          if switch.takesValue then
            match cs with
            | [] => .ok (.needsValue name switch d)
            | '=' :: value => (d.setValue name (String.ofList value) switch).map .draft
            | value => (d.setValue name (String.ofList value) switch).map .draft
          else
            match d.setFlag name switch with
            | .error e => .error e
            | .ok (.inl r) => .ok (.request r)
            | .ok (.inr d) => cluster cs d

/-- Read a switch with a long name, with or without a value attached. -/
def long (body : List Char) (d : Draft) : Except ArgumentError Cluster :=
  let word := body.takeWhile (· != '=')
  let name := "--" ++ String.ofList word
  match Switch.ofLong? (String.ofList word), body.drop word.length with
  | none, _ => .error (.unknown name)
  | some switch, _ :: value =>
      (d.setValue name (String.ofList value) switch).map .draft
  | some switch, [] =>
      if switch.takesValue then .ok (.needsValue name switch d)
      else
        match d.setFlag name switch with
        | .error e => .error e
        | .ok (.inl r) => .ok (.request r)
        | .ok (.inr d) => .ok (.draft d)

/-- Whether an argument is a switch rather than a value. A lone dash is a value. -/
def isSwitch : List Char → Bool
  | ['-'] => false
  | '-' :: _ => true
  | _ => false

/-- Take all arguments literally. -/
def literals : List String → Draft → Except ArgumentError Draft
  | [], d => .ok d
  | a :: rest, d => d.setFormula a >>= literals rest

/-- Read arguments. `awaiting` is a switch that still needs a value. -/
def readLoop : List String → (awaiting : Option (String × Switch)) → Draft →
    Except ArgumentError Request
  | [], none, d => d.finish
  | [], some (name, _), _ => .error (.missingValue name)
  | a :: rest, some (name, switch), d =>
      if isSwitch a.toList then .error (.missingValue name)
      else d.setValue name a switch >>= readLoop rest none
  | a :: rest, none, d =>
      let read := match a.toList with
        | '-' :: '-' :: body => long body d
        | '-' :: c :: cs => cluster (c :: cs) d
        | _ => (d.setFormula a).map .draft
      if a == "--" then literals rest d >>= Draft.finish
      else
        match read with
        | .error e => .error e
        | .ok (.request r) => .ok r
        | .ok (.draft d) => readLoop rest none d
        | .ok (.needsValue name switch d) => readLoop rest (some (name, switch)) d

/-- Read the arguments of a command line. -/
def Request.ofArguments (args : List String) : Except ArgumentError Request :=
  readLoop args none {}

end Detachment.CommandLine

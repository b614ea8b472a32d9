import Detachment.Toml.Quoted
import Detachment.Toml.Value

/-!
# Numbers, booleans, dates and times in TOML

An unquoted scalar is a run of characters. A date may be separated from a time by a single space.
-/
namespace Detachment.Toml

def isDigitBelow (base : Nat) (c : Char) : Bool :=
  (hexValue? c).any (· < base)

/-- Digits with single underscores between them. -/
def isDigits (base : Nat) : List Char → Bool
  | [] => false
  | [c] => isDigitBelow base c
  | c :: '_' :: rest => isDigitBelow base c && isDigits base rest
  | c :: d :: rest => isDigitBelow base c && isDigits base (d :: rest)

/-- The number written by digits with underscores. -/
def digitsValue (base : Nat) (cs : List Char) : Nat :=
  cs.foldl (fun n c => (hexValue? c).elim n (base * n + ·)) 0

/-- Split off a sign. -/
def unsigned (cs : List Char) : Bool × List Char :=
  match cs with
  | '+' :: rest => (false, rest)
  | '-' :: rest => (true, rest)
  | _ => (false, cs)

/-- Decimal digits without leading zeros. -/
def isDecimal (cs : List Char) : Bool :=
  isDigits 10 cs && (cs.length == 1 || cs.head? != some '0')

/-- Numbers that need more than 128 bits are refused. -/
def bounded? (n : Int) : Option Int :=
  if -0x80000000000000000000000000000000 ≤ n ∧ n < 0x100000000000000000000000000000000 then some n
  else none

def integer? (cs : List Char) : Option Int :=
  let based (base : Nat) (digits : List Char) : Option Int :=
    if isDigits base digits then bounded? (digitsValue base digits) else none
  match cs with
  | '0' :: 'x' :: digits => based 16 digits
  | '0' :: 'o' :: digits => based 8 digits
  | '0' :: 'b' :: digits => based 2 digits
  | _ =>
      let (negative, digits) := unsigned cs
      if isDecimal digits then
        let n : Int := digitsValue 10 digits
        bounded? (if negative then -n else n)
      else none

def isExponentMark (c : Char) : Bool :=
  c == 'e' || c == 'E'

/-- The exponent at the end of a number, zero if there is none. -/
def exponent? : List Char → Option Int
  | [] => some 0
  | c :: cs =>
      let (negative, digits) := unsigned cs
      if isExponentMark c && isDigits 10 digits then
        let n : Int := digitsValue 10 digits
        some (if negative then -n else n)
      else none

/-- A number with a point or an exponent: its digits, and the power of ten to multiply them by. -/
def decimal? (cs : List Char) : Option (Nat × Int) :=
  let whole := cs.takeWhile fun c => c != '.' && !isExponentMark c
  if isDecimal whole then
    match cs.drop whole.length with
    | [] => none
    | '.' :: rest =>
        let fraction := rest.takeWhile fun c => !isExponentMark c
        if isDigits 10 fraction then
          (exponent? (rest.drop fraction.length)).map fun e =>
            (digitsValue 10 (whole ++ fraction), e - (fraction.filter (· != '_')).length)
        else none
    | rest => (exponent? rest).map (digitsValue 10 whole, ·)
  else none

/-- The midpoint between the largest number of double precision and the power of two after it. -/
def overflowBound : Nat :=
  Nat.pow 2 1024 - Nat.pow 2 970

/-- Whether `digits * 10 ^ power` rounds to a finite number of double precision. The bound has 309
digits, so only numbers of that length have to be compared with it. -/
def isFinite (digits : Nat) (power : Int) : Bool :=
  let length := (Nat.repr digits).length + power
  digits == 0 || length < 309 || (length == 309 &&
    digits * Nat.pow 10 power.toNat < overflowBound * Nat.pow 10 (-power).toNat)

def isFloat (cs : List Char) : Bool :=
  let body := (unsigned cs).2
  body == "inf".toList || body == "nan".toList || (decimal? body).any fun d => isFinite d.1 d.2

/-- A number of exactly `n` decimal digits. -/
def fixed? (n : Nat) (cs : List Char) : Option (Nat × List Char) :=
  let digits := cs.take n
  if digits.length = n ∧ digits.all (isDigitBelow 10) then some (digitsValue 10 digits, cs.drop n)
  else none

def expect? (c : Char) : List Char → Option (List Char)
  | d :: cs => if d = c then some cs else none
  | [] => none

def daysIn (year month : Nat) : Nat :=
  if month = 2 then
    if year % 4 = 0 ∧ (year % 100 ≠ 0 ∨ year % 400 = 0) then 29 else 28
  else if month = 4 ∨ month = 6 ∨ month = 9 ∨ month = 11 then 30
  else 31

/-- Read a date and return what follows. -/
def date? (cs : List Char) : Option (List Char) := do
  let (year, cs) ← fixed? 4 cs
  let cs ← expect? '-' cs
  let (month, cs) ← fixed? 2 cs
  let cs ← expect? '-' cs
  let (day, cs) ← fixed? 2 cs
  if 1 ≤ month ∧ month ≤ 12 ∧ 1 ≤ day ∧ day ≤ daysIn year month then return cs else none

/-- Read a time and return what follows. The seconds may be missing, and a minute may have a leap
second. -/
def time? (cs : List Char) : Option (List Char) := do
  let (hour, cs) ← fixed? 2 cs
  let cs ← expect? ':' cs
  let (minute, cs) ← fixed? 2 cs
  if hour ≤ 23 ∧ minute ≤ 59 then
    match cs with
    | ':' :: cs =>
        let (second, cs) ← fixed? 2 cs
        if second ≤ 60 then
          match cs with
          | '.' :: cs =>
              let fraction := cs.takeWhile (isDigitBelow 10)
              if fraction.isEmpty then none else return cs.drop fraction.length
          | cs => return cs
        else none
    | cs => return cs
  else none

/-- Whether this is the offset of a time from universal time. -/
def isOffset : List Char → Bool
  | ['Z'] => true
  | ['z'] => true
  | c :: cs =>
      (c == '+' || c == '-') &&
        (do
          let (hour, cs) ← fixed? 2 cs
          let cs ← expect? ':' cs
          let (minute, cs) ← fixed? 2 cs
          return hour ≤ 23 && minute ≤ 59 && cs.isEmpty : Option Bool).getD false
  | [] => false

def isMoment (cs : List Char) : Bool :=
  match date? cs with
  | some [] => true
  | some (c :: rest) =>
      (c == 'T' || c == 't' || c == ' ') && (time? rest).any fun tail => tail.isEmpty || isOffset tail
  | none => (time? cs).any List.isEmpty

/-- Characters of an unquoted scalar. -/
def isScalarChar (c : Char) : Bool :=
  c.isAlphanum || c == '_' || c == '+' || c == '-' || c == '.' || c == ':'

/-- Split off an unquoted scalar. A space after a date belongs to it if a digit follows. -/
def scalarRun (cs : List Char) : List Char × List Char :=
  let word := cs.takeWhile isScalarChar
  let rest := cs.drop word.length
  match rest with
  | ' ' :: d :: more =>
      if (date? word).any List.isEmpty && isDigitBelow 10 d then
        let time := (d :: more).takeWhile isScalarChar
        (word ++ ' ' :: time, (d :: more).drop time.length)
      else (word, rest)
  | _ => (word, rest)

def scalarValue? (cs : List Char) : Option Value :=
  if cs == "true".toList then some (.boolean true)
  else if cs == "false".toList then some (.boolean false)
  else if isFloat cs then some .float
  else if isMoment cs then some .moment
  else (integer? cs).map .integer

end Detachment.Toml

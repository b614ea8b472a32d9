/-!
# Quoted text in TOML

Basic strings stand between double quotes and know escapes, literal strings stand between single
quotes and know none. Both come in a form with three quotes that may span lines. A reader takes the
characters after the opening quotes and returns the text and what follows the closing quotes.
-/
namespace Detachment.Toml

def quote : Char := '\x22'

def tick : Char := '\x27'

def backslash : Char := '\x5c'

/-- Characters that may stand for themselves: everything but control characters, of which only the
tab is allowed. -/
def isPlain (c : Char) : Bool :=
  c == '\t' || (' ' ≤ c && c != '\x7f')

def hexValue? (c : Char) : Option Nat :=
  if '0' ≤ c ∧ c ≤ '9' then some (c.toNat - '0'.toNat)
  else if 'a' ≤ c ∧ c ≤ 'f' then some (c.toNat - 'a'.toNat + 10)
  else if 'A' ≤ c ∧ c ≤ 'F' then some (c.toNat - 'A'.toNat + 10)
  else none

def hexNumber? (cs : List Char) : Option Nat :=
  cs.foldlM (fun n c => (hexValue? c).map (16 * n + ·)) 0

/-- The character given by exactly `n` hexadecimal digits. -/
def codePoint? (n : Nat) (cs : List Char) : Option (Char × List Char) :=
  if (cs.take n).length = n then do
    let code ← hexNumber? (cs.take n)
    if code.isValidChar then return (Char.ofNat code, cs.drop n) else none
  else none

/-- The character of an escape, read after the backslash. -/
def escape? : List Char → Option (Char × List Char)
  | 'b' :: cs => some ('\x08', cs)
  | 't' :: cs => some ('\t', cs)
  | 'n' :: cs => some ('\n', cs)
  | 'f' :: cs => some ('\x0c', cs)
  | 'r' :: cs => some ('\r', cs)
  | 'e' :: cs => some ('\x1b', cs)
  | 'x' :: cs => codePoint? 2 cs
  | 'u' :: cs => codePoint? 4 cs
  | 'U' :: cs => codePoint? 8 cs
  | c :: cs => if c == quote || c == backslash then some (c, cs) else none
  | [] => none

/-- Drop a line break. -/
def lineBreak? : List Char → Option (List Char)
  | '\n' :: cs => some cs
  | '\r' :: '\n' :: cs => some cs
  | _ => none

def isSpace (c : Char) : Bool :=
  c == ' ' || c == '\t'

/-- Drop spaces and line breaks. -/
def dropGap : List Char → List Char
  | [] => []
  | '\n' :: cs => dropGap cs
  | '\r' :: '\n' :: cs => dropGap cs
  | c :: cs => if isSpace c then dropGap cs else c :: cs

/-- A basic string on one line. `acc` holds what has been read, in reverse. -/
def basicLoop : Nat → (acc : List Char) → List Char → Option (String × List Char)
  | 0, _, _ => none
  | _, _, [] => none
  | fuel + 1, acc, c :: cs =>
      if c == quote then some (String.ofList acc.reverse, cs)
      else if c == backslash then do
        let (e, rest) ← escape? cs
        basicLoop fuel (e :: acc) rest
      else if isPlain c then basicLoop fuel (c :: acc) cs
      else none

/-- A literal string on one line. -/
def literalLoop : (acc : List Char) → List Char → Option (String × List Char)
  | _, [] => none
  | acc, c :: cs =>
      if c == tick then some (String.ofList acc.reverse, cs)
      else if isPlain c then literalLoop (c :: acc) cs
      else none

/-- The end of a text between tripled marks. Up to two more marks belong to the text. -/
def closing? (mark : Char) (acc cs : List Char) : Option (String × List Char) :=
  let run := (cs.takeWhile (· == mark)).length
  if run < 3 then none
  else
    let extra := min (run - 3) 2
    some (String.ofList (List.replicate extra mark ++ acc).reverse, cs.drop (3 + extra))

/-- A string of several lines, basic if `escapes` and literal otherwise. A backslash at the end of
a line drops everything up to the next character that is neither space nor line break. -/
def linesLoop (mark : Char) (escapes : Bool) :
    Nat → (acc : List Char) → List Char → Option (String × List Char)
  | 0, _, _ => none
  | _, _, [] => none
  | fuel + 1, acc, c :: cs =>
      match closing? mark acc (c :: cs) with
      | some r => some r
      | none =>
          if escapes && c == backslash then
            match lineBreak? (cs.dropWhile isSpace) with
            | some rest => linesLoop mark escapes fuel acc (dropGap rest)
            | none => do
                let (e, rest) ← escape? cs
                linesLoop mark escapes fuel (e :: acc) rest
          else
            match lineBreak? (c :: cs) with
            | some rest =>
                let read := (c :: cs).take ((c :: cs).length - rest.length)
                linesLoop mark escapes fuel (read.reverse ++ acc) rest
            | none => if isPlain c then linesLoop mark escapes fuel (c :: acc) cs else none

/-- Whether a text begins with three marks. -/
def isTripled (mark : Char) (cs : List Char) : Bool :=
  cs.take 3 == [mark, mark, mark]

/-- A string of several lines, read after its three opening marks. A line break right after them
does not count. -/
def lines? (mark : Char) (escapes : Bool) (cs : List Char) : Option (String × List Char) :=
  let cs := (lineBreak? cs).getD cs
  linesLoop mark escapes (cs.length + 1) [] cs

/-- A quoted string on one line, as it may stand in a key. -/
def quotedLine? : List Char → Option (String × List Char)
  | c :: cs =>
      if c == quote then basicLoop (cs.length + 1) [] cs
      else if c == tick then literalLoop [] cs
      else none
  | [] => none

/-- A quoted string of any form. -/
def quoted? (cs : List Char) : Option (String × List Char) :=
  if isTripled quote cs then lines? quote true (cs.drop 3)
  else if isTripled tick cs then lines? tick false (cs.drop 3)
  else quotedLine? cs

end Detachment.Toml

import Detachment.Toml.Scalar

/-!
# TOML documents

A document is a sequence of lines, each of them blank, a header or a key with its value. Reading
one yields its root table or nothing.
-/
namespace Detachment.Toml

/-- Drop a comment, if there is one. Only the tab is allowed among control characters. -/
def dropComment? : List Char → Option (List Char)
  | '#' :: cs =>
      let rest := cs.dropWhile isPlain
      if rest.isEmpty || (lineBreak? rest).isSome then some rest else none
  | cs => some cs

/-- Drop spaces, line breaks and comments up to the next character that counts. `comment` tells
that a comment has begun. -/
def skipLoop : (comment : Bool) → List Char → Option (List Char)
  | _, [] => some []
  | _, '\n' :: cs => skipLoop false cs
  | _, '\r' :: '\n' :: cs => skipLoop false cs
  | true, c :: cs => if isPlain c then skipLoop true cs else none
  | false, c :: cs =>
      if isSpace c then skipLoop false cs
      else if c == '#' then skipLoop true cs
      else some (c :: cs)

/-- Drop spaces, line breaks and comments up to the next character that counts. -/
def skip? : List Char → Option (List Char) :=
  skipLoop false

/-- The rest of a line must be blank. -/
def endLine? (cs : List Char) : Option (List Char) := do
  let rest ← dropComment? (cs.dropWhile isSpace)
  if rest.isEmpty then return [] else lineBreak? rest

def isBareChar (c : Char) : Bool :=
  c.isAlphanum || c == '_' || c == '-'

/-- One part of a key. -/
def keyPart? (cs : List Char) : Option (String × List Char) :=
  match cs.takeWhile isBareChar with
  | [] => quotedLine? cs
  | word => some (String.ofList word, cs.drop word.length)

/-- The parts of a key, with the spaces after it dropped. A key with more parts than `fuel` is
refused. -/
def keyLoop : (fuel : Nat) → List Char → Option (List String × List Char)
  | 0, _ => none
  | fuel + 1, cs => do
      let (part, rest) ← keyPart? (cs.dropWhile isSpace)
      match rest.dropWhile isSpace with
      | '.' :: rest =>
          let (parts, rest) ← keyLoop fuel rest
          return (part :: parts, rest)
      | rest => return ([part], rest)

/-- How many parts a key may have, and how deep arrays and tables between braces may be nested. -/
def depthLimit : Nat := 80

/-- A key as the path before its last part and that part. -/
def key? (cs : List Char) : Option (List String × String × List Char) := do
  let (parts, rest) ← keyLoop depthLimit cs
  return (parts.dropLast, ← parts.getLast?, rest)

mutual

/-- Read a value. At most `depth` more brackets and braces may be opened inside one another. -/
def value? : (fuel depth : Nat) → List Char → Option (Value × List Char)
  | 0, _, _ => none
  | fuel + 1, depth, cs =>
      match cs with
      | '[' :: rest => do
          if depth = 0 then none
          let (items, rest) ← items? fuel (depth - 1) rest
          return (.array items, rest)
      | '\x7b' :: rest => do
          if depth = 0 then none
          let (t, rest) ← entries? fuel (depth - 1) (.empty .braces) rest
          return (t.toValue, rest)
      | c :: _ =>
          if c == quote || c == tick then do
            let (s, rest) ← quoted? cs
            return (.text s, rest)
          else do
            let (run, rest) := scalarRun cs
            return (← scalarValue? run, rest)
      | [] => none

/-- The items of an array up to its closing bracket. A comma may follow the last one. -/
def items? : (fuel depth : Nat) → List Char → Option (List Value × List Char)
  | 0, _, _ => none
  | fuel + 1, depth, cs => do
      match ← skip? cs with
      | ']' :: rest => return ([], rest)
      | cs =>
          let (v, rest) ← value? fuel depth cs
          match ← skip? rest with
          | ',' :: rest =>
              let (vs, rest) ← items? fuel depth rest
              return (v :: vs, rest)
          | ']' :: rest => return ([v], rest)
          | _ => none

/-- The entries of a table up to its closing brace. A comma may follow the last one, and line breaks
may stand anywhere but within a key. -/
def entries? : (fuel depth : Nat) → Table → List Char → Option (Table × List Char)
  | 0, _, _, _ => none
  | fuel + 1, depth, t, cs => do
      match ← skip? cs with
      | '\x7d' :: rest => return (t, rest)
      | cs =>
          let (path, key, rest) ← key? cs
          let rest ← expect? '=' (← skip? rest)
          let (v, rest) ← value? fuel depth (← skip? rest)
          let t ← t.addDotted? path key v
          match ← skip? rest with
          | ',' :: rest => entries? fuel depth t rest
          | '\x7d' :: rest => return (t, rest)
          | _ => none

end

/-- Read the lines of a document. `header` is the path of the latest header. Every line uses up
fuel and at least one character, so there is always enough for the values that follow. -/
def documentLoop : Nat → (root : Table) → (header : List String) → List Char → Option Table
  | 0, _, _, _ => none
  | fuel + 1, root, header, cs => do
      match ← skip? cs with
      | [] => return root
      | '[' :: '[' :: rest =>
          let (path, key, rest) ← key? rest
          let rest ← expect? ']' rest
          let rest ← expect? ']' rest
          let root ← root.openElement? path key
          documentLoop fuel root (path ++ [key]) (← endLine? rest)
      | '[' :: rest =>
          let (path, key, rest) ← key? rest
          let rest ← expect? ']' rest
          let root ← root.openHeader? path key
          documentLoop fuel root (path ++ [key]) (← endLine? rest)
      | cs =>
          let (path, key, rest) ← key? cs
          let rest ← expect? '=' rest
          let (v, rest) ← value? fuel depthLimit (rest.dropWhile isSpace)
          let root ← root.update? .implied (·.addDotted? path key v) header
          documentLoop fuel root header (← endLine? rest)

/-- Read a document. A byte order mark at its start is ignored. -/
def parse? (src : String) : Option Table :=
  let cs := match src.toList with
    | '\ufeff' :: cs => cs
    | cs => cs
  documentLoop (cs.length + 1) (.empty .header) [] cs

end Detachment.Toml

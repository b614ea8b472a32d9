import Detachment.Sheet

/-!
# Layout within a width

A compound part is written flat if it fits on the rest of the line together with what must follow
it there. Otherwise its line is broken after the connective. Parts of a flat part are flat. There
is no indentation, so removing the line breaks gives back `Formula.text`.

The result is a list of pieces that carry their style. It is written plainly, or in colour with
terminal escape sequences.
-/
namespace Detachment

/-- The role of a piece of text. Parentheses know how deeply they are nested. -/
inductive Style where
  | plain
  | paren (depth : Nat)
  | operator
  | negation
  | var
  | const
  deriving DecidableEq, Repr

inductive Piece where
  | text (style : Style) (content : String)
  | newline
  deriving DecidableEq, Repr

namespace Style

/-- The escape sequences that switch a style on. Parentheses take turns through six colours, and
their depth is counted in one byte. -/
def escape : Style → String
  | plain => ""
  | paren depth =>
      "\x1b[2m" ++
        match depth % 256 % 6 with
        | 0 => "\x1b[34m"
        | 1 => "\x1b[32m"
        | 2 => "\x1b[37m"
        | 3 => "\x1b[33m"
        | 4 => "\x1b[31m"
        | _ => "\x1b[35m"
  | operator => "\x1b[1m\x1b[33m"
  | negation => "\x1b[1m\x1b[31m"
  | var => "\x1b[1m\x1b[32m"
  | const => "\x1b[1m\x1b[36m"

end Style

namespace Piece

def plain : Piece → String
  | text _ s => s
  | newline => "\n"

/-- The piece between a reset, its style and another reset. Plain pieces are left alone. -/
def coloured : Piece → String
  | text .plain s => s
  | text style s => "\x1b[0m" ++ style.escape ++ s ++ "\x1b[0m"
  | newline => "\n"

end Piece

namespace Leaf

def pieces (a : Leaf) : List Piece :=
  let sign := if a.negated then [Piece.text .negation "!"] else []
  match a.kind with
  | .unknown => [.text .plain a.text]
  | .const => sign ++ [.text .const (letter a.value true)]
  | .var => sign ++ [.text .var (letter a.value false)]

end Leaf

namespace Formula

variable {α : Type}

/-- Lay out a part of a formula from a column on, and return the column where it ends.

`flat` tells that an enclosing part is flat, `nested` that a compound part needs parentheses, and
`trail` is the number of characters that must follow on the same line. -/
def layoutFrom (width : Nat) :
    (flat nested : Bool) → (depth trail column : Nat) → Formula α → List Piece × Nat
  | _, _, _, _, column, leaf _ a => (a.pieces, column + a.text.length)
  | flat, nested, depth, trail, column, node s c l r =>
      let t := node s c l r
      let len := if nested then t.innerLength else t.textLength
      let flat := flat || column + len + trail ≤ width
      let extra := if nested then 1 else 0
      let (left, afterLeft) := l.layoutFrom width flat true (depth + extra) 1 (column + extra)
      let start := if flat then afterLeft + 1 else 0
      let (right, afterRight) :=
        r.layoutFrom width flat true (depth + extra) (trail + extra) start
      let body := left ++ [.text .operator c.symbol] ++ (if flat then [] else [.newline]) ++ right
      if nested then
        ([.text (.paren depth) "("] ++ body ++ [.text (.paren depth) ")"], afterRight + 1)
      else
        (body, afterRight)

/-- The pieces of a whole formula within a width. -/
def layout (width : Nat) (t : Formula α) : List Piece :=
  (t.layoutFrom width false false 0 0 0).1

end Formula

namespace Sheet

def layout (width : Nat) (s : Sheet) : List Piece :=
  s.elim [.text .plain "empty"] (Formula.layout width)

def plainLayout (width : Nat) (s : Sheet) : String :=
  String.join ((s.layout width).map Piece.plain)

def colouredLayout (width : Nat) (s : Sheet) : String :=
  String.join ((s.layout width).map Piece.coloured)

/-- The layout within a width that leaves room for the whole text. -/
def singleLine (s : Sheet) : String :=
  s.plainLayout (max s.text.length 80)

end Sheet

end Detachment

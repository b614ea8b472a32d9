import Detachment.Label
import Detachment.Text.Blank

/-!
# Tokens of the formula language

Every token is one character. Variables are the letters `a` to `z`, numbered from one. A token
read from a text remembers its position, a byte offset in UTF-8.
-/
namespace Detachment

inductive Token where
  | lparen
  | rparen
  | bang
  | binary (c : Connective)
  | var (n : Nat)
  deriving DecidableEq, Repr

namespace Token

def ofChar? (c : Char) : Option Token :=
  match c with
  | '(' => some lparen
  | ')' => some rparen
  | '!' => some bang
  | '>' => some (binary .implication)
  | '|' => some (binary .disjunction)
  | '*' => some (binary .conjunction)
  | '+' => some (binary .xor)
  | '=' => some (binary .equivalence)
  | c => if 'a' ≤ c ∧ c ≤ 'z' then some (var (c.toNat - 'a'.toNat + 1)) else none

def text : Token → String
  | lparen => "("
  | rparen => ")"
  | bang => "!"
  | binary c => c.symbol
  | var n => letter n false

end Token

/-- A token with the position of its character. -/
structure Spotted where
  token : Token
  position : Nat
  deriving DecidableEq, Repr

/-- A character that is neither blank nor a token, with its position. -/
structure Stray where
  char : Char
  position : Nat
  deriving DecidableEq, Repr

/-- The tokens of a text that begins at `position`, or the first stray character. -/
def tokens (position : Nat) : List Char → Except Stray (List Spotted)
  | [] => .ok []
  | c :: cs =>
      if Text.isBlank c then tokens (position + c.utf8Size) cs
      else
        match Token.ofChar? c with
        | none => .error ⟨c, position⟩
        | some t => (tokens (position + c.utf8Size) cs).map (⟨t, position⟩ :: ·)

end Detachment

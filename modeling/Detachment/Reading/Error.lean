import Detachment.Reading.Token

/-!
# Why a text is not a formula
-/
namespace Detachment

/-- What could have continued a formula where its text went wrong. -/
inductive Expectation where
  /-- The beginning of a formula, at the start or after an opening parenthesis. -/
  | formula
  /-- An operand, after an operator. -/
  | operand
  /-- An operator or a closing parenthesis. -/
  | closing
  /-- An operator or the end. -/
  | finish
  deriving DecidableEq, Repr

namespace Expectation

def text : Expectation → String
  | formula => "formula"
  | operand => "'!', or operand"
  | closing => "something else, or ')'"
  | finish => "something else, or end of input"

end Expectation

inductive ReadError where
  | empty
  | invalidCharacter (char : Char) (position : Nat)
  | unbalanced (position : Nat)
  | consecutiveOperators (position : Nat)
  /-- The first token that cannot continue a formula, or the end of the text. -/
  | unexpected (position : Nat) (found : Option Token) (expected : Expectation)
  deriving DecidableEq, Repr

namespace ReadError

def position? : ReadError → Option Nat
  | empty => none
  | invalidCharacter _ p => some p
  | unbalanced p => some p
  | consecutiveOperators p => some p
  | unexpected p _ _ => some p

def message : ReadError → String
  | empty => "empty formula"
  | invalidCharacter c p =>
      "invalid character '" ++ String.singleton c ++ "' at position " ++ Nat.repr p
  | unbalanced p => "unbalanced parenthesis at position " ++ Nat.repr p
  | consecutiveOperators p => "consecutive binary operators at position " ++ Nat.repr p
  | unexpected p found expected =>
      let shown := found.elim "end of input" fun t => "'" ++ t.text ++ "'"
      "syntax error at position " ++ Nat.repr p ++ ": found " ++ shown ++ " expected " ++
        expected.text

end ReadError

end Detachment

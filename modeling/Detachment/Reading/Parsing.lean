import Detachment.Formula.Placement
import Detachment.Reading.Error

/-!
# Reading formulas

From tightest to loosest the operators are `!`, `*`, `|`, then `+` and `=`, then `>`. All binary
ones group to the right. A `!` is carried out at once by `Formula.negate`.

A text is checked in stages: it must not be blank, it must consist of tokens, its parentheses must
match and no binary operator may follow another, and its tokens must form a formula. The first
stage that fails gives the error.
-/
namespace Detachment

namespace Connective

/-- How loosely a connective binds, from 0 for the loosest. -/
def level : Connective → Nat
  | implication => 0
  | xor => 1
  | equivalence => 1
  | disjunction => 2
  | conjunction => 3

end Connective

namespace Reading

/-- The level of operands, tighter than every connective. -/
def operandLevel : Nat := 4

/-- Look for a closing parenthesis without an opening one and for adjacent binary operators.
`opened` holds the positions of the parentheses still open, innermost first, and `afterBinary` tells
that the previous token is a binary operator. -/
def checkStructure : List Nat → Bool → List Spotted → Except ReadError Unit
  | [], _, [] => .ok ()
  | p :: _, _, [] => .error (.unbalanced p)
  | opened, _, ⟨.lparen, p⟩ :: rest => checkStructure (p :: opened) false rest
  | [], _, ⟨.rparen, p⟩ :: _ => .error (.unbalanced p)
  | _ :: opened, _, ⟨.rparen, _⟩ :: rest => checkStructure opened false rest
  | _, true, ⟨.binary _, p⟩ :: _ => .error (.consecutiveOperators p)
  | opened, false, ⟨.binary _, _⟩ :: rest => checkStructure opened true rest
  | opened, _, ⟨.bang, _⟩ :: rest => checkStructure opened false rest
  | opened, _, ⟨.var _, _⟩ :: rest => checkStructure opened false rest

/-- A failure to go on, with the tokens that were not read. -/
structure Halt where
  expected : Expectation
  rest : List Spotted
  deriving DecidableEq, Repr

/-- Read a formula of the given level from the front of a token list.

`fresh` tells that the formula stands at the start or after an opening parenthesis. The depth of
calls is bounded by `fuel`: between two tokens each level is entered at most once. -/
def formulaAt : (fuel level : Nat) → (fresh : Bool) → List Spotted →
    Except Halt (Shape × List Spotted)
  | 0, _, _, ts => .error ⟨.formula, ts⟩
  | fuel + 1, level, fresh, ts =>
      if level < operandLevel then
        match formulaAt fuel (level + 1) fresh ts with
        | .error e => .error e
        | .ok (l, ⟨.binary c, p⟩ :: rest) =>
            if c.level = level then
              match formulaAt fuel level false rest with
              | .error e => .error e
              | .ok (r, rest') => .ok (.node () c l r, rest')
            else .ok (l, ⟨.binary c, p⟩ :: rest)
        | .ok (l, rest) => .ok (l, rest)
      else
        match ts with
        | ⟨.bang, _⟩ :: rest =>
            match formulaAt fuel level false rest with
            | .error e => .error e
            | .ok (t, rest') => .ok (t.negate, rest')
        | ⟨.var n, _⟩ :: rest => .ok (.leaf () (.var n), rest)
        | ⟨.lparen, _⟩ :: rest =>
            match formulaAt fuel 0 true rest with
            | .error e => .error e
            | .ok (t, ⟨.rparen, _⟩ :: rest') => .ok (t, rest')
            | .ok (_, rest') => .error ⟨.closing, rest'⟩
        | _ => .error ⟨if fresh then .formula else .operand, ts⟩

/-- Enough for `formulaAt` to read any list of `n` tokens. -/
def depthBound (n : Nat) : Nat :=
  (operandLevel + 1) * (n + 1)

/-- Read all of a token list as one formula. -/
def wholeFormula (ts : List Spotted) : Except Halt Shape :=
  match formulaAt (depthBound ts.length) 0 true ts with
  | .error e => .error e
  | .ok (t, []) => .ok t
  | .ok (_, rest) => .error ⟨.finish, rest⟩

/-- The error for a failure in a text of `len` bytes. -/
def Halt.toError (len : Nat) (e : Halt) : ReadError :=
  match e.rest with
  | [] => .unexpected len none e.expected
  | ⟨t, p⟩ :: _ => .unexpected p (some t) e.expected

end Reading

open Reading in
/-- Read a text as a formula, canonically placed. -/
def parse (src : String) : Except ReadError (Formula Nat) :=
  let cs := src.toList
  if cs.all Text.isBlank then .error .empty
  else
    match tokens 0 cs with
    | .error s => .error (.invalidCharacter s.char s.position)
    | .ok ts =>
        match checkStructure [] false ts with
        | .error e => .error e
        | .ok () =>
            match wholeFormula ts with
            | .error e => .error (e.toError src.utf8ByteSize)
            | .ok t => .ok t.place

end Detachment

/-!
# Connectives and operations

A formula is built from five binary connectives. An `Operation` is what can stand in the operator
field of a label: nothing, a negation mark, or a connective. Each operation has a one-character
symbol and a small numeric code.
-/
namespace Detachment

/-- The binary connectives of the formula language. -/
inductive Connective where
  | implication
  | disjunction
  | conjunction
  | xor
  | equivalence
  deriving DecidableEq, Repr, Inhabited

namespace Connective

def symbol : Connective → String
  | implication => ">"
  | disjunction => "|"
  | conjunction => "*"
  | xor => "+"
  | equivalence => "="

/-- The truth table. -/
def truth : Connective → Bool → Bool → Bool
  | implication, a, b => !a || b
  | disjunction, a, b => a || b
  | conjunction, a, b => a && b
  | xor, a, b => a != b
  | equivalence, a, b => a == b

/-- The connective at the root of a negated formula. The operands still have to be adjusted:
see `Formula.negate`. -/
def opposite : Connective → Connective
  | implication => conjunction
  | disjunction => conjunction
  | conjunction => implication
  | xor => equivalence
  | equivalence => xor

def isCommutative : Connective → Bool
  | implication => false
  | _ => true

end Connective

/-- The operator field of a label. -/
inductive Operation where
  | nop
  | negation
  | binary (c : Connective)
  deriving DecidableEq, Repr, Inhabited

namespace Operation

/-- Every operation, in the order of its code. -/
def all : List Operation :=
  [nop, negation, binary .implication, binary .disjunction, binary .conjunction, binary .xor,
    binary .equivalence]

def symbol : Operation → String
  | nop => ""
  | negation => "!"
  | binary c => c.symbol

/-- The operation written as `c`. `nop` has no symbol, so it is never found. -/
def ofSymbol? (c : Char) : Option Operation :=
  all.find? fun op => op.symbol == String.singleton c

def code : Operation → Nat
  | nop => 0
  | negation => 1
  | binary .implication => 2
  | binary .disjunction => 3
  | binary .conjunction => 4
  | binary .xor => 5
  | binary .equivalence => 6

def ofCode? (n : Nat) : Option Operation :=
  all[n]?

@[simp] theorem ofCode?_code (op : Operation) : ofCode? op.code = some op := by
  cases op with
  | nop => rfl
  | negation => rfl
  | binary c => cases c <;> rfl

def opposite : Operation → Operation
  | nop => nop
  | negation => negation
  | binary c => binary c.opposite

def isBinary : Operation → Bool
  | binary _ => true
  | _ => false

def isCommutative : Operation → Bool
  | binary c => c.isCommutative
  | _ => false

end Operation

end Detachment

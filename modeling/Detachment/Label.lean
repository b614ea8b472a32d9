import Detachment.Operation

/-!
# Labels

A node of a formula is described from outside by a `Label`: what kind of node it is, its operation
and its value. The value numbers a variable or a constant, and every number has a letter. Values are
stored with 32 bits.
-/
namespace Detachment

/-- What a number is stored as: the number with a sign that has the same low 32 bits. -/
def wrap (n : Int) : Int :=
  n.bmod 0x100000000

/-- The letter of a number: `a` to `z` for 1 to 26, then `a1` to `z1`, `a2` and so on. The sign is
ignored and zero is an underscore. -/
def letter (value : Int) (upper : Bool) : String :=
  match value.natAbs with
  | 0 => "_"
  | n + 1 =>
      let base := if upper then 'A'.toNat else 'a'.toNat
      let first := String.singleton (Char.ofNat (base + n % 26))
      if n / 26 = 0 then first else first ++ Nat.repr (n / 26)

inductive Kind where
  | unknown
  | const
  | var
  | function
  deriving DecidableEq, Repr, Inhabited

structure Label where
  kind : Kind
  op : Operation
  value : Int
  deriving DecidableEq, Repr, Inhabited

namespace Label

/-- The label of an operator node. -/
def function (op : Operation) : Label :=
  ⟨.function, op, 0⟩

def isLeaf (l : Label) : Bool :=
  l.kind == .var || l.kind == .const

def isVariable (l : Label) : Bool :=
  l.kind == .var

def isFunction (l : Label) : Bool :=
  l.kind == .function

def isNegated (l : Label) : Bool :=
  l.op == .negation

/-- Set the negation mark, or clear it if it is set. -/
def toggle (l : Label) : Label :=
  { l with op := if l.isNegated then .nop else .negation }

def text (l : Label) : String :=
  match l.kind with
  | .unknown => "?"
  | .function => l.op.symbol
  | .const => (if l.isNegated then "!" else "") ++ letter l.value true
  | .var => (if l.isNegated then "!" else "") ++ letter l.value false

end Label

/-- What a leaf stands for: a letter held fixed, a letter open to substitution, or neither. -/
inductive LeafKind where
  | unknown
  | const
  | var
  deriving DecidableEq, Repr, Inhabited

namespace LeafKind

def toKind : LeafKind → Kind
  | unknown => .unknown
  | const => .const
  | var => .var

end LeafKind

/-- A letter with its sign. The sign is `negation` or `nop`. A leaf can carry a connective there as
well, which is kept and compared but counts as no sign. -/
structure Leaf where
  kind : LeafKind
  op : Operation
  value : Int
  deriving DecidableEq, Repr, Inhabited

namespace Leaf

/-- The positive variable with the given number. -/
def var (value : Int) : Leaf :=
  ⟨.var, .nop, value⟩

/-- The positive constant with the given number. -/
def const (value : Int) : Leaf :=
  ⟨.const, .nop, value⟩

def isVariable (l : Leaf) : Bool :=
  l.kind == .var

def negated (l : Leaf) : Bool :=
  l.op == .negation

/-- The number of a variable. -/
def varNumber? (l : Leaf) : Option Int :=
  if l.isVariable then some l.value else none

def label (l : Leaf) : Label :=
  ⟨l.kind.toKind, l.op, l.value⟩

def text (l : Leaf) : String :=
  l.label.text

/-- The leaf with the opposite sign. A leaf of unknown kind has no opposite and stays. -/
def negate (l : Leaf) : Leaf :=
  match l.kind with
  | .unknown => l
  | _ => { l with op := if l.negated then .nop else .negation }

/-- Change the number of a variable. -/
def rename (f : Int → Int) (l : Leaf) : Leaf :=
  if l.isVariable then { l with value := f l.value } else l

/-- Turn a variable into the constant of the same number. -/
def freeze (l : Leaf) : Leaf :=
  if l.isVariable then { l with kind := .const } else l

end Leaf

end Detachment

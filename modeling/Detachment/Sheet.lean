import Detachment.Formula.Placement
import Detachment.Formula.Rendering

/-!
# Sheets

A sheet holds one stored formula or is blank. Inference steps that do not apply yield a blank
sheet, and the prover accepts blank sheets among its premises.
-/
namespace Detachment

abbrev Sheet := Option (Formula Nat)

namespace Sheet

def text (s : Sheet) : String :=
  s.elim "empty" Formula.text

def size (s : Sheet) : Nat :=
  s.elim 0 Formula.size

def table (s : Sheet) : List Entry :=
  s.elim [] Formula.table

def label? (s : Sheet) : Option Label :=
  s.map Formula.label

def isRootedAt (op : Operation) (s : Sheet) : Bool :=
  s.any (Formula.isRootedAt op)

def operations (op : Operation) (s : Sheet) : Nat :=
  s.elim 0 (Formula.operations op)

def normalize (s : Sheet) : Sheet :=
  s.map Formula.normalize

/-- The largest variable, or zero if there is none. -/
def maxVariable (s : Sheet) : Int :=
  s.elim 0 Formula.maxVariable

def shiftVariablesBy (fit : Int → Int) (bound : Int) (s : Sheet) : Sheet :=
  s.map (Formula.shiftVariablesBy fit bound)

def shiftVariables (bound : Int) (s : Sheet) : Sheet :=
  s.shiftVariablesBy id bound

/-- Put the formula on `w` in the place of the variable `v`, and count the leaves replaced. Nothing is
replaced if one of the sheets is blank. -/
def replace (x : Sheet) (v : Int) (w : Sheet) : Sheet × Nat :=
  match x, w with
  | some t, some u => (some (t.replace v u), (t.slotsOf v).length)
  | _, _ => (x, 0)

/-- Slot by slot comparison. Blank sheets agree with each other only. -/
def agrees (ignoreKinds : Bool) : Sheet → Sheet → Bool
  | some a, some b => a.agrees ignoreKinds b
  | none, none => true
  | _, _ => false

end Sheet

end Detachment

import Detachment.Formula.Basic

/-!
# The text of a formula

A formula is written without blanks, with parentheses around every compound part but the whole. The
text is built from left to right by appending to what is already there, so writing it takes time in
proportion to its length.
-/
namespace Detachment.Formula

variable {α : Type}

/-- Append the text of a part of a formula, in parentheses if it is compound. -/
def appendTo (out : String) : Formula α → String
  | leaf _ a => out ++ a.text
  | node _ c l r => r.appendTo (l.appendTo (out ++ "(") ++ c.symbol) ++ ")"

/-- The text of a part of a formula, in parentheses if it is compound. -/
def innerText (t : Formula α) : String :=
  t.appendTo ""

/-- The text of a whole formula, such as `(a>b)>!C`. -/
def text : Formula α → String
  | leaf _ a => a.text
  | node _ c l r => r.appendTo (l.appendTo "" ++ c.symbol)

/-- The length of `innerText`. -/
def innerLength : Formula α → Nat
  | leaf _ a => a.text.length
  | node _ c l r => l.innerLength + c.symbol.length + r.innerLength + 2

/-- The length of `text`. -/
def textLength : Formula α → Nat
  | leaf _ a => a.text.length
  | node _ c l r => l.innerLength + c.symbol.length + r.innerLength

theorem appendTo_eq (out : String) (t : Formula α) : t.appendTo out = out ++ t.innerText := by
  rw [innerText]
  induction t generalizing out with
  | leaf s a => simp [appendTo]
  | node s c l r ihl ihr =>
      rw [appendTo, appendTo, ihr, ihl, ihr (l.appendTo _ ++ _), ihl ("" ++ _)]
      simp [String.append_assoc]

theorem innerText_leaf (s : α) (a : Leaf) : (leaf s a).innerText = a.text := by
  simp [innerText, appendTo]

theorem innerText_node (s : α) (c : Connective) (l r : Formula α) :
    (node s c l r).innerText = "(" ++ l.innerText ++ c.symbol ++ r.innerText ++ ")" := by
  rw [innerText, appendTo, appendTo_eq, appendTo_eq]
  simp [String.append_assoc]

theorem text_node (s : α) (c : Connective) (l r : Formula α) :
    (node s c l r).text = l.innerText ++ c.symbol ++ r.innerText := by
  rw [text, appendTo_eq, appendTo_eq]
  simp [String.append_assoc]

theorem length_innerText (t : Formula α) : t.innerText.length = t.innerLength := by
  induction t with
  | leaf s a => rw [innerText_leaf, innerLength]
  | node s c l r ihl ihr =>
      rw [innerText_node, innerLength, ← ihl, ← ihr]
      simp only [String.length_append]
      have : "(".length = 1 := rfl
      have : ")".length = 1 := rfl
      omega

theorem length_text (t : Formula α) : t.text.length = t.textLength := by
  cases t with
  | leaf s a => rfl
  | node s c l r =>
      rw [text_node, textLength, ← length_innerText, ← length_innerText]
      simp only [String.length_append]

end Detachment.Formula

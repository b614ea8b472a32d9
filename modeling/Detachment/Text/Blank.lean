/-!
# Blanks, words and lines

`isBlank` is the `White_Space` property of Unicode. Texts are handled as lists of characters.
-/
namespace Detachment.Text

/-- The ranges of code points with the property `White_Space`, in ascending order. -/
def blankRanges : List (Nat × Nat) :=
  [(0x09, 0x0d), (0x20, 0x20), (0x85, 0x85), (0xa0, 0xa0), (0x1680, 0x1680), (0x2000, 0x200a),
    (0x2028, 0x2029), (0x202f, 0x202f), (0x205f, 0x205f), (0x3000, 0x3000)]

def isBlank (c : Char) : Bool :=
  blankRanges.any fun r => r.1 ≤ c.toNat && c.toNat ≤ r.2

/-- Split off pieces that end before a separator. `piece` and `done` hold, in reverse, the piece
being read and the pieces before it. -/
def splitLoop (sep : Char → Bool) : List Char → List Char → List (List Char) → List (List Char)
  | [], piece, done => (piece.reverse :: done).reverse
  | c :: cs, piece, done =>
      if sep c then splitLoop sep cs [] (piece.reverse :: done)
      else splitLoop sep cs (c :: piece) done

/-- The pieces between separators, empty ones included. -/
def splitWhere (sep : Char → Bool) (cs : List Char) : List (List Char) :=
  splitLoop sep cs [] []

/-- The maximal runs of characters that are not blank. -/
def words (cs : List Char) : List (List Char) :=
  (splitWhere isBlank cs).filter fun w => !w.isEmpty

/-- The lines of a text. A line ends before a line feed, and nothing follows the last of them. -/
def lines (cs : List Char) : List (List Char) :=
  match (splitWhere (· == '\n') cs).reverse with
  | [] :: rest => rest.reverse
  | all => all.reverse

theorem splitLoop_eq (sep : Char → Bool) (cs piece : List Char) (done : List (List Char)) :
    splitLoop sep cs piece done = done.reverse ++ splitLoop sep cs piece [] := by
  induction cs generalizing piece done with
  | nil => simp [splitLoop]
  | cons c cs ih =>
      by_cases h : sep c
      · simp only [splitLoop, h, if_true]
        rw [ih [] (piece.reverse :: done), ih [] [piece.reverse]]
        simp
      · simp only [splitLoop, h]
        exact ih (c :: piece) done

end Detachment.Text

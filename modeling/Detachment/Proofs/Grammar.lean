import Detachment.Proofs.Meaning
import Detachment.Proofs.Readability
import Detachment.Reading.Parsing

/-!
# The grammar of formulas

A text without blanks is a formula if the grammar derives it:

    formula     = parity ('>' formula)?
    parity      = disjunction (('+' | '=') parity)?
    disjunction = conjunction ('|' disjunction)?
    conjunction = prefixed ('*' conjunction)?
    prefixed    = '!'* atom
    atom        = 'a' | ... | 'z' | '(' formula ')'

A derivation is recorded as a `Sentence`. The grammar is unambiguous: a text has at most one of
them, and what it stands for is built up in its slots from the letters on, each `!` being carried
out on its operand.
-/
namespace Detachment

/-- The phrases of the grammar, from the loosest to the tightest. -/
inductive Phrase where
  | formula
  | parity
  | disjunction
  | conjunction
  | prefixed
  | atom
  deriving DecidableEq, Repr

namespace Phrase

/-- The phrase that the operands of a phrase are. -/
def operand? : Phrase → Option Phrase
  | formula => some parity
  | parity => some disjunction
  | disjunction => some conjunction
  | conjunction => some prefixed
  | prefixed => some atom
  | atom => none

/-- The level at which a phrase is read. Negations and atoms are both read as operands. -/
def level : Phrase → Nat
  | formula => 0
  | parity => 1
  | disjunction => 2
  | conjunction => 3
  | prefixed => Reading.operandLevel
  | atom => Reading.operandLevel

end Phrase

/-- The phrase that a connective makes of its operands. -/
def Connective.phrase : Connective → Phrase
  | implication => .formula
  | xor => .parity
  | equivalence => .parity
  | disjunction => .disjunction
  | conjunction => .conjunction

theorem Connective.level_phrase (c : Connective) : c.phrase.level = c.level := by
  cases c <;> rfl

/-- What is said in a text: its letters, parentheses, negations and connectives. -/
inductive Sentence where
  | letter (c : Char)
  | group (inner : Sentence)
  | negation (operand : Sentence)
  | binary (c : Connective) (left right : Sentence)
  deriving DecidableEq, Repr

/-- The grammar derives a text as a phrase. The sentence records how. -/
inductive Derives : Phrase → List Char → Sentence → Prop
  | letter {c : Char} (h : 'a' ≤ c ∧ c ≤ 'z') : Derives .atom [c] (.letter c)
  | group {cs : List Char} {t : Sentence} (h : Derives .formula cs t) :
      Derives .atom ('(' :: (cs ++ [')'])) (.group t)
  | negation {cs : List Char} {t : Sentence} (h : Derives .prefixed cs t) :
      Derives .prefixed ('!' :: cs) (.negation t)
  | single {p q : Phrase} {cs : List Char} {t : Sentence} (hq : p.operand? = some q)
      (h : Derives q cs t) : Derives p cs t
  | chain {p q : Phrase} {c : Connective} {cs ds : List Char} {l r : Sentence} (hc : c.phrase = p)
      (hq : p.operand? = some q) (hl : Derives q cs l) (hr : Derives p ds r) :
      Derives p (cs ++ c.symbol.toList ++ ds) (.binary c l r)

/-! ### What a sentence stands for -/

/-- The number of a letter, from one for `a`. -/
def letterNumber (c : Char) : Nat :=
  c.toNat - 'a'.toNat + 1

namespace Formula

variable {α : Type}

theorem map_placeFrom (k n : Nat) (t : Formula α) :
    (t.placeFrom n).map (· + k) = t.placeFrom (n + k) := by
  induction t generalizing n with
  | leaf s a => rfl
  | node s c l r ihl ihr =>
      rw [placeFrom, map, ihl, ihr, placeFrom]
      congr 2 <;> omega

theorem negate_placeFrom (n : Nat) (t : Formula α) :
    (t.placeFrom n).negate = t.negate.placeFrom n := by
  induction t generalizing n with
  | leaf s a => rfl
  | node s c l r ihl ihr => cases c <;> simp [placeFrom, negate, ihl, ihr]

theorem negateAt_place (t : Formula α) : t.place.negateAt 0 = t.negate.place := by
  rw [place_eq, place_eq, ← negate_placeFrom]
  cases t <;> simp [placeFrom, negateAt, modifyAt]

theorem join_place (c : Connective) (l r : Formula α) (s : α) :
    join c l.place r.place = (node s c l r).place := by
  rw [place_eq, place_eq, place_eq, join, map_placeFrom, map_placeFrom, size_placeFrom, placeFrom]
  congr 2
  omega

end Formula

namespace Sentence

/-- The formula of a sentence, with every negation carried out. -/
def shape : Sentence → Shape
  | letter c => .leaf () (.var (letterNumber c))
  | group t => t.shape
  | negation t => t.shape.negate
  | binary c l r => .node () c l.shape r.shape

/-- The formula of a sentence as it is stored, put together from the letters on. -/
def stored : Sentence → Formula Nat
  | letter c => .leaf 0 (.var (letterNumber c))
  | group t => t.stored
  | negation t => t.stored.negateAt 0
  | binary c l r => Formula.join c l.stored r.stored

/-- The truth value of a sentence. -/
def truth (letters : Int → Bool) : Sentence → Bool
  | letter c => letters (letterNumber c)
  | group t => t.truth letters
  | negation t => !t.truth letters
  | binary c l r => c.truth (l.truth letters) (r.truth letters)

theorem stored_eq (t : Sentence) : t.stored = t.shape.place := by
  induction t with
  | letter c => rfl
  | group t ih => exact ih
  | negation t ih => rw [stored, ih, Formula.negateAt_place, shape]
  | binary c l r ihl ihr => rw [stored, ihl, ihr, Formula.join_place, shape]

/-- A sentence has variables only. -/
theorem within_shape {F : Fragment} (hF : ∀ c, F.op c) (t : Sentence) : t.shape.Within F := by
  induction t with
  | letter c => exact F.leaf_var _
  | group t ih => exact ih
  | negation t ih => exact ih.negate
  | binary c l r ihl ihr => exact ⟨hF c, ihl, ihr⟩

theorem eval_stored (t : Sentence) (vars consts : Int → Bool) :
    t.stored.eval vars consts = t.truth vars := by
  rw [stored_eq, Formula.eval_place]
  induction t with
  | letter c => rfl
  | group t ih => exact ih
  | negation t ih =>
      rw [truth, ← ih]
      exact Formula.value_negate _ _ _ (t.within_shape fun _ => trivial)
  | binary c l r ihl ihr => rw [shape, Formula.eval_node, ihl, ihr, truth]

end Sentence

/-! ### The grammar is unambiguous -/

/-- No connective follows that a phrase would have taken in. -/
def Phrase.Stops (p : Phrase) (rest : List Char) : Prop :=
  ∀ (c : Connective) (ds : List Char), rest = c.symbol.toList ++ ds → c.level < p.level

namespace Phrase

variable {p q : Phrase} {rest : List Char}

theorem level_lt_of_operand? (hq : p.operand? = some q) {c : Connective} (hc : c.phrase = p) :
    p.level < q.level := by
  subst hc
  cases c <;> cases hq <;> decide

theorem level_le_of_operand? (hq : p.operand? = some q) : p.level ≤ q.level := by
  cases p <;> cases hq <;> decide

theorem Stops.operand (h : p.Stops rest) (hq : p.operand? = some q) : q.Stops rest :=
  fun c ds hrest => Nat.lt_of_lt_of_le (h c ds hrest) (level_le_of_operand? hq)

theorem stops_nil (p : Phrase) : p.Stops [] := by
  intro c ds h
  cases c <;> cases h

theorem stops_closing (p : Phrase) (rest : List Char) : p.Stops (')' :: rest) := by
  intro c ds h
  cases c <;> cases h

/-- A connective ends its left operand. -/
theorem stops_connective (hq : p.operand? = some q) {c : Connective} (hc : c.phrase = p)
    (rest : List Char) : q.Stops (c.symbol.toList ++ rest) := by
  intro c' ds h
  obtain ⟨rfl, -⟩ := Formula.symbol_append_inj h
  rw [← c.level_phrase, hc]
  exact level_lt_of_operand? hq hc

/-- A connective does not end the phrase that it makes. -/
theorem not_stops_connective {c : Connective} (hc : c.phrase = p) (rest : List Char) :
    ¬p.Stops (c.symbol.toList ++ rest) := by
  intro h
  have := h c rest rfl
  rw [← hc, c.level_phrase] at this
  exact Nat.lt_irrefl _ this

end Phrase

theorem Derives.exists_cons {cs : List Char} {t : Sentence} (h : Derives .atom cs t) :
    ∃ c ds, cs = c :: ds ∧ c ≠ '!' := by
  cases h with
  | letter h =>
      refine ⟨_, [], rfl, ?_⟩
      rintro rfl
      exact absurd h (by decide)
  | group h => exact ⟨'(', _, rfl, by decide⟩
  | single hq h => cases hq
  | chain hc hq hl hr => cases hq

/-- Two readings of the beginning of a text as the same phrase take in the same characters in the
same way, if neither could go on. -/
theorem Derives.unique {p : Phrase} {cs cs' rest rest' : List Char} {t t' : Sentence}
    (h : Derives p cs t) (h' : Derives p cs' t') (hrest : p.Stops rest) (hrest' : p.Stops rest')
    (heq : cs ++ rest = cs' ++ rest') : cs = cs' ∧ t = t' := by
  induction h generalizing cs' rest rest' t' with
  | @letter c h =>
      cases h' with
      | letter h' =>
          obtain ⟨rfl, -⟩ := List.cons.inj heq
          exact ⟨rfl, rfl⟩
      | group h' =>
          obtain ⟨rfl, -⟩ := List.cons.inj heq
          exact absurd h (by decide)
      | single hq h' => cases hq
      | chain hc hq hl hr => cases hq
  | @group cs t h ih =>
      cases h' with
      | letter h' =>
          obtain ⟨rfl, -⟩ := List.cons.inj heq
          exact absurd h' (by decide)
      | @group cs' t' h' =>
          simp only [List.cons_append, List.append_assoc, List.nil_append, List.cons.injEq,
            true_and] at heq
          obtain ⟨rfl, rfl⟩ := ih h' (Phrase.stops_closing _ rest) (Phrase.stops_closing _ rest') heq
          exact ⟨rfl, rfl⟩
      | single hq h' => cases hq
      | chain hc hq hl hr => cases hq
  | @negation cs t h ih =>
      cases h' with
      | @negation cs' t' h' =>
          obtain ⟨rfl, rfl⟩ := ih h' hrest hrest' (List.cons.inj heq).2
          exact ⟨rfl, rfl⟩
      | single hq h' =>
          cases hq
          obtain ⟨c, ds, rfl, hc⟩ := h'.exists_cons
          exact absurd (List.cons.inj heq).1.symm hc
      | @chain _ _ c _ _ _ _ hc hq hl hr => cases c <;> cases hc
  | @single p q cs t hq h ih =>
      cases h' with
      | letter h' => cases hq
      | group h' => cases hq
      | negation h' =>
          cases hq
          obtain ⟨c, ds, rfl, hc⟩ := h.exists_cons
          exact absurd (List.cons.inj heq).1 hc
      | single hq' h' =>
          obtain rfl := Option.some.inj (hq.symm.trans hq')
          exact ih h' (hrest.operand hq) (hrest'.operand hq) heq
      | @chain _ q' c cs' ds' l' r' hc hq' hl' hr' =>
          obtain rfl := Option.some.inj (hq.symm.trans hq')
          rw [List.append_assoc, List.append_assoc] at heq
          obtain ⟨rfl, -⟩ := ih hl' (hrest.operand hq) (Phrase.stops_connective hq hc _) heq
          rw [List.append_cancel_left heq] at hrest
          exact absurd hrest (Phrase.not_stops_connective hc _)
  | @chain p q c cs ds l r hc hq hl hr ihl ihr =>
      rw [List.append_assoc, List.append_assoc] at heq
      cases h' with
      | letter h' => cases hq
      | group h' => cases hq
      | negation h' => cases c <;> cases hc
      | single hq' h' =>
          obtain rfl := Option.some.inj (hq.symm.trans hq')
          obtain ⟨rfl, -⟩ := ihl h' (Phrase.stops_connective hq hc _) (hrest'.operand hq) heq
          rw [← List.append_cancel_left heq] at hrest'
          exact absurd hrest' (Phrase.not_stops_connective hc _)
      | @chain _ q' c' cs' ds' l' r' hc' hq' hl' hr' =>
          obtain rfl := Option.some.inj (hq.symm.trans hq')
          rw [List.append_assoc, List.append_assoc] at heq
          obtain ⟨rfl, rfl⟩ := ihl hl' (Phrase.stops_connective hq hc _)
            (Phrase.stops_connective hq hc' _) heq
          obtain ⟨rfl, hrests⟩ := Formula.symbol_append_inj (List.append_cancel_left heq)
          obtain ⟨rfl, rfl⟩ := ihr hr' hrest hrest' hrests
          exact ⟨rfl, rfl⟩

end Detachment

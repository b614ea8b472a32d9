import Detachment.Proofs.Targets

/-!
# Reading back what is written

A formula whose variables are named by the letters from `a` to `z` is read back from its text, slot
by slot. The grammar derives the text: each part is written as an operand, in parentheses if it is
made by a connective, and the parentheses around the whole formula are left out. So nothing depends
on how tightly the connectives bind. What is read has such letters only, so that a text may be read,
written and read again.
-/
namespace Detachment

namespace Derives

variable {p : Phrase} {cs ds : List Char} {t l r : Sentence}

/-- Every phrase is a formula. -/
theorem formula (h : Derives p cs t) : Derives .formula cs t := by
  have hparity (h : Derives .parity cs t) : Derives .formula cs t := .single rfl h
  have hdisjunction (h : Derives .disjunction cs t) := hparity (.single rfl h)
  have hconjunction (h : Derives .conjunction cs t) := hdisjunction (.single rfl h)
  have hprefixed (h : Derives .prefixed cs t) := hconjunction (.single rfl h)
  cases p with
  | formula => exact h
  | parity => exact hparity h
  | disjunction => exact hdisjunction h
  | conjunction => exact hconjunction h
  | prefixed => exact hprefixed h
  | atom => exact hprefixed (.single rfl h)

/-- An operand is every phrase but an atom. -/
theorem of_prefixed (h : Derives .prefixed cs t) (hp : p ≠ .atom) : Derives p cs t := by
  have hconjunction : Derives .conjunction cs t := .single rfl h
  have hdisjunction : Derives .disjunction cs t := .single rfl hconjunction
  cases p with
  | formula => exact h.formula
  | parity => exact .single rfl hdisjunction
  | disjunction => exact hdisjunction
  | conjunction => exact hconjunction
  | prefixed => exact h
  | atom => exact absurd rfl hp

/-- Any connective may stand between two operands. -/
theorem binary (c : Connective) (hl : Derives .prefixed cs l) (hr : Derives .prefixed ds r) :
    Derives .formula (cs ++ c.symbol.toList ++ ds) (.binary c l r) := by
  obtain ⟨q, hq, hatom⟩ : ∃ q, c.phrase.operand? = some q ∧ q ≠ .atom := by
    cases c <;> exact ⟨_, rfl, by decide⟩
  have hphrase : c.phrase ≠ .atom := by cases c <;> decide
  exact (chain rfl hq (hl.of_prefixed hatom) (hr.of_prefixed hphrase)).formula

/-- The variables of a sentence have the numbers of letters. -/
theorem vars_shape (h : Derives p cs t) : ∀ v ∈ t.shape.vars, 1 ≤ v ∧ v ≤ 26 := by
  induction h with
  | @letter c h =>
      have hlow : 'a'.toNat ≤ c.toNat := h.1
      have hhigh : c.toNat ≤ 'z'.toNat := h.2
      have hspan : 'z'.toNat = 'a'.toNat + 25 := rfl
      simp only [Sentence.shape, Formula.vars_leaf, letterNumber, Leaf.varNumber?_var,
        Option.toList_some, List.forall_mem_singleton]
      omega
  | group h ih => exact ih
  | negation h ih => rwa [Sentence.shape, Formula.vars_negate]
  | single hq h ih => exact ih
  | chain hc hq hl hr ihl ihr =>
      rw [Sentence.shape, Formula.vars_node, List.forall_mem_append]
      exact ⟨ihl, ihr⟩

end Derives

/-- The letter of a number is read as that number. -/
theorem letterNumber_letterChar {n : Nat} (h : n < 26) :
    ('a' ≤ letterChar n false ∧ letterChar n false ≤ 'z') ∧
      letterNumber (letterChar n false) = n + 1 := by
  have hcode : (letterChar n false).toNat = 'a'.toNat + n := by
    rw [toNat_letterChar, Nat.mod_eq_of_lt h]
    rfl
  have hspan : 'z'.toNat = 'a'.toNat + 25 := rfl
  refine ⟨⟨?_, ?_⟩, ?_⟩
  · change 'a'.toNat ≤ (letterChar n false).toNat
    omega
  · change (letterChar n false).toNat ≤ 'z'.toNat
    omega
  · unfold letterNumber
    omega

theorem Leaf.exists_derives_text {a : Leaf} (ha : Fragment.schematic.leaf a) (hlow : 1 ≤ a.value)
    (hhigh : a.value ≤ 26) :
    ∃ t, Derives .prefixed a.text.toList t ∧ t.shape = .leaf () a := by
  obtain ⟨hk, hop⟩ := ha
  obtain ⟨n, hn⟩ : ∃ n : Nat, a.value = n + 1 := ⟨(a.value - 1).toNat, by omega⟩
  obtain ⟨hletter, hnumber⟩ := letterNumber_letterChar (n := n) (by omega)
  have htext : a.text.toList = (if a.negated then ['!'] else []) ++ [letterChar n false] := by
    have hcycle : n / 26 = 0 := by omega
    rw [toList_text_of_known (by simp [hk]), letter_of_pos (n := n) (by omega), hcycle, hk,
      String.toList_append, String.toList_singleton]
    rfl
  have hread : Derives .prefixed [letterChar n false] (.letter (letterChar n false)) :=
    .single rfl (.letter hletter)
  have hshape : (Sentence.letter (letterChar n false)).shape = .leaf () (.var a.value) := by
    rw [Sentence.shape, hnumber, hn]
    rfl
  obtain ⟨kind, op, value⟩ := a
  obtain rfl : kind = .var := hk
  rw [htext]
  obtain rfl | rfl := hop
  · exact ⟨.letter (letterChar n false), hread, hshape⟩
  · exact ⟨.negation (.letter (letterChar n false)), .negation hread,
      congrArg Formula.negate hshape⟩

namespace Formula

variable {α : Type} {t : Formula α}

/-- A part of a formula is written as an operand. -/
theorem exists_derives_innerText (ht : t.Within .schematic) (hv : ∀ v ∈ t.vars, 1 ≤ v ∧ v ≤ 26) :
    ∃ u, Derives .prefixed t.innerText.toList u ∧ u.shape = t.shape := by
  induction t with
  | leaf s a =>
      obtain ⟨hlow, hhigh⟩ := hv a.value (by simp [Leaf.varNumber?_of_kind ht.1])
      exact Leaf.exists_derives_text ht hlow hhigh
  | node s c l r ihl ihr =>
      rw [vars_node, List.forall_mem_append] at hv
      obtain ⟨u, hu, hul⟩ := ihl ht.2.1 hv.1
      obtain ⟨w, hw, hwr⟩ := ihr ht.2.2 hv.2
      refine ⟨.group (.binary c u w), ?_, by rw [Sentence.shape, Sentence.shape, hul, hwr, shape_node]⟩
      have hgroup := (hu.binary c hw).group
      rw [List.append_assoc, List.append_assoc] at hgroup
      rw [toList_innerText_node]
      exact .single rfl (by simpa using hgroup)

theorem exists_derives_text (ht : t.Within .schematic) (hv : ∀ v ∈ t.vars, 1 ≤ v ∧ v ≤ 26) :
    ∃ u, Derives .formula t.text.toList u ∧ u.shape = t.shape := by
  cases t with
  | leaf s a =>
      obtain ⟨u, hu, hshape⟩ := exists_derives_innerText ht hv
      exact ⟨u, hu.formula, hshape⟩
  | node s c l r =>
      rw [vars_node, List.forall_mem_append] at hv
      obtain ⟨u, hu, hul⟩ := exists_derives_innerText ht.2.1 hv.1
      obtain ⟨w, hw, hwr⟩ := exists_derives_innerText ht.2.2 hv.2
      refine ⟨.binary c u w, ?_, by rw [Sentence.shape, hul, hwr, shape_node]⟩
      rw [toList_text_node, ← List.append_assoc]
      exact hu.binary c hw

/-- No text of a formula has a blank in it. -/
theorem inked_text (t : Formula α) : inked t.text.toList = t.text.toList := by
  refine List.filter_eq_self.mpr fun c hc => ?_
  rw [(visible_text t).isBlank_eq_false hc]
  rfl

/-- What is written is read back, put in the canonical slots. -/
theorem parse_text (ht : t.Within .schematic) (hv : ∀ v ∈ t.vars, 1 ≤ v ∧ v ≤ 26) :
    parse t.text = .ok t.place := by
  obtain ⟨u, hu, hshape⟩ := exists_derives_text ht hv
  rw [← inked_text] at hu
  rw [parse_of_derives hu, u.stored_eq, hshape, place_eq, place_eq, placeFrom_shape]

end Formula

/-- A formula in its canonical slots whose leaves are all variables from `a` to `z`, negated or not,
is read back from its text exactly as it is stored, whatever its connectives are. So reading the
text of what has been read from any text gives the same formula again. -/
theorem parse_text_round_trip :
    (∀ e : Formula Nat, e.place = e → e.Within .schematic → (∀ v ∈ e.vars, 1 ≤ v ∧ v ≤ 26) →
      parse e.text = .ok e) ∧
    ∀ (src : String) (e : Formula Nat), parse src = .ok e → parse e.text = .ok e := by
  have hread (e : Formula Nat) (hplace : e.place = e) (he : e.Within .schematic)
      (hv : ∀ v ∈ e.vars, 1 ≤ v ∧ v ≤ 26) : parse e.text = .ok e := by
    rw [Formula.parse_text he hv, hplace]
  refine ⟨hread, fun src e h => ?_⟩
  obtain ⟨t, ht, rfl⟩ := derives_of_parse h
  have hvars : t.stored.vars = t.shape.vars := by
    rw [t.stored_eq, Formula.vars_place]
  refine hread _ ?_ (within_parse h).2 (hvars ▸ ht.vars_shape)
  rw [t.stored_eq, Formula.place_place]

end Detachment

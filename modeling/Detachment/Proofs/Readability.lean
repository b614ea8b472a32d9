import Detachment.Text.Blank
import Detachment.Proofs.Outline
import Std.Data.String.ToNat

/-!
# Unique readability

The text of a formula tells its outline, provided that its variables have positive numbers. Read
from the left, a part of a formula ends where a digit cannot follow any more, so two texts that
begin with a part agree about where it ends. Moreover a text consists of visible characters, so it
is one word, and it is never the text of a blank sheet.
-/
namespace Detachment

namespace Text

/-- The characters of ASCII that leave a mark. -/
def Visible (cs : List Char) : Prop :=
  ∀ c ∈ cs, 33 ≤ c.toNat ∧ c.toNat ≤ 126

theorem Visible.append {cs ds : List Char} (h : Visible cs) (h' : Visible ds) :
    Visible (cs ++ ds) := by
  intro c hc
  obtain hc | hc := List.mem_append.mp hc
  · exact h c hc
  · exact h' c hc

theorem Visible.isBlank_eq_false {cs : List Char} (h : Visible cs) {c : Char} (hc : c ∈ cs) :
    isBlank c = false := by
  obtain ⟨hlow, hhigh⟩ := h c hc
  simp only [isBlank, blankRanges, List.any_cons, List.any_nil, Bool.or_false, Bool.or_eq_false_iff,
    Bool.and_eq_false_iff, decide_eq_false_iff_not]
  omega

/-- No digit follows. -/
def Ends (rest : List Char) : Prop :=
  ∀ c ∈ rest.head?, c.isDigit = false

theorem digits_append_inj {ds ds' rest rest' : List Char} (hds : ∀ c ∈ ds, c.isDigit = true)
    (hds' : ∀ c ∈ ds', c.isDigit = true) (hrest : Ends rest) (hrest' : Ends rest')
    (h : ds ++ rest = ds' ++ rest') : ds = ds' ∧ rest = rest' := by
  have htake {ds rest : List Char} (hds : ∀ c ∈ ds, c.isDigit = true) (hrest : Ends rest) :
      (ds ++ rest).takeWhile Char.isDigit = ds := by
    rw [List.takeWhile_append_of_pos hds]
    cases rest with
    | nil => simp
    | cons c rest => simp [hrest c rfl]
  have heq : ds = ds' := by rw [← htake hds hrest, h, htake hds' hrest']
  subst heq
  exact ⟨rfl, List.append_cancel_left h⟩

end Text

open Text

/-! ### Letters -/

/-- The number of times the alphabet has been gone through, if that is more than none. -/
def cycleText (n : Nat) : String :=
  if n = 0 then "" else Nat.repr n

theorem isDigit_cycleText {n : Nat} {c : Char} (h : c ∈ (cycleText n).toList) :
    c.isDigit = true := by
  unfold cycleText at h
  split at h
  · cases h
  · rw [Nat.toList_repr] at h
    exact Nat.isDigit_of_mem_toDigits (by omega) (by omega) h

theorem cycleText_inj {n n' : Nat} (h : cycleText n = cycleText n') : n = n' := by
  unfold cycleText at h
  split at h <;> split at h
  · omega
  · exact absurd h.symm Nat.repr_ne_empty
  · exact absurd h Nat.repr_ne_empty
  · exact Nat.repr_injective h

/-- The first character of a letter other than an underscore. -/
def letterChar (n : Nat) (upper : Bool) : Char :=
  Char.ofNat ((if upper then 'A'.toNat else 'a'.toNat) + n % 26)

theorem toNat_letterChar (n : Nat) (upper : Bool) :
    (letterChar n upper).toNat = (if upper then 65 else 97) + n % 26 := by
  have hall : ∀ upper : Bool, ∀ k < 26,
      (Char.ofNat ((if upper then 'A'.toNat else 'a'.toNat) + k)).toNat =
        (if upper then 65 else 97) + k := by decide
  exact hall upper (n % 26) (Nat.mod_lt n (by omega))

theorem letter_of_pos {v : Int} {n : Nat} (h : v.natAbs = n + 1) (upper : Bool) :
    letter v upper = String.singleton (letterChar n upper) ++ cycleText (n / 26) := by
  unfold letter cycleText letterChar
  simp only [h]
  split
  · simp
  · rfl

theorem letter_of_zero {v : Int} (h : v.natAbs = 0) (upper : Bool) : letter v upper = "_" := by
  unfold letter
  simp only [h]

/-- A letter begins with a character beyond all signs and parentheses. -/
theorem exists_letter_cons (v : Int) (upper : Bool) :
    ∃ c cs, (letter v upper).toList = c :: cs ∧ 64 < c.toNat := by
  cases h : v.natAbs with
  | zero => exact ⟨'_', [], by rw [letter_of_zero h]; rfl, by decide⟩
  | succ n =>
      refine ⟨letterChar n upper, (cycleText (n / 26)).toList, ?_, ?_⟩
      · rw [letter_of_pos h, String.toList_append, String.toList_singleton]
        rfl
      · rw [toNat_letterChar]
        split <;> omega

theorem letter_append_inj {v v' : Int} {upper upper' : Bool} {rest rest' : List Char}
    (hrest : Ends rest) (hrest' : Ends rest')
    (h : (letter v upper).toList ++ rest = (letter v' upper').toList ++ rest') :
    v.natAbs = v'.natAbs ∧ (v.natAbs ≠ 0 → upper = upper') ∧ rest = rest' := by
  have hunder (n : Nat) (upper : Bool) : '_' ≠ letterChar n upper := by
    intro he
    have hnat := congrArg Char.toNat he
    rw [toNat_letterChar] at hnat
    have hlt := Nat.mod_lt n (show 0 < 26 by omega)
    have hcode : '_'.toNat = 95 := rfl
    split at hnat <;> omega
  cases hv : v.natAbs with
  | zero =>
      cases hv' : v'.natAbs with
      | zero =>
          rw [letter_of_zero hv, letter_of_zero hv'] at h
          exact ⟨rfl, fun hne => absurd rfl hne, List.append_cancel_left h⟩
      | succ n' =>
          rw [letter_of_zero hv, letter_of_pos hv', String.toList_append,
            String.toList_singleton] at h
          exact absurd (List.cons.inj h).1 (hunder n' upper')
  | succ n =>
      cases hv' : v'.natAbs with
      | zero =>
          rw [letter_of_zero hv', letter_of_pos hv, String.toList_append,
            String.toList_singleton] at h
          exact absurd (List.cons.inj h).1.symm (hunder n upper)
      | succ n' =>
          rw [letter_of_pos hv, letter_of_pos hv', String.toList_append, String.toList_append,
            String.toList_singleton, String.toList_singleton] at h
          obtain ⟨hchar, htail⟩ := List.cons.inj h
          obtain ⟨hcycle, hrest⟩ := digits_append_inj (fun _ hc => isDigit_cycleText hc)
            (fun _ hc => isDigit_cycleText hc) hrest hrest' htail
          have hdiv := cycleText_inj (String.toList_inj.mp hcycle)
          have hnat := congrArg Char.toNat hchar
          rw [toNat_letterChar, toNat_letterChar] at hnat
          have hlt := Nat.mod_lt n (show 0 < 26 by omega)
          have hlt' := Nat.mod_lt n' (show 0 < 26 by omega)
          cases upper <;> cases upper' <;> simp only [Bool.false_eq_true, if_true, if_false] at hnat
          · exact ⟨by omega, fun _ => rfl, hrest⟩
          · omega
          · omega
          · exact ⟨by omega, fun _ => rfl, hrest⟩

/-! ### Leaves -/

namespace Leaf

variable {a b : Leaf}

theorem tidy_eq_of_known (ha : ∀ v ∈ a.varNumber?, 0 < v) (hb : ∀ v ∈ b.varNumber?, 0 < v)
    (hk : a.kind = b.kind) (hn : a.negated = b.negated) (hv : a.value.natAbs = b.value.natAbs) :
    a.tidy = b.tidy := by
  unfold tidy
  rw [← hk]
  cases h : a.kind with
  | unknown => rfl
  | const => simp only [hn, hv]
  | var =>
      have hpos : 0 < a.value := ha _ (varNumber?_of_kind h)
      have hpos' : 0 < b.value := hb _ (varNumber?_of_kind (hk.symm.trans h))
      have hvalue : a.value = b.value := by omega
      simp only [hn, hvalue]

/-- The text of a letter goes on with a letter after its sign. -/
theorem toList_text_of_known (h : a.kind ≠ .unknown) :
    a.text.toList =
      (if a.negated then ['!'] else []) ++ (letter a.value (a.kind = .const)).toList := by
  rw [text_of_known h, String.toList_append]
  cases a.negated <;> rfl

theorem text_append_inj {rest rest' : List Char} (ha : ∀ v ∈ a.varNumber?, 0 < v)
    (hb : ∀ v ∈ b.varNumber?, 0 < v) (hrest : Ends rest) (hrest' : Ends rest')
    (h : a.text.toList ++ rest = b.text.toList ++ rest') : a.tidy = b.tidy ∧ rest = rest' := by
  have hmark {c : Char} {cs ds : List Char} {v : Int} {upper : Bool} (hc : c.toNat ≤ 64)
      (heq : c :: cs = (letter v upper).toList ++ ds) : False := by
    obtain ⟨d, ds', hd, hbig⟩ := exists_letter_cons v upper
    rw [hd] at heq
    obtain ⟨rfl, -⟩ := List.cons.inj heq
    omega
  have hquestion {a : Leaf} {cs ds : List Char} (hk : a.kind ≠ .unknown)
      (heq : '?' :: cs = a.text.toList ++ ds) : False := by
    rw [toList_text_of_known hk] at heq
    cases hn : a.negated with
    | false => exact hmark (c := '?') (by decide) (by simpa [hn] using heq)
    | true => simp [hn] at heq
  by_cases hka : a.kind = .unknown
  · by_cases hkb : b.kind = .unknown
    · rw [text_of_unknown hka, text_of_unknown hkb] at h
      exact ⟨by simp [tidy, hka, hkb], List.append_cancel_left h⟩
    · rw [text_of_unknown hka] at h
      exact (hquestion hkb h).elim
  · by_cases hkb : b.kind = .unknown
    · rw [text_of_unknown hkb] at h
      exact (hquestion hka h.symm).elim
    · rw [toList_text_of_known hka, toList_text_of_known hkb] at h
      have hletters : a.negated = b.negated ∧
          (letter a.value (a.kind = .const)).toList ++ rest =
            (letter b.value (b.kind = .const)).toList ++ rest' := by
        cases hna : a.negated <;> cases hnb : b.negated <;> simp only [hna, hnb] at h
        · exact ⟨rfl, by simpa using h⟩
        · exact (hmark (c := '!') (by decide) (by simpa using h.symm)).elim
        · exact (hmark (c := '!') (by decide) (by simpa using h)).elim
        · exact ⟨rfl, by simpa using h⟩
      obtain ⟨hneg, hletters⟩ := hletters
      obtain ⟨habs, hupper, hrest⟩ := letter_append_inj hrest hrest' hletters
      refine ⟨tidy_eq_of_known ha hb ?_ hneg habs, hrest⟩
      -- A variable has a number other than zero, so its letter shows that it is one.
      have hzero {x : Leaf} (hx : ∀ v ∈ x.varNumber?, 0 < v) (hk : x.kind ≠ .unknown)
          (hz : x.value.natAbs = 0) : x.kind = .const := by
        cases hkind : x.kind with
        | unknown => exact absurd hkind hk
        | const => rfl
        | var =>
            have hpos : 0 < x.value := hx _ (varNumber?_of_kind hkind)
            omega
      by_cases hz : a.value.natAbs = 0
      · rw [hzero ha hka hz, hzero hb hkb (habs ▸ hz)]
      · have hcase := hupper hz
        cases hkind : a.kind <;> cases hkind' : b.kind <;> simp_all

end Leaf

namespace Formula

variable {α β : Type}

theorem symbol_toList (c : Connective) : ∃ ch, c.symbol.toList = [ch] ∧ ch.isDigit = false := by
  cases c <;> exact ⟨_, rfl, rfl⟩

theorem symbol_inj {c c' : Connective} : c.symbol = c'.symbol → c = c' := by
  cases c <;> cases c' <;> decide

theorem symbol_append_inj {c c' : Connective} {rest rest' : List Char}
    (h : c.symbol.toList ++ rest = c'.symbol.toList ++ rest') : c = c' ∧ rest = rest' := by
  obtain ⟨ch, hch, -⟩ := symbol_toList c
  obtain ⟨ch', hch', -⟩ := symbol_toList c'
  rw [hch, hch'] at h
  obtain ⟨rfl, hrest⟩ := List.cons.inj h
  exact ⟨symbol_inj (String.toList_inj.mp (hch.trans hch'.symm)), hrest⟩

theorem ends_symbol_append (c : Connective) (rest : List Char) :
    Ends (c.symbol.toList ++ rest) := by
  obtain ⟨ch, hch, hdigit⟩ := symbol_toList c
  rw [hch]
  intro d hd
  obtain rfl : ch = d := by simpa using hd
  exact hdigit

theorem toList_innerText_node (s : α) (c : Connective) (l r : Formula α) :
    (node s c l r).innerText.toList =
      '(' :: (l.innerText.toList ++ (c.symbol.toList ++ (r.innerText.toList ++ [')']))) := by
  simp [innerText_node, String.toList_append]

/-- The text of a leaf begins with no parenthesis. -/
theorem leaf_text_ne_paren (a : Leaf) {rest rest' : List Char} :
    a.text.toList ++ rest ≠ '(' :: rest' := by
  intro h
  by_cases hk : a.kind = .unknown
  · simp [Leaf.text_of_unknown hk] at h
  · rw [Leaf.toList_text_of_known hk] at h
    cases hn : a.negated with
    | true => simp [hn] at h
    | false =>
        obtain ⟨d, ds, hd, hbig⟩ := exists_letter_cons a.value (a.kind = .const)
        rw [hn, hd] at h
        obtain ⟨rfl, -⟩ := List.cons.inj h
        exact absurd hbig (by decide)

/-- Two texts that begin with a part of a formula agree about its outline and about where it ends,
as long as no digit follows. -/
theorem innerText_append_inj {t : Formula α} {t' : Formula β} {rest rest' : List Char}
    (ht : ∀ v ∈ t.vars, 0 < v) (ht' : ∀ v ∈ t'.vars, 0 < v) (hrest : Ends rest)
    (hrest' : Ends rest') (h : t.innerText.toList ++ rest = t'.innerText.toList ++ rest') :
    t.outline = t'.outline ∧ rest = rest' := by
  induction t generalizing t' rest rest' with
  | leaf s a =>
      cases t' with
      | leaf s' b =>
          rw [innerText_leaf, innerText_leaf] at h
          obtain ⟨htidy, hrest⟩ := Leaf.text_append_inj (by simpa using ht) (by simpa using ht')
            hrest hrest' h
          exact ⟨congrArg (leaf ()) htidy, hrest⟩
      | node s' c' l' r' =>
          rw [innerText_leaf, toList_innerText_node] at h
          exact (leaf_text_ne_paren a h).elim
  | node s c l r ihl ihr =>
      cases t' with
      | leaf s' b =>
          rw [innerText_leaf, toList_innerText_node] at h
          exact (leaf_text_ne_paren b h.symm).elim
      | node s' c' l' r' =>
          rw [toList_innerText_node, toList_innerText_node] at h
          simp only [List.cons_append, List.append_assoc, List.cons.injEq, true_and] at h
          obtain ⟨hl, hnext⟩ := ihl (fun v hv => ht v (by simp [hv]))
            (fun v hv => ht' v (by simp [hv])) (ends_symbol_append c _) (ends_symbol_append c' _) h
          obtain ⟨rfl, hright⟩ := symbol_append_inj hnext
          have hparen (rest : List Char) : Ends (')' :: rest) := by
            intro d hd
            obtain rfl : ')' = d := by simpa using hd
            rfl
          obtain ⟨hr, hend⟩ := ihr (fun v hv => ht v (by simp [hv]))
            (fun v hv => ht' v (by simp [hv])) (hparen _) (hparen _) hright
          refine ⟨?_, by simpa using hend⟩
          rw [outline_node, outline_node, hl, hr]

theorem toList_text_node (s : α) (c : Connective) (l r : Formula α) :
    (node s c l r).text.toList =
      l.innerText.toList ++ (c.symbol.toList ++ r.innerText.toList) := by
  rw [text_node, String.toList_append, String.toList_append, List.append_assoc]

theorem ends_nil : Ends [] := by
  intro c hc
  cases hc

theorem outline_eq_of_innerText_eq {t : Formula α} {t' : Formula β} (ht : ∀ v ∈ t.vars, 0 < v)
    (ht' : ∀ v ∈ t'.vars, 0 < v) (h : t.innerText.toList = t'.innerText.toList) :
    t.outline = t'.outline :=
  (innerText_append_inj ht ht' ends_nil ends_nil (congrArg (· ++ []) h)).1

/-- A leaf is not followed by a connective, so no compound formula has its text. -/
theorem text_leaf_ne_node {s : α} {s' : β} {a : Leaf} {c : Connective} {l r : Formula β}
    (ha : ∀ v ∈ (leaf s a).vars, 0 < v) (hl : ∀ v ∈ l.vars, 0 < v) :
    (leaf s a).text ≠ (node s' c l r).text := by
  intro h
  have hlist := congrArg String.toList h
  rw [toList_text_node, text, ← innerText_leaf s a, ← List.append_nil (leaf s a).innerText.toList]
    at hlist
  obtain ⟨-, hrest⟩ := innerText_append_inj ha hl ends_nil (ends_symbol_append c _) hlist
  obtain ⟨ch, hch, -⟩ := symbol_toList c
  simp [hch] at hrest

/-- The text of a formula with positive variables tells its outline. -/
theorem outline_eq_of_text_eq {t : Formula α} {t' : Formula β} (ht : ∀ v ∈ t.vars, 0 < v)
    (ht' : ∀ v ∈ t'.vars, 0 < v) (h : t.text = t'.text) : t.outline = t'.outline := by
  cases t with
  | leaf s a =>
      cases t' with
      | leaf s' b =>
          have hlist := congrArg String.toList h
          rw [text, text, ← innerText_leaf s a, ← innerText_leaf s' b] at hlist
          exact outline_eq_of_innerText_eq ht ht' hlist
      | node s' c' l' r' =>
          exact absurd h (text_leaf_ne_node ht fun v hv => ht' v (by simp [hv]))
  | node s c l r =>
      cases t' with
      | leaf s' b =>
          exact absurd h.symm (text_leaf_ne_node ht' fun v hv => ht v (by simp [hv]))
      | node s' c' l' r' =>
          have hlist := congrArg String.toList h
          rw [toList_text_node, toList_text_node] at hlist
          obtain ⟨hl, hnext⟩ := innerText_append_inj (fun v hv => ht v (by simp [hv]))
            (fun v hv => ht' v (by simp [hv])) (ends_symbol_append c _) (ends_symbol_append c' _)
            hlist
          obtain ⟨rfl, hright⟩ := symbol_append_inj hnext
          have hr := outline_eq_of_innerText_eq (fun v hv => ht v (by simp [hv]))
            (fun v hv => ht' v (by simp [hv])) hright
          rw [outline_node, outline_node, hl, hr]

theorem visible_letter (v : Int) (upper : Bool) : Visible (letter v upper).toList := by
  cases h : v.natAbs with
  | zero =>
      rw [letter_of_zero h]
      intro c hc
      obtain rfl : c = '_' := by simpa using hc
      decide
  | succ n =>
      rw [letter_of_pos h, String.toList_append, String.toList_singleton]
      intro c hc
      obtain rfl | hc := List.mem_cons.mp hc
      · rw [toNat_letterChar]
        split <;> omega
      · obtain ⟨hlow, hhigh⟩ := Char.isDigit_iff_toNat.mp (isDigit_cycleText hc)
        have hzero : '0'.toNat = 48 := rfl
        have hnine : '9'.toNat = 57 := rfl
        omega

theorem visible_leaf (a : Leaf) : Visible a.text.toList := by
  by_cases hk : a.kind = .unknown
  · rw [Leaf.text_of_unknown hk]
    intro c hc
    obtain rfl : c = '?' := by simpa using hc
    decide
  · rw [Leaf.toList_text_of_known hk]
    refine Visible.append ?_ (visible_letter _ _)
    cases a.negated with
    | false => simp [Visible]
    | true => simp [Visible]

theorem visible_symbol (c : Connective) : Visible c.symbol.toList := by
  cases c <;> simp [Visible, Connective.symbol]

theorem visible_innerText (t : Formula α) : Visible t.innerText.toList := by
  induction t with
  | leaf s a =>
      rw [innerText_leaf]
      exact visible_leaf a
  | node s c l r ihl ihr =>
      have hopen : Visible ['('] := by simp [Visible]
      have hclose : Visible [')'] := by simp [Visible]
      rw [toList_innerText_node]
      exact hopen.append (ihl.append ((visible_symbol c).append (ihr.append hclose)))

theorem visible_text (t : Formula α) : Visible t.text.toList := by
  cases t with
  | leaf s a => exact visible_leaf a
  | node s c l r =>
      rw [toList_text_node]
      exact (visible_innerText l).append ((visible_symbol c).append (visible_innerText r))

theorem text_ne_nil (t : Formula α) : t.text.toList ≠ [] := by
  intro h
  cases t with
  | leaf s a =>
      rw [text] at h
      by_cases hk : a.kind = .unknown
      · simp [Leaf.text_of_unknown hk] at h
      · obtain ⟨d, ds, hd, -⟩ := exists_letter_cons a.value (a.kind = .const)
        rw [Leaf.toList_text_of_known hk, hd] at h
        simp at h
  | node s c l r =>
      obtain ⟨ch, hch, -⟩ := symbol_toList c
      rw [toList_text_node, hch] at h
      simp at h

end Formula

end Detachment

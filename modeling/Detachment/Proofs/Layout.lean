import Detachment.Formula.Layout
import Detachment.Proofs.Journal
import Detachment.Proofs.Tables

/-!
# Line breaks of a layout

A layout differs from the pieces of the text on one line by the line breaks after some of its
connectives. A terminal shows a coloured piece as the piece itself. A part begins after nothing but
parentheses on its line, unless a part around it fits there. So a line that is longer than the width
has a single leaf.
-/
namespace Detachment

open Text

theorem Text.Visible.not_mem {cs : List Char} (h : Visible cs) {c : Char} (hc : c.toNat < 33) :
    c ∉ cs :=
  fun hmem => absurd (h c hmem).1 (by omega)

/-! ### Pieces on one line -/

/-- Put pieces in parentheses if they are nested. -/
def enclose (nested : Bool) (depth : Nat) (body : List Piece) : List Piece :=
  if nested then [.text (.paren depth) "("] ++ body ++ [.text (.paren depth) ")"] else body

namespace Formula

variable {α : Type}

/-- The pieces of a formula on one line. -/
def flatPieces : (nested : Bool) → (depth : Nat) → Formula α → List Piece
  | _, _, leaf _ a => a.pieces
  | nested, depth, node _ c l r =>
      let inner := depth + if nested then 1 else 0
      enclose nested depth
        (l.flatPieces true inner ++ [.text .operator c.symbol] ++ r.flatPieces true inner)

variable {width : Nat} {nested : Bool}

theorem layoutFrom_flat (t : Formula α) (depth trail column : Nat) :
    (t.layoutFrom width true nested depth trail column).1 = t.flatPieces nested depth := by
  induction t generalizing nested depth trail column with
  | leaf s a => rfl
  | node s c l r ihl ihr =>
      simp only [layoutFrom, flatPieces, enclose, Bool.true_or, if_true, List.append_nil]
      split <;> simp [ihl, ihr]

end Formula

/-! ### Texts of pieces -/

/-- The characters of pieces. -/
def spelled (ps : List Piece) : List Char :=
  ps.flatMap (·.plain.toList)

@[simp] theorem spelled_append (ps qs : List Piece) :
    spelled (ps ++ qs) = spelled ps ++ spelled qs :=
  List.flatMap_append

@[simp] theorem spelled_cons (p : Piece) (ps : List Piece) :
    spelled (p :: ps) = p.plain.toList ++ spelled ps :=
  List.flatMap_cons

@[simp] theorem spelled_nil : spelled [] = [] := rfl

/-- The parenthesis next to a part that is nested. -/
def bracket (nested : Bool) (c : Char) : List Char :=
  if nested then [c] else []

theorem spelled_enclose (nested : Bool) (depth : Nat) (body : List Piece) :
    spelled (enclose nested depth body) =
      bracket nested '(' ++ spelled body ++ bracket nested ')' := by
  cases nested <;> simp [enclose, bracket, Piece.plain]

theorem spelled_leaf (a : Leaf) : spelled a.pieces = a.text.toList := by
  by_cases hk : a.kind = .unknown
  · simp [Leaf.pieces, hk, Piece.plain]
  · rw [Leaf.toList_text_of_known hk]
    cases hkind : a.kind <;> cases hn : a.negated <;> simp_all [Leaf.pieces, Piece.plain]

/-- A piece of text whose characters all leave a mark. -/
def Piece.Inked : Piece → Prop
  | text _ content => Visible content.toList
  | newline => False

theorem Piece.Inked.newline_not_mem {p : Piece} (h : p.Inked) : '\n' ∉ p.plain.toList := by
  cases p with
  | text style content => exact h.not_mem (by decide)
  | newline => exact h.elim

theorem Piece.Inked.filter_plain {p : Piece} (h : p.Inked) :
    p.plain.toList.filter (· != '\n') = p.plain.toList := by
  refine List.filter_eq_self.mpr fun c hc => ?_
  rw [bne_iff_ne]
  rintro rfl
  exact h.newline_not_mem hc

theorem newline_not_mem_spelled {ps : List Piece} (h : ∀ p ∈ ps, p.Inked) : '\n' ∉ spelled ps := by
  intro hmem
  obtain ⟨p, hp, hmem⟩ := List.mem_flatMap.mp hmem
  exact (h p hp).newline_not_mem hmem

theorem inked_leaf (a : Leaf) : ∀ p ∈ a.pieces, p.Inked := by
  have hletter (style : Style) (upper : Bool) : (Piece.text style (letter a.value upper)).Inked :=
    Formula.visible_letter a.value upper
  have hsign : (Piece.text .negation "!").Inked := by simp [Piece.Inked, Visible]
  have hunknown : (Piece.text .plain a.text).Inked := Formula.visible_leaf a
  cases hk : a.kind <;> cases hn : a.negated <;>
    simp [Leaf.pieces, hk, hn, hletter, hsign, hunknown]

theorem inked_enclose {body : List Piece} (h : ∀ p ∈ body, p.Inked) (nested : Bool) (depth : Nat) :
    ∀ p ∈ enclose nested depth body, p.Inked := by
  have hparen : Visible ['('] ∧ Visible [')'] := by simp [Visible]
  cases nested with
  | false => exact h
  | true =>
      rw [enclose, if_pos rfl, List.forall_mem_append, List.forall_mem_append]
      exact ⟨⟨List.forall_mem_singleton.mpr hparen.1, h⟩, List.forall_mem_singleton.mpr hparen.2⟩

namespace Formula

variable {α : Type}

theorem spelled_flatPieces (t : Formula α) (nested : Bool) (depth : Nat) :
    spelled (t.flatPieces nested depth) = (if nested then t.innerText else t.text).toList := by
  induction t generalizing nested depth with
  | leaf s a => cases nested <;> simp [flatPieces, spelled_leaf, innerText_leaf, text]
  | node s c l r ihl ihr =>
      simp only [flatPieces, spelled_enclose, spelled_append, ihl, ihr]
      cases nested <;> simp [bracket, toList_innerText_node, toList_text_node, Piece.plain]

theorem length_spelled_flatPieces (t : Formula α) (nested : Bool) (depth : Nat) :
    (spelled (t.flatPieces nested depth)).length =
      if nested then t.innerLength else t.textLength := by
  rw [spelled_flatPieces, String.length_toList, ← length_innerText, ← length_text]
  cases nested <;> rfl

/-- A compound part is laid out on one line if it fits there together with what must follow it.
Otherwise its line is broken after the connective. -/
theorem layoutFrom_node {width : Nat} (nested : Bool) (s : α) (c : Connective) (l r : Formula α)
    (depth trail column : Nat) :
    let flat := (node s c l r).flatPieces nested depth
    let extra := if nested then 1 else 0
    ((node s c l r).layoutFrom width false nested depth trail column).1 =
      if column + (spelled flat).length + trail ≤ width then flat
      else enclose nested depth
        ((l.layoutFrom width false true (depth + extra) 1 (column + extra)).1 ++
          [.text .operator c.symbol, .newline] ++
          (r.layoutFrom width false true (depth + extra) (trail + extra) 0).1) := by
  intro flat extra
  rw [length_spelled_flatPieces]
  by_cases hfits : column + (if nested then (node s c l r).innerLength
      else (node s c l r).textLength) + trail ≤ width
  · simp only [layoutFrom, hfits, decide_true, Bool.or_true, if_true, List.append_nil, flat,
      flatPieces, enclose, extra]
    split <;> simp [layoutFrom_flat]
  · simp only [layoutFrom, hfits, decide_false, Bool.or_false, if_false, Bool.false_eq_true,
      enclose, extra]
    split <;> simp

theorem inked_flatPieces (t : Formula α) (nested : Bool) (depth : Nat) :
    ∀ p ∈ t.flatPieces nested depth, p.Inked := by
  induction t generalizing nested depth with
  | leaf s a => exact inked_leaf a
  | node s c l r ihl ihr =>
      refine inked_enclose ?_ nested depth
      rw [List.forall_mem_append, List.forall_mem_append]
      exact ⟨⟨ihl _ _, List.forall_mem_singleton.mpr (visible_symbol c)⟩, ihr _ _⟩

end Formula

/-! ### Breaking lines -/

/-- The second list is the first with lines broken after some of its connectives. -/
inductive Spread : List Piece → List Piece → Prop
  | nil : Spread [] []
  | keep (p : Piece) {ps qs : List Piece} (h : Spread ps qs) : Spread (p :: ps) (p :: qs)
  | wrap (c : Connective) {ps qs : List Piece} (h : Spread ps qs) :
      Spread (.text .operator c.symbol :: ps) (.text .operator c.symbol :: .newline :: qs)

/-- Every line break follows a connective. -/
def BreaksAfterConnectives (cs : List Char) : Prop :=
  ∀ before after, cs = before ++ '\n' :: after →
    ∃ (start : List Char) (c : Connective), before = start ++ c.symbol.toList

namespace BreaksAfterConnectives

variable {cs : List Char}

theorem append (h : BreaksAfterConnectives cs) {xs : List Char} (hxs : '\n' ∉ xs) :
    BreaksAfterConnectives (xs ++ cs) := by
  intro before after heq
  obtain ⟨before', rfl, hcs⟩ | ⟨rest, rfl, hrest⟩ := List.append_eq_append_iff.mp heq
  · obtain ⟨start, c, rfl⟩ := h before' after hcs
    exact ⟨xs ++ start, c, (List.append_assoc ..).symm⟩
  · cases rest with
    | nil =>
        obtain ⟨start, c, hstart⟩ := h [] after hrest.symm
        exact ⟨before ++ start, c, by rw [List.append_assoc, ← hstart, List.append_nil]⟩
    | cons d rest =>
        obtain ⟨rfl, -⟩ := List.cons.inj hrest
        simp at hxs

theorem wrap (h : BreaksAfterConnectives cs) (c : Connective) :
    BreaksAfterConnectives (c.symbol.toList ++ '\n' :: cs) := by
  intro before after heq
  obtain ⟨before', rfl, hcs⟩ | ⟨rest, hsymbol, hrest⟩ := List.append_eq_append_iff.mp heq
  · cases before' with
    | nil => exact ⟨[], c, by simp⟩
    | cons d before' =>
        obtain ⟨rfl, hcs'⟩ := List.cons.inj hcs
        obtain ⟨start, c', rfl⟩ := h before' after hcs'
        exact ⟨c.symbol.toList ++ '\n' :: start, c', by simp⟩
  · cases rest with
    | nil => exact ⟨[], c, by simpa using hsymbol.symm⟩
    | cons d rest =>
        obtain ⟨rfl, -⟩ := List.cons.inj hrest
        have hmem : '\n' ∈ c.symbol.toList := by simp [hsymbol]
        exact absurd hmem ((Formula.visible_symbol c).not_mem (by decide))

end BreaksAfterConnectives

namespace Spread

variable {ps qs ps' qs' : List Piece}

theorem refl (ps : List Piece) : Spread ps ps := by
  induction ps with
  | nil => exact .nil
  | cons p ps ih => exact ih.keep p

theorem append (h : Spread ps qs) (h' : Spread ps' qs') : Spread (ps ++ ps') (qs ++ qs') := by
  induction h with
  | nil => exact h'
  | keep p h ih => exact ih.keep p
  | wrap c h ih => exact ih.wrap c

theorem enclose (h : Spread ps qs) (nested : Bool) (depth : Nat) :
    Spread (Detachment.enclose nested depth ps) (Detachment.enclose nested depth qs) := by
  cases nested with
  | false => exact h
  | true => exact ((refl _).append h).append (refl _)

theorem mem_of_mem (h : Spread ps qs) : ∀ p ∈ qs, p = .newline ∨ p ∈ ps := by
  induction h with
  | nil => simp
  | keep p h ih => grind
  | wrap c h ih => grind

theorem filter_spelled (h : Spread ps qs) (hps : ∀ p ∈ ps, p.Inked) :
    (spelled qs).filter (· != '\n') = spelled ps := by
  induction h with
  | nil => rfl
  | keep p h ih =>
      rw [List.forall_mem_cons] at hps
      rw [spelled_cons, spelled_cons, List.filter_append, ih hps.2, hps.1.filter_plain]
  | wrap c h ih =>
      rw [List.forall_mem_cons] at hps
      rw [spelled_cons, spelled_cons, spelled_cons, List.filter_append, List.filter_append,
        ih hps.2, hps.1.filter_plain]
      rfl

theorem breaks_spelled (h : Spread ps qs) (hps : ∀ p ∈ ps, p.Inked) :
    BreaksAfterConnectives (spelled qs) := by
  induction h with
  | nil =>
      intro before after h
      simp at h
  | keep p h ih =>
      rw [List.forall_mem_cons] at hps
      rw [spelled_cons]
      exact (ih hps.2).append hps.1.newline_not_mem
  | wrap c h ih =>
      rw [List.forall_mem_cons] at hps
      rw [spelled_cons, spelled_cons]
      exact (ih hps.2).wrap c

end Spread

/-! ### Colours -/

/-- How a terminal takes the next character: as text, after an escape character, or as part of a
control sequence. -/
inductive Terminal where
  | text
  | escape
  | control

/-- What a terminal shows of the characters that it gets. A control sequence begins with an escape
character and a bracket, and the first character from `@` to `~` ends it. -/
def Terminal.shows : Terminal → List Char → List Char
  | _, [] => []
  | text, c :: cs => if c = '\x1b' then escape.shows cs else c :: text.shows cs
  | escape, c :: cs => if c = '[' then control.shows cs else text.shows cs
  | control, c :: cs => if '@' ≤ c ∧ c ≤ '~' then text.shows cs else control.shows cs

namespace Terminal

theorem shows_append {cs : List Char} (h : '\x1b' ∉ cs) (rest : List Char) :
    text.shows (cs ++ rest) = cs ++ text.shows rest := by
  induction cs with
  | nil => rfl
  | cons c cs ih =>
      rw [List.mem_cons, not_or] at h
      rw [List.cons_append, shows, if_neg (Ne.symm h.1), ih h.2, List.cons_append]

theorem shows_escape (style : Style) (rest : List Char) :
    text.shows (style.escape.toList ++ rest) = text.shows rest := by
  cases style with
  | paren depth =>
      rw [Style.escape, String.toList_append, List.append_assoc]
      split <;> rfl
  | _ => rfl

theorem shows_coloured {p : Piece} (h : p = .newline ∨ p.Inked) (rest : List Char) :
    text.shows (p.coloured.toList ++ rest) = p.plain.toList ++ text.shows rest := by
  obtain rfl | h := h
  · rfl
  cases p with
  | newline => exact h.elim
  | text style content =>
      have hescape : '\x1b' ∉ content.toList := h.not_mem (by decide)
      have hreset (rest : List Char) :
          text.shows ("\x1b[0m".toList ++ rest) = text.shows rest := rfl
      cases style with
      | plain => exact shows_append hescape rest
      | _ =>
          simp only [Piece.coloured, String.toList_append, List.append_assoc]
          rw [hreset, shows_escape, shows_append hescape, hreset]
          rfl

theorem shows_flatMap_coloured {ps : List Piece} (h : ∀ p ∈ ps, p = .newline ∨ p.Inked) :
    text.shows (ps.flatMap (·.coloured.toList)) = spelled ps := by
  induction ps with
  | nil => rfl
  | cons p ps ih =>
      rw [List.forall_mem_cons] at h
      rw [List.flatMap_cons, shows_coloured h.1, ih h.2, spelled_cons]

end Terminal

/-! ### The lines of a layout -/

/-- The number of leaves in a line. Each of them is written with one letter or an underscore. -/
def leavesIn (cs : List Char) : Nat :=
  cs.countP fun c => c.isAlpha || c == '_'

theorem leavesIn_append (cs ds : List Char) : leavesIn (cs ++ ds) = leavesIn cs + leavesIn ds :=
  List.countP_append

theorem leavesIn_letter (v : Int) (upper : Bool) : leavesIn (letter v upper).toList = 1 := by
  cases h : v.natAbs with
  | zero => rw [letter_of_zero h]; rfl
  | succ n =>
      have hfirst : (letterChar n upper).isAlpha = true := by
        have hall : ∀ upper : Bool, ∀ k < 26,
            (Char.ofNat ((if upper then 'A'.toNat else 'a'.toNat) + k)).isAlpha = true := by decide
        exact hall upper (n % 26) (Nat.mod_lt n (by omega))
      have hdigits : leavesIn (cycleText (n / 26)).toList = 0 := by
        have hall : ∀ k < 10, ¬((Char.ofNat ('0'.toNat + k)).isAlpha ||
            Char.ofNat ('0'.toNat + k) == '_') = true := by decide
        refine List.countP_eq_zero.mpr fun c hc => ?_
        obtain ⟨hlow, hhigh⟩ := Char.isDigit_iff_toNat.mp (isDigit_cycleText hc)
        have hdigit := hall (c.toNat - '0'.toNat) (Nat.lt_succ_of_le (Nat.sub_le_sub_right hhigh _))
        rwa [Nat.add_sub_cancel' hlow, Char.ofNat_toNat] at hdigit
      rw [letter_of_pos h, String.toList_append, leavesIn_append, hdigits, String.toList_singleton]
      simp [leavesIn, hfirst]

theorem leavesIn_leaf {a : Leaf} (h : a.kind ≠ .unknown) : leavesIn a.text.toList = 1 := by
  rw [Leaf.toList_text_of_known h, leavesIn_append, leavesIn_letter]
  cases a.negated <;> rfl

theorem leavesIn_symbol (c : Connective) : leavesIn c.symbol.toList = 0 := by
  cases c <;> rfl

theorem leavesIn_innerText {α : Type} {t : Formula α} (h : t.Within .lettered) :
    leavesIn t.innerText.toList = t.leaves.length := by
  induction t with
  | leaf s a =>
      rw [Formula.innerText_leaf, leavesIn_leaf h]
      rfl
  | node s c l r ihl ihr =>
      have hparen : leavesIn "(".toList = 0 ∧ leavesIn ")".toList = 0 := ⟨rfl, rfl⟩
      simp only [Formula.innerText_node, String.toList_append, leavesIn_append, leavesIn_symbol,
        ihl h.2.1, ihr h.2.2, hparen.1, hparen.2, Formula.leaves, List.length_append]
      omega

theorem leavesIn_text {α : Type} {t : Formula α} (h : t.Within .lettered) :
    leavesIn t.text.toList = t.leaves.length := by
  cases t with
  | leaf s a => exact leavesIn_leaf h
  | node s c l r =>
      rw [Formula.toList_text_node, leavesIn_append, leavesIn_append, leavesIn_innerText h.2.1,
        leavesIn_symbol, leavesIn_innerText h.2.2, Formula.leaves, List.length_append]
      omega

/-- Every line is within the width or has a single leaf. -/
def LinesFit (width : Nat) (cs : List Char) : Prop :=
  ∀ line ∈ splitWhere (· == '\n') cs, width < line.length → leavesIn line = 1

/-- What follows on the same line takes up `trail` characters and no leaf, and the lines after it
are in order. -/
def Closes (width trail : Nat) (rest : List Char) : Prop :=
  ∀ line, '\n' ∉ line → (width < line.length + trail → leavesIn line = 1) →
    LinesFit width (line ++ rest)

section

variable {width trail : Nat} {line rest : List Char}

theorem linesFit_line (h : '\n' ∉ line) (hline : width < line.length → leavesIn line = 1) :
    LinesFit width line := by
  rw [LinesFit, splitWhere_of_none (beq_newline_eq_false h)]
  exact List.forall_mem_singleton.mpr hline

theorem linesFit_break (h : '\n' ∉ line) (hline : width < line.length → leavesIn line = 1)
    (hrest : LinesFit width rest) : LinesFit width (line ++ '\n' :: rest) := by
  rw [LinesFit, splitWhere_append (beq_newline_eq_false h) rfl]
  exact List.forall_mem_cons.mpr ⟨hline, hrest⟩

theorem closes_nil (width : Nat) : Closes width 0 [] := by
  intro line hline hfits
  rw [List.append_nil]
  exact linesFit_line hline hfits

theorem closes_break (h : LinesFit width rest) (c : Connective) :
    Closes width 1 (c.symbol.toList ++ '\n' :: rest) := by
  intro line hline hfits
  have hlength : c.symbol.toList.length = 1 := by cases c <;> rfl
  rw [← List.append_assoc]
  refine linesFit_break ?_ ?_ h
  · exact List.not_mem_append hline ((Formula.visible_symbol c).not_mem (by decide))
  · rw [List.length_append, hlength, leavesIn_append, leavesIn_symbol]
    exact hfits

theorem Closes.paren (h : Closes width trail rest) : Closes width (trail + 1) (')' :: rest) := by
  intro line hline hfits
  have hparen : leavesIn [')'] = 0 := rfl
  rw [← List.singleton_append, ← List.append_assoc]
  refine h _ (by simp [hline]) ?_
  rw [List.length_append, List.length_singleton, leavesIn_append, hparen]
  intro hlong
  exact hfits (by omega)

end

namespace Formula

variable {α : Type} {width : Nat}

/-- The invariant of a layout: if only parentheses precede a part on its line, and what follows it
takes up as many characters as it has to leave room for, then every line is within the width or has
a single leaf. -/
theorem linesFit_layoutFrom {t : Formula α} (h : t.Within .lettered) (nested : Bool)
    (depth trail : Nat) {before rest : List Char} (hbefore : '\n' ∉ before)
    (hleaves : leavesIn before = 0) (hrest : Closes width trail rest) :
    LinesFit width (before ++
      (spelled (t.layoutFrom width false nested depth trail before.length).1 ++ rest)) := by
  induction t generalizing nested depth trail before rest with
  | leaf s a =>
      have hline : '\n' ∉ before ++ a.text.toList :=
        List.not_mem_append hbefore ((visible_leaf a).not_mem (by decide))
      have hone : leavesIn (before ++ a.text.toList) = 1 := by
        rw [leavesIn_append, hleaves, leavesIn_leaf h]
      rw [layoutFrom, spelled_leaf, ← List.append_assoc]
      exact hrest _ hline fun _ => hone
  | node s c l r ihl ihr =>
      rw [layoutFrom_node]
      by_cases hfits : before.length + (spelled ((node s c l r).flatPieces nested depth)).length +
          trail ≤ width
      · have hline : '\n' ∉ before ++ spelled ((node s c l r).flatPieces nested depth) :=
          List.not_mem_append hbefore
            (newline_not_mem_spelled ((node s c l r).inked_flatPieces nested depth))
        rw [if_pos hfits, ← List.append_assoc]
        refine hrest _ hline fun hlong => ?_
        rw [List.length_append] at hlong
        omega
      · let extra := if nested then 1 else 0
        -- The parentheses around the part join what precedes and what follows it.
        have hopening : (bracket nested '(').length = extra ∧ '\n' ∉ before ++ bracket nested '(' ∧
            leavesIn (before ++ bracket nested '(') = 0 := by
          have hparen : leavesIn ['('] = 0 := rfl
          cases nested <;> simp [bracket, extra, hbefore, leavesIn_append, hleaves, hparen]
        have hclosing : Closes width (trail + extra) (bracket nested ')' ++ rest) := by
          cases nested with
          | false => exact hrest
          | true => exact hrest.paren
        have hright := ihr h.2.2 true (depth + extra) _ List.not_mem_nil rfl hclosing
        have hleft := ihl h.2.1 true (depth + extra) 1 hopening.2.1 hopening.2.2
          (closes_break hright c)
        rw [if_neg hfits, spelled_enclose]
        simpa [hopening.1, Piece.plain] using hleft

theorem spread_layoutFrom (t : Formula α) (flat nested : Bool) (depth trail column : Nat) :
    Spread (t.flatPieces nested depth) (t.layoutFrom width flat nested depth trail column).1 := by
  cases flat with
  | true =>
      rw [layoutFrom_flat]
      exact .refl _
  | false =>
      induction t generalizing nested depth trail column with
      | leaf s a => exact .refl _
      | node s c l r ihl ihr =>
          rw [layoutFrom_node]
          split
          · exact .refl _
          · exact (((ihl ..).append (.wrap c .nil)).append (ihr ..)).enclose nested depth

theorem layout_of_fits {t : Formula α} (h : t.text.length ≤ width) :
    t.layout width = t.flatPieces false 0 := by
  cases t with
  | leaf s a => rfl
  | node s c l r =>
      rw [layout, layoutFrom_node, length_spelled_flatPieces, if_pos]
      rw [length_text] at h
      simpa using h

end Formula

theorem Sheet.toList_plainLayout (width : Nat) (t : Formula Nat) :
    (plainLayout width (some t)).toList = spelled (t.layout width) := by
  rw [plainLayout, String.toList_join, List.flatMap_map]
  rfl

theorem Sheet.toList_colouredLayout (width : Nat) (t : Formula Nat) :
    (colouredLayout width (some t)).toList = (t.layout width).flatMap (·.coloured.toList) := by
  rw [colouredLayout, String.toList_join, List.flatMap_map]
  rfl

/-- A layout only breaks lines. Without its line breaks it is the text of the formula, in colour it
shows the same as without, and every line break follows a connective. A line that is longer than the
width has a single leaf. The text is not broken if it fits, so on a single line it is laid out as it
is. -/
theorem layout_only_breaks_lines {t : Formula Nat} (h : t.WellFormed) (width : Nat) :
    (Sheet.plainLayout width (some t)).toList.filter (· != '\n') = t.text.toList ∧
    Terminal.text.shows (Sheet.colouredLayout width (some t)).toList =
      (Sheet.plainLayout width (some t)).toList ∧
    BreaksAfterConnectives (Sheet.plainLayout width (some t)).toList ∧
    LinesFit width (Sheet.plainLayout width (some t)).toList ∧
    leavesIn t.text.toList = t.leaves.length ∧
    (t.text.length ≤ width → '\n' ∉ (Sheet.plainLayout width (some t)).toList) ∧
    Sheet.singleLine (some t) = t.text := by
  have hlettered : t.Within .lettered := h.2.mono Fragment.regular_le
  have hspread : Spread (t.flatPieces false 0) (t.layout width) := t.spread_layoutFrom ..
  have hinked := t.inked_flatPieces false 0
  have hflat : spelled (t.flatPieces false 0) = t.text.toList := t.spelled_flatPieces false 0
  have hpieces (p : Piece) (hp : p ∈ t.layout width) : p = .newline ∨ p.Inked :=
    (hspread.mem_of_mem p hp).imp_right (hinked p)
  rw [Sheet.toList_plainLayout, Sheet.toList_colouredLayout]
  refine ⟨?_, Terminal.shows_flatMap_coloured hpieces, hspread.breaks_spelled hinked, ?_,
    leavesIn_text hlettered, fun hfits => ?_, ?_⟩
  · rw [hspread.filter_spelled hinked, hflat]
  · have hlines := Formula.linesFit_layoutFrom hlettered false 0 0 List.not_mem_nil rfl
      (closes_nil width)
    rwa [List.nil_append, List.append_nil] at hlines
  · rw [Formula.layout_of_fits hfits]
    exact newline_not_mem_spelled hinked
  · have hfits : t.text.length ≤ max (Sheet.text (some t)).length 80 := Nat.le_max_left ..
    rw [← String.toList_inj, Sheet.singleLine, Sheet.toList_plainLayout,
      Formula.layout_of_fits hfits, hflat]

/-- No compound part fits. The third line is longer than the width even so. -/
theorem layout_only_breaks_narrow :
    Sheet.plainLayout 3 (some Schemas.distribution) = "(a>\n(b>\nc))>\n((a>\nb)>\n(a>\nc))" ∧
    LinesFit 3 (Sheet.plainLayout 3 (some Schemas.distribution)).toList ∧
    BreaksAfterConnectives (Sheet.plainLayout 3 (some Schemas.distribution)).toList ∧
    Terminal.text.shows (Sheet.colouredLayout 3 (some Schemas.distribution)).toList =
      (Sheet.plainLayout 3 (some Schemas.distribution)).toList ∧
    Sheet.singleLine (some Schemas.distribution) = "(a>(b>c))>((a>b)>(a>c))" := by
  have hwell : Schemas.distribution.WellFormed :=
    (Obtained.schema (by simp [Schemas.classical])).wellFormed rfl
  obtain ⟨-, hshows, hbreaks, hlines, -, -, hsingle⟩ := layout_only_breaks_lines hwell 3
  exact ⟨by decide, hlines, hbreaks, hshows, hsingle.trans (by decide)⟩

end Detachment

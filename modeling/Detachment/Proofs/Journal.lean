import Detachment.Derivation
import Mathlib.Data.List.Basic
import Mathlib.Data.List.Induction

/-!
# Reading a journal back

A journal to which nothing but derivations between words was appended gives back exactly these
derivations, in order. The ledger made from it holds for each formula its first derivation. If every
derivation comes after those of the formulas it rests on, then so it is with the formulas of the
ledger, in the order in which they were first derived: `Ledger.Ordered`.
-/
namespace Detachment

namespace Text

/-- A text that is not empty and contains no blank. -/
def Word (s : String) : Prop :=
  s.toList ≠ [] ∧ ∀ c ∈ s.toList, isBlank c = false

variable {sep : Char → Bool} {cs rest : List Char}

theorem splitLoop_of_none (h : ∀ c ∈ cs, sep c = false) (piece : List Char) :
    splitLoop sep cs piece [] = [piece.reverse ++ cs] := by
  induction cs generalizing piece with
  | nil => simp [splitLoop]
  | cons c cs ih =>
      rw [splitLoop, h c (by simp)]
      simpa using ih (fun d hd => h d (by simp [hd])) (c :: piece)

theorem splitLoop_append (cs : List Char) {d : Char} (hd : sep d = true) (piece : List Char) :
    splitLoop sep (cs ++ d :: rest) piece [] =
      splitLoop sep cs piece [] ++ splitLoop sep rest [] [] := by
  induction cs generalizing piece with
  | nil =>
      simp only [List.nil_append, splitLoop, hd, if_true]
      rw [splitLoop_eq]
  | cons c cs ih =>
      simp only [List.cons_append, splitLoop]
      split
      · rw [splitLoop_eq, ih, splitLoop_eq sep cs [] [piece.reverse], List.append_assoc]
      · exact ih (c :: piece)

theorem splitWhere_of_none (h : ∀ c ∈ cs, sep c = false) : splitWhere sep cs = [cs] := by
  simpa [splitWhere] using splitLoop_of_none h []

/-- A separator cuts a text in two, whatever stands before it. -/
theorem splitWhere_separator (cs : List Char) {d : Char} (hd : sep d = true) :
    splitWhere sep (cs ++ d :: rest) = splitWhere sep cs ++ splitWhere sep rest :=
  splitLoop_append cs hd []

theorem splitWhere_append (h : ∀ c ∈ cs, sep c = false) {d : Char} (hd : sep d = true) :
    splitWhere sep (cs ++ d :: rest) = cs :: splitWhere sep rest := by
  rw [splitWhere_separator cs hd, splitWhere_of_none h]
  rfl

theorem word_of_all {s : String} (hne : s.toList ≠ [])
    (h : s.toList.all (fun c => !isBlank c) = true) : Word s := by
  refine ⟨hne, fun c hc => ?_⟩
  simpa using List.all_eq_true.mp h c hc

theorem words_of_word {s : String} (h : Word s) : words s.toList = [s.toList] := by
  simp [words, splitWhere_of_none h.2, h.1]

theorem words_append {s : String} (h : Word s) :
    words (s.toList ++ ' ' :: rest) = s.toList :: words rest := by
  simp [words, splitWhere_append h.2 (show isBlank ' ' = true by decide), h.1]

theorem Word.newline_not_mem {s : String} (h : Word s) : '\n' ∉ s.toList :=
  fun hmem => absurd (h.2 _ hmem) (by decide)

theorem beq_newline_eq_false (h : '\n' ∉ cs) : ∀ c ∈ cs, (c == '\n') = false := by
  intro c hc
  rw [beq_eq_false_iff_ne]
  rintro rfl
  exact h hc

theorem splitWhere_ne_nil (sep : Char → Bool) (cs : List Char) : splitWhere sep cs ≠ [] := by
  have hloop (cs piece : List Char) : splitLoop sep cs piece [] ≠ [] := by
    induction cs generalizing piece with
    | nil => simp [splitLoop]
    | cons c cs ih =>
        rw [splitLoop, splitLoop_eq]
        split
        · simp
        · exact ih (c :: piece)
  exact hloop cs []

/-- Lines that are each ended by a line feed are found again, whatever stands after them. -/
theorem lines_flatMap_append {ls : List (List Char)} (h : ∀ l ∈ ls, '\n' ∉ l) (rest : List Char) :
    lines ((ls.flatMap fun l => l ++ ['\n']) ++ rest) = ls ++ lines rest := by
  have hsplit : splitWhere (· == '\n') ((ls.flatMap fun l => l ++ ['\n']) ++ rest) =
      ls ++ splitWhere (· == '\n') rest := by
    induction ls with
    | nil => rfl
    | cons l ls ih =>
        rw [List.flatMap_cons, List.append_assoc, List.append_assoc, List.singleton_append,
          splitWhere_append (beq_newline_eq_false (h l (by simp))) rfl,
          ih fun l' hl' => h l' (by simp [hl'])]
        rfl
  rw [lines, hsplit, List.reverse_append, lines]
  -- The last piece is dropped if it is empty, and there is one after the last line feed.
  rcases hlast : (splitWhere (· == '\n') rest).reverse with _ | ⟨_ | ⟨c, l⟩, before⟩
  · exact absurd (List.reverse_eq_nil_iff.mp hlast) (splitWhere_ne_nil _ _)
  · simp
  · simp

end Text

open Text

namespace Derivation

/-- The formulas of the derivation are words. -/
def Worded (d : Derivation) : Prop :=
  Word d.formula ∧ ∀ p ∈ d.parents, Word p

theorem word_premiseMark : Word "axiom" :=
  word_of_all (by decide) (by decide)

theorem word_ruleMark : Word "mp" :=
  word_of_all (by decide) (by decide)

theorem ofLine?_text {d : Derivation} (h : d.Worded) : ofLine? d.text.toList = some d := by
  obtain ⟨f, rule⟩ := d
  obtain ⟨hf, hparents⟩ := h
  cases rule with
  | premise =>
      have htext : (Derivation.text ⟨f, .premise⟩).toList = f.toList ++ ' ' :: "axiom".toList := by
        rw [text, String.toList_append]
        rfl
      rw [htext, ofLine?, words_append hf, words_of_word word_premiseMark]
      simp
  | modusPonens minor major =>
      have hminor : Word minor := hparents minor (by simp [parents])
      have hmajor : Word major := hparents major (by simp [parents])
      have htext : (Derivation.text ⟨f, .modusPonens minor major⟩).toList =
          f.toList ++ ' ' :: ("mp".toList ++ ' ' :: (minor.toList ++ ' ' :: major.toList)) := by
        simp [text, String.toList_append]
      rw [htext, ofLine?, words_append hf, words_append word_ruleMark, words_append hminor,
        words_of_word hmajor]
      simp

theorem newline_not_mem_text {d : Derivation} (h : d.Worded) : '\n' ∉ d.text.toList := by
  obtain ⟨f, rule⟩ := d
  obtain ⟨hf, hparents⟩ := h
  cases rule with
  | premise => simp [text, String.toList_append, hf.newline_not_mem]
  | modusPonens minor major =>
      have hminor := (hparents minor (by simp [parents])).newline_not_mem
      have hmajor := (hparents major (by simp [parents])).newline_not_mem
      simp [text, String.toList_append, hf.newline_not_mem, hminor, hmajor]

end Derivation

namespace Journal

/-- The journal consists of the given derivations, one in a line. -/
def Lists (j : Journal) (ds : List Derivation) : Prop :=
  j.bytes = (String.join (ds.map fun d => d.text ++ "\n")).toUTF8

theorem lists_empty : Lists {} [] := rfl

theorem Lists.record {j : Journal} {ds : List Derivation} (h : j.Lists ds) (d : Derivation) :
    (j.record d).Lists (ds ++ [d]) := by
  unfold Lists Journal.record at *
  rw [h]
  simp [String.join_append, String.toByteArray_append]

/-- After derivations between words, a foreign text adds the derivations on its own lines. -/
theorem ledger_append_eq {j : Journal} {ds : List Derivation} (h : j.Lists ds)
    (hds : ∀ d ∈ ds, d.Worded) (foreign : String) :
    (j.append foreign.toUTF8).ledger =
      .ok ((ds ++ (lines foreign.toList).filterMap Derivation.ofLine?).foldl Ledger.add ∅) := by
  have htext : (j.append foreign.toUTF8).text? =
      some (String.join (ds.map fun d => d.text ++ "\n") ++ foreign) := by
    rw [text?, append, h, String.fromUTF8?]
    simp only [String.toUTF8_eq_toByteArray, ← String.toByteArray_append, String.isValidUTF8,
      dite_true]
    rfl
  have hlist : (String.join (ds.map fun d => d.text ++ "\n") ++ foreign).toList =
      ((ds.map fun d => d.text.toList).flatMap fun l => l ++ ['\n']) ++ foreign.toList := by
    rw [String.toList_append, String.toList_join, List.flatMap_map, List.flatMap_map]
    simp [String.toList_append]
  have hlines : lines (String.join (ds.map fun d => d.text ++ "\n") ++ foreign).toList =
      (ds.map fun d => d.text.toList) ++ lines foreign.toList := by
    rw [hlist]
    refine lines_flatMap_append (fun l hl => ?_) foreign.toList
    obtain ⟨d, hd, rfl⟩ := List.mem_map.mp hl
    exact Derivation.newline_not_mem_text (hds d hd)
  have hread : (ds.map fun d => d.text.toList).filterMap Derivation.ofLine? = ds := by
    rw [List.filterMap_map]
    have hsome : ∀ d ∈ ds, (Derivation.ofLine? ∘ fun d => d.text.toList) d = some d :=
      fun d hd => Derivation.ofLine?_text (hds d hd)
    rw [List.filterMap_congr hsome, List.filterMap_some]
  rw [ledger, htext]
  simp only [Ledger.ofLines, hlines, List.filterMap_append, hread]

theorem ledger_eq {j : Journal} {ds : List Derivation} (h : j.Lists ds)
    (hds : ∀ d ∈ ds, d.Worded) : j.ledger = .ok (ds.foldl Ledger.add ∅) := by
  have hsame : j.append "".toUTF8 = j := by simp [append]
  have hnone : (lines "".toList).filterMap Derivation.ofLine? = [] := rfl
  have hledger := ledger_append_eq h hds ""
  rwa [hsame, hnone, List.append_nil] at hledger

end Journal

/-- Every derivation comes after those of the formulas it rests on. -/
inductive Rooted : List Derivation → Prop
  | nil : Rooted []
  | snoc {ds : List Derivation} {d : Derivation} (h : Rooted ds)
      (hd : ∀ p ∈ d.parents, p ∈ ds.map Derivation.formula) : Rooted (ds ++ [d])

namespace Ledger

/-- The formulas of the ledger, each after those it was obtained from. -/
structure Ordered (ledger : Ledger) (keys : List String) : Prop where
  size_eq : ledger.size = keys.length
  mem_iff : ∀ f, f ∈ ledger ↔ f ∈ keys
  formula_eq : ∀ (f : String) (d : Derivation), ledger[f]? = some d → d.formula = f
  parents_lt : ∀ (f : String) (d : Derivation), ledger[f]? = some d → ∀ p ∈ d.parents,
    p ∈ keys ∧ keys.idxOf p < keys.idxOf f

theorem ordered_empty : Ordered ∅ [] where
  size_eq := Std.HashMap.size_empty
  mem_iff f := by simp
  formula_eq f d h := by simp at h
  parents_lt f d h := by simp at h

variable {ledger : Ledger} {keys : List String} {d : Derivation}

theorem Ordered.add (h : ledger.Ordered keys) (hd : ∀ p ∈ d.parents, p ∈ keys) :
    ∃ keys', Ordered (ledger.add d) keys' ∧ ∀ f, f ∈ keys' ↔ f ∈ keys ∨ f = d.formula := by
  by_cases hmem : d.formula ∈ keys
  · -- A formula that is there already keeps its first derivation.
    have hkept (f : String) : (ledger.add d)[f]? = ledger[f]? := by
      have hledger := (h.mem_iff _).mpr hmem
      simp [Ledger.add, Std.HashMap.getElem?_insertIfNew, hledger]
    refine ⟨keys, ⟨?_, fun f => ?_, fun f d' hf => ?_, fun f d' hf => ?_⟩, fun f => ?_⟩
    · simp [Ledger.add, Std.HashMap.size_insertIfNew, (h.mem_iff _).mpr hmem, h.size_eq]
    · rw [Std.HashMap.mem_iff_isSome_getElem?, hkept, ← Std.HashMap.mem_iff_isSome_getElem?]
      exact h.mem_iff f
    · exact h.formula_eq f d' (hkept f ▸ hf)
    · exact h.parents_lt f d' (hkept f ▸ hf)
    · constructor
      · exact .inl
      · rintro (hf | rfl)
        · exact hf
        · exact hmem
  · -- A new formula comes last, and so after everything it rests on.
    have hnew : d.formula ∉ ledger := fun hl => hmem ((h.mem_iff _).mp hl)
    have hget (f : String) : (ledger.add d)[f]? = if d.formula = f then some d else ledger[f]? := by
      simp [Ledger.add, Std.HashMap.getElem?_insertIfNew, hnew]
    have hidx {p : String} (hp : p ∈ keys) : (keys ++ [d.formula]).idxOf p = keys.idxOf p :=
      List.idxOf_append_of_mem hp
    refine ⟨keys ++ [d.formula], ⟨?_, fun f => ?_, fun f d' hf => ?_, fun f d' hf p hp => ?_⟩,
      fun f => by simp⟩
    · simp [Ledger.add, Std.HashMap.size_insertIfNew, hnew, h.size_eq]
    · rw [Ledger.add, Std.HashMap.mem_insertIfNew, h.mem_iff, beq_iff_eq, List.mem_append,
        List.mem_singleton, or_comm, @eq_comm _ f]
    · rw [hget] at hf
      split at hf
      · rename_i he
        cases hf
        exact he
      · exact h.formula_eq f d' hf
    · rw [hget] at hf
      split at hf
      · rename_i he
        cases hf
        have hpk := hd p hp
        refine ⟨List.mem_append_left _ hpk, ?_⟩
        rw [hidx hpk, ← he, List.idxOf_append_of_notMem hmem]
        have := List.idxOf_lt_length_of_mem hpk
        omega
      · obtain ⟨hpk, hlt⟩ := h.parents_lt f d' hf p hp
        have hfk : f ∈ keys := by
          rw [← h.mem_iff, Std.HashMap.mem_iff_isSome_getElem?, hf]
          rfl
        rw [hidx hpk, hidx hfk]
        exact ⟨List.mem_append_left _ hpk, hlt⟩

/-- The ledger of derivations that rest on earlier ones can be put in order. -/
theorem exists_ordered {ds : List Derivation} (h : Rooted ds) :
    ∃ keys, Ordered (ds.foldl Ledger.add ∅) keys ∧
      ∀ f, f ∈ keys ↔ f ∈ ds.map Derivation.formula := by
  induction h with
  | nil => exact ⟨[], ordered_empty, by simp⟩
  | snoc _ hd ih =>
      obtain ⟨keys, hkeys, hmem⟩ := ih
      obtain ⟨keys', hkeys', hmem'⟩ := hkeys.add fun p hp => (hmem p).mpr (hd p hp)
      refine ⟨keys', ?_, fun f => ?_⟩
      · rw [List.foldl_append]
        exact hkeys'
      · rw [hmem', hmem, List.map_append]
        simp

theorem mem_of_getElem?_foldl {ds : List Derivation} {f : String} {d : Derivation}
    (h : (ds.foldl Ledger.add ∅)[f]? = some d) : d ∈ ds := by
  induction ds using List.reverseRecOn with
  | nil => simp at h
  | append_singleton ds d' ih =>
      rw [List.foldl_append, List.foldl_cons, List.foldl_nil, Ledger.add,
        Std.HashMap.getElem?_insertIfNew] at h
      split at h
      · cases h
        simp
      · exact List.mem_append_left _ (ih h)

end Ledger

end Detachment

import Detachment.Proofs.Recording

/-!
# From the journal to the ledger

Whatever is recorded in a journal is found again in its ledger, each formula with its first
derivation. Foreign text that is appended can only add formulas that were not recorded: each of them
with the first of the foreign lines that is a derivation of it. A line is a derivation if and only
if its words are the fields of one, so a derivation can be read back if its fields are words.
-/
namespace Detachment

open Text

namespace Text

variable {sep : Char → Bool} {cs : List Char}

/-- The pieces between separators contain none. -/
theorem sep_of_mem_splitWhere {p : List Char} (h : p ∈ splitWhere sep cs) :
    ∀ c ∈ p, sep c = false := by
  have hloop (cs piece : List Char) (hpiece : ∀ c ∈ piece, sep c = false)
      (h : p ∈ splitLoop sep cs piece []) : ∀ c ∈ p, sep c = false := by
    induction cs generalizing piece with
    | nil =>
        obtain rfl : p = piece.reverse := by simpa [splitLoop] using h
        simpa using hpiece
    | cons c cs ih =>
        rw [splitLoop] at h
        split at h
        · rw [splitLoop_eq, List.mem_append] at h
          obtain h | h := h
          · obtain rfl : p = piece.reverse := by simpa using h
            simpa using hpiece
          · exact ih [] (by simp) h
        · rename_i hc
          exact ih (c :: piece) (List.forall_mem_cons.mpr ⟨by simpa using hc, hpiece⟩) h
  exact hloop cs [] (by simp) h

theorem word_of_mem_words {s : String} (h : s ∈ (words cs).map String.ofList) : Word s := by
  obtain ⟨w, hw, rfl⟩ := List.mem_map.mp h
  obtain ⟨hpiece, hne⟩ := List.mem_filter.mp hw
  rw [Word, String.toList_ofList]
  exact ⟨by simpa using hne, sep_of_mem_splitWhere hpiece⟩

end Text

namespace Derivation

/-- What is read from a line has words for its fields. -/
theorem worded_of_ofLine? {line : List Char} {d : Derivation} (h : ofLine? line = some d) :
    d.Worded := by
  have hword {s : String} (hs : s ∈ (words line).map String.ofList) : Word s :=
    word_of_mem_words hs
  unfold ofLine? at h
  split at h
  · rename_i f hwords
    cases h
    exact ⟨hword (by simp [hwords]), by simp [parents]⟩
  · rename_i f minor major hwords
    cases h
    refine ⟨hword (by simp [hwords]), ?_⟩
    simp only [parents, List.mem_cons, List.not_mem_nil, or_false]
    rintro p (rfl | rfl)
    · exact hword (by simp [hwords])
    · exact hword (by simp [hwords])
  · cases h

end Derivation

/-- A report of how a formula was obtained, as it is given to a journal. -/
inductive Report where
  | premise (formula : Sheet)
  | modusPonens (result minor major : Sheet)

namespace Report

def derivation : Report → Derivation
  | premise formula => ⟨formula.text, .premise⟩
  | modusPonens result minor major => ⟨result.text, .modusPonens minor.text major.text⟩

theorem worded (r : Report) : r.derivation.Worded := by
  cases r with
  | premise formula => exact ⟨word_text formula, by simp [derivation, Derivation.parents]⟩
  | modusPonens result minor major =>
      refine ⟨word_text result, ?_⟩
      simp only [derivation, Derivation.parents, List.mem_cons, List.not_mem_nil, or_false]
      rintro p (rfl | rfl)
      · exact word_text minor
      · exact word_text major

end Report

namespace Journal

/-- Record what is reported. -/
def receive (j : Journal) : Report → Journal
  | .premise formula => Session.recordPremise j formula
  | .modusPonens result minor major =>
      j.record ⟨result.text, .modusPonens minor.text major.text⟩

theorem receive_eq (j : Journal) (r : Report) : j.receive r = j.record r.derivation := by
  cases r <;> rfl

/-- The journal lists what was reported, one line for each report. -/
theorem lists_foldl_receive (reports : List Report) :
    (reports.foldl receive {}).Lists (reports.map Report.derivation) ∧
      (reports.foldl receive {}).count = reports.length := by
  induction reports using List.reverseRecOn with
  | nil => exact ⟨lists_empty, rfl⟩
  | append_singleton reports r ih =>
      rw [List.foldl_append, List.foldl_cons, List.foldl_nil, List.map_append, receive_eq]
      exact ⟨ih.1.record r.derivation, by simp [record, ih.2]⟩

end Journal

/-- Of several derivations of a formula the ledger keeps the first, and one that it had already
before all of them. -/
theorem Ledger.getElem?_foldl (ds : List Derivation) (ledger : Ledger) (f : String) :
    (ds.foldl Ledger.add ledger)[f]? = ledger[f]?.or (ds.find? (·.formula == f)) := by
  induction ds generalizing ledger with
  | nil => simp
  | cons d ds ih =>
      have hmem := Std.HashMap.mem_iff_isSome_getElem? (m := ledger) (a := d.formula)
      rw [List.foldl_cons, ih, Ledger.add, Std.HashMap.getElem?_insertIfNew, List.find?_cons]
      by_cases hf : d.formula = f
      · subst hf
        cases hd : ledger[d.formula]? with
        | none => simp [hmem, hd]
        | some e => simp [hmem, hd]
      · simp [beq_false_of_ne hf]

/-- The journal and its ledger. Whatever is reported, a journal counts the reports, and its ledger
holds exactly the formulas reported, each with its first derivation. A foreign text appended to it
only adds formulas that are not there yet, each with the first derivation of it among the lines of
the text. A derivation whose fields are words is read back from its text, and all that is read from
any line has words for its fields. -/
theorem journal_gives_back_reports (reports : List Report) :
    (reports.foldl Journal.receive {}).count = reports.length ∧
    (∃ ledger, (reports.foldl Journal.receive {}).ledger = .ok ledger ∧
      (∀ f, ledger[f]? = (reports.map Report.derivation).find? (·.formula == f)) ∧
      ∀ foreign : String, ∃ ledger',
        ((reports.foldl Journal.receive {}).append foreign.toUTF8).ledger = .ok ledger' ∧
        ∀ f, ledger'[f]? = ledger[f]?.or
          (((lines foreign.toList).filterMap Derivation.ofLine?).find? (·.formula == f))) ∧
    (∀ d : Derivation, d.Worded → Derivation.ofLine? d.text.toList = some d) ∧
    ∀ line d, Derivation.ofLine? line = some d → d.Worded := by
  obtain ⟨hlists, hcount⟩ := Journal.lists_foldl_receive reports
  have hworded : ∀ d ∈ reports.map Report.derivation, d.Worded := by
    rintro _ hd
    obtain ⟨r, -, rfl⟩ := List.mem_map.mp hd
    exact r.worded
  refine ⟨hcount, ⟨_, Journal.ledger_eq hlists hworded, fun f => ?_, fun foreign =>
    ⟨_, Journal.ledger_append_eq hlists hworded foreign, fun f => ?_⟩⟩,
    fun d => Derivation.ofLine?_text, fun line d => Derivation.worded_of_ofLine?⟩
  · rw [Ledger.getElem?_foldl, Std.HashMap.getElem?_empty, Option.none_or]
  · rw [List.foldl_append, Ledger.getElem?_foldl]

/-- A premise `a` and two derivations of `b`. -/
def repeatedReports : List Report :=
  [.premise (some (.leaf 0 (.var 1))),
    .modusPonens (some (.leaf 0 (.var 2))) (some (.leaf 0 (.var 1)))
      (some (Formula.join .implication (.leaf 0 (.var 1)) (.leaf 0 (.var 2)))),
    .premise (some (.leaf 0 (.var 2)))]

/-- A line with too many words, an empty line, a third derivation of `b`, and two lines whose words
are marks of rules as well. -/
def foreignText : String :=
  "c axiom d\n\nb axiom\r\nmp mp mp axiom\naxiom axiom"

theorem journal_gives_back_foreign :
    ∃ ledger : Ledger,
      ((repeatedReports.foldl Journal.receive {}).append foreignText.toUTF8).ledger = .ok ledger ∧
      ledger["b"]? = some ⟨"b", .modusPonens "a" "a>b"⟩ ∧ ledger["c"]? = none ∧
      ledger["mp"]? = some ⟨"mp", .modusPonens "mp" "axiom"⟩ ∧
      ledger["axiom"]? = some ⟨"axiom", .premise⟩ := by
  obtain ⟨-, ⟨ledger, -, hfirst, hforeign⟩, -⟩ := journal_gives_back_reports repeatedReports
  obtain ⟨ledger', hledger, hadded⟩ := hforeign foreignText
  simp only [hfirst] at hadded
  refine ⟨ledger', hledger, ?_, ?_, ?_, ?_⟩ <;> rw [hadded] <;> decide

end Detachment

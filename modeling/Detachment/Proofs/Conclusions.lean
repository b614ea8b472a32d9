import Detachment.Proofs.Clock

/-!
# The conclusions in a journal

The journal of a search begins with its first formulas and goes on with the conclusions that it
draws, one record for each. Whatever the clock shows and wherever a search is on its way, no
conclusion has been recorded twice, each was drawn from two formulas promoted by then, and these had
been recorded before it. Of all formulas that are promoted, waiting or fresh there is a record.
-/
namespace Detachment

namespace Search

/-- The states that a search goes through after the one it begins in, one look at the clock after
the other. -/
def trail : (expired : List Bool) → Search → List Search
  | [], _ => []
  | expired :: later, s =>
      s.stepTrail expired ++
        match s.step expired with
        | .running s' => trail later s'
        | .ended _ _ => []

/-- The conclusion `f` of `minor` and `major` is drawn in the state `q`, after the `records` made
since the journal was `j`, and recorded as `d`. -/
structure Drawn (j : Journal) (limit : Nat) (records : List Derivation) (q : Search)
    (d : Derivation) (minor major : Sheet) (f : Formula Nat) : Prop where
  record_eq : d = ⟨f.text, .modusPonens minor.text major.text⟩
  journal_eq : q.journal = records.foldl Journal.record j
  minor_promoted : minor ∈ q.promoted
  major_promoted : major ∈ q.promoted
  detach_eq : minor.detach major = some f
  normal : f.normalize = f
  good : Sheet.isGood limit (some f) = true
  minor_recorded : minor.text ∈ records.map Derivation.formula
  major_recorded : major.text ∈ records.map Derivation.formula

/-- In the state `s`, which comes after the `earlier` ones, the journal holds the records `before`
and after them those of the conclusions `ds`. -/
structure Logged (j : Journal) (limit : Nat) (before : List Derivation) (earlier : List Search)
    (s : Search) (ds : List Derivation) : Prop where
  limit_eq : s.limit = limit
  journal_eq : s.journal = (before ++ ds).foldl Journal.record j
  mem_known : ∀ text, text ∈ s.known ↔ text ∈ ds.map Derivation.formula
  nodup : (ds.map Derivation.formula).Nodup
  drawn : ∀ done d rest, ds = done ++ d :: rest →
    ∃ q ∈ earlier, ∃ minor major f, Drawn j limit (before ++ done) q d minor major f
  recorded : ∀ x ∈ s.promoted ++ s.waiting ++ s.fresh,
    x.normalize = x ∧ x.text ∈ (before ++ ds).map Derivation.formula

variable {j : Journal} {limit : Nat} {before ds : List Derivation} {earlier : List Search}
  {s s' : Search}

/-- As long as no conclusion is drawn, formulas only change places: to put one that is recorded in
normal form changes nothing. -/
theorem Logged.keep (h : Logged j limit before earlier s ds) (hlimit : s'.limit = s.limit)
    (hjournal : s'.journal = s.journal) (hknown : s'.known = s.known)
    (hmem : ∀ x ∈ s'.promoted ++ s'.waiting ++ s'.fresh,
      ∃ y ∈ s.promoted ++ s.waiting ++ s.fresh, x = y ∨ x = y.normalize) :
    Logged j limit before (earlier ++ [s]) s' ds where
  limit_eq := hlimit.trans h.limit_eq
  journal_eq := hjournal.trans h.journal_eq
  mem_known := by
    rw [hknown]
    exact h.mem_known
  nodup := h.nodup
  drawn := by
    intro done d rest hds
    obtain ⟨q, hq, hdrawn⟩ := h.drawn done d rest hds
    exact ⟨q, List.mem_append_left _ hq, hdrawn⟩
  recorded := by
    intro x hx
    obtain ⟨y, hy, rfl | rfl⟩ := hmem x hx
    · exact h.recorded x hy
    · rw [(h.recorded y hy).1]
      exact h.recorded y hy

theorem Logged.stay (h : Logged j limit before earlier s ds) :
    Logged j limit before (earlier ++ [s]) s ds :=
  h.keep rfl rfl rfl fun x hx => ⟨x, hx, .inl rfl⟩

theorem Logged.derive {minor major : Sheet} {f : Formula Nat} {promoted : List Sheet}
    (h : Logged j limit before earlier s ds) (hminor : minor ∈ s.promoted)
    (hmajor : major ∈ s.promoted) (hf : minor.detach major = some f)
    (hgood : Sheet.isGood s.limit (some f) = true) (hnew : f.text ∉ s.known)
    (hpromoted : ∀ x ∈ promoted, x ∈ s.promoted ∨ x = some f) :
    Logged j limit before (earlier ++ [s])
      { s with
        known := s.known.insert f.text
        journal := s.journal.record ⟨f.text, .modusPonens minor.text major.text⟩
        promoted
        fresh := some f :: s.fresh }
      (ds ++ [⟨f.text, .modusPonens minor.text major.text⟩]) := by
  have hnormal : f.normalize = f := by
    obtain ⟨m, M, -, -, hf⟩ := Sheet.detach_eq_some_iff.mp hf
    exact normalize_detach hf
  have hrecorded {x : Sheet} (hx : x ∈ s.promoted) :
      x.text ∈ (before ++ ds).map Derivation.formula :=
    (h.recorded x (by simp [hx])).2
  exact
    { limit_eq := h.limit_eq
      journal_eq := by
        rw [← List.append_assoc, List.foldl_append, ← h.journal_eq]
        rfl
      mem_known := by
        intro text
        rw [Std.HashSet.mem_insert, beq_iff_eq, h.mem_known, List.map_append, List.mem_append,
          List.map_singleton, List.mem_singleton, or_comm, eq_comm]
      nodup := by
        rw [List.map_append, List.nodup_append]
        refine ⟨h.nodup, by simp, fun text htext text' htext' heq => ?_⟩
        obtain rfl : text' = f.text := by simpa using htext'
        exact hnew ((h.mem_known _).mpr (heq ▸ htext))
      drawn := by
        -- The last record is the new one, and every other one was there before.
        intro done d rest hds
        obtain rfl | ⟨rest, last, rfl⟩ := List.eq_nil_or_concat rest
        · obtain ⟨rfl, hd⟩ := List.append_inj' hds rfl
          obtain rfl := List.singleton_inj.mp hd
          exact ⟨s, by simp, minor, major, f, rfl, h.journal_eq, hminor, hmajor, hf, hnormal,
            h.limit_eq ▸ hgood, hrecorded hminor, hrecorded hmajor⟩
        · rw [List.concat_eq_append, ← List.cons_append, ← List.append_assoc] at hds
          obtain ⟨hds, -⟩ := List.append_inj' hds rfl
          exact h.stay.drawn done d rest hds
      recorded := by
        intro x hx
        have hcases : x ∈ s.promoted ++ s.waiting ++ s.fresh ∨ x = some f := by
          simp only [List.mem_append, List.mem_cons] at hx ⊢
          obtain (hx | hx) | rfl | hx := hx
          · exact (hpromoted x hx).imp_left fun hx => .inl (.inl hx)
          · exact .inl (.inl (.inr hx))
          · exact .inr rfl
          · exact .inl (.inr hx)
        obtain hx | rfl := hcases
        · obtain ⟨hxnormal, hxrecorded⟩ := h.recorded x hx
          refine ⟨hxnormal, ?_⟩
          rw [← List.append_assoc, List.map_append]
          exact List.mem_append_left _ hxrecorded
        · exact ⟨congrArg some hnormal, by simp [Sheet.text]⟩ }

end Search

namespace Session

end Session

end Detachment

import Detachment.Proofs.Parsing

/-!
# Where reading goes wrong

A text opens a phrase if some phrase begins with it. Reading fails at an impasse: what was read
opens a phrase, and together with the next token it opens none. An operand is at an impasse for the
phrase around it as well, because a connective of this phrase would have ended the operand, and the
same holds of a formula in parentheses. So the position of the error is that of the first token that
no formula goes on with, or the end of a text that could have gone on.
-/
namespace Detachment

open Reading

/-! ### How phrases begin -/

/-- Some phrase of this kind begins with the text. -/
def Phrase.Opens (p : Phrase) (cs : List Char) : Prop :=
  ∃ ds t, Derives p (cs ++ ds) t

namespace Phrase

variable {p q : Phrase} {c : Connective} {cs ds : List Char}

theorem opens_of_derives {t : Sentence} (h : Derives p cs t) : p.Opens cs :=
  ⟨[], t, by rwa [List.append_nil]⟩

theorem opens_nil (p : Phrase) : p.Opens [] := by
  have hatom : Derives .atom ['a'] (.letter 'a') := .letter (by decide)
  have hprefixed : Derives .prefixed ['a'] (.letter 'a') := .single rfl hatom
  have hconjunction : Derives .conjunction ['a'] (.letter 'a') := .single rfl hprefixed
  have hdisjunction : Derives .disjunction ['a'] (.letter 'a') := .single rfl hconjunction
  have hparity : Derives .parity ['a'] (.letter 'a') := .single rfl hdisjunction
  refine ⟨['a'], .letter 'a', ?_⟩
  cases p with
  | formula => exact .single rfl hparity
  | parity => exact hparity
  | disjunction => exact hdisjunction
  | conjunction => exact hconjunction
  | prefixed => exact hprefixed
  | atom => exact hatom

theorem Opens.operand (hq : p.operand? = some q) (h : q.Opens cs) : p.Opens cs := by
  obtain ⟨ds, t, ht⟩ := h
  exact ⟨ds, t, .single hq ht⟩

/-- An operand is a negation, a group or a letter. -/
theorem prefixed_cases {t : Sentence} (h : Derives .prefixed cs t) :
    (∃ ds u, cs = '!' :: ds ∧ Derives .prefixed ds u) ∨
    (∃ ds u, cs = '(' :: (ds ++ [')']) ∧ Derives .formula ds u) ∨
    ∃ d, cs = [d] ∧ 'a' ≤ d ∧ d ≤ 'z' := by
  cases h with
  | negation h => exact .inl ⟨_, _, rfl, h⟩
  | @chain _ _ c _ _ _ _ hc => cases c <;> cases hc
  | single hq h =>
      cases hq
      cases h with
      | letter h => exact .inr (.inr ⟨_, rfl, h⟩)
      | group h => exact .inr (.inl ⟨_, _, rfl, h⟩)
      | single hq => cases hq
      | @chain _ _ c _ _ _ _ hc => cases c <;> cases hc

theorem opens_singleton {d : Char} (h : prefixed.Opens [d]) :
    d = '!' ∨ d = '(' ∨ 'a' ≤ d ∧ d ≤ 'z' := by
  obtain ⟨ds, t, ht⟩ := h
  obtain ⟨es, u, htext, -⟩ | ⟨es, u, htext, -⟩ | ⟨d', htext, hd'⟩ := prefixed_cases ht
  · exact .inl (List.cons.inj htext).1
  · exact .inr (.inl (List.cons.inj htext).1)
  · obtain ⟨rfl, -⟩ := List.cons.inj htext
    exact .inr (.inr hd')

theorem opens_negation_iff : prefixed.Opens ('!' :: cs) ↔ prefixed.Opens cs := by
  constructor
  · rintro ⟨ds, t, ht⟩
    obtain ⟨es, u, htext, hu⟩ | ⟨es, u, htext, -⟩ | ⟨d, htext, hd⟩ := prefixed_cases ht
    · obtain ⟨-, rfl⟩ := List.cons.inj htext
      exact ⟨ds, u, hu⟩
    · cases htext
    · obtain ⟨rfl, -⟩ := List.cons.inj htext
      exact absurd hd (by decide)
  · rintro ⟨ds, t, ht⟩
    exact ⟨ds, _, .negation ht⟩

/-- A group is completed by completing the formula in it, unless the group is closed already. -/
theorem opens_group_iff :
    prefixed.Opens ('(' :: cs) ↔
      formula.Opens cs ∨ ∃ ds t, cs = ds ++ [')'] ∧ Derives .formula ds t := by
  constructor
  · rintro ⟨ds, t, ht⟩
    obtain ⟨es, u, htext, -⟩ | ⟨es, u, htext, hu⟩ | ⟨d, htext, hd⟩ := prefixed_cases ht
    · cases htext
    · replace htext : cs ++ ds = es ++ [')'] := (List.cons.inj htext).2
      obtain rfl | ⟨ds, d, rfl⟩ := List.eq_nil_or_concat ds
      · exact .inr ⟨es, u, by rwa [List.append_nil] at htext, hu⟩
      · rw [List.concat_eq_append, ← List.append_assoc] at htext
        obtain ⟨rfl, -⟩ := List.append_inj' htext rfl
        exact .inl ⟨ds, u, hu⟩
    · obtain ⟨rfl, -⟩ := List.cons.inj htext
      exact absurd hd (by decide)
  · rintro (⟨ds, t, ht⟩ | ⟨ds, t, rfl, ht⟩)
    · refine ⟨ds ++ [')'], .group t, ?_⟩
      rw [← List.append_assoc]
      exact .single rfl (.group ht)
    · exact opens_of_derives (.single rfl (.group ht))

/-- A phrase that connectives make is an operand or goes on after a connective. -/
theorem operand_or_chain {t : Sentence} (hp : p.level < operandLevel) (hq : p.operand? = some q)
    (h : Derives p cs t) :
    Derives q cs t ∨ ∃ (c : Connective) (us vs : List Char) (l r : Sentence), c.phrase = p ∧
      cs = us ++ c.symbol.toList ++ vs ∧ Derives q us l ∧ Derives p vs r := by
  cases h with
  | letter h => cases hq
  | group h => cases hq
  | negation h => exact absurd hp (by decide)
  | single hq' h =>
      obtain rfl := Option.some.inj (hq.symm.trans hq')
      exact .inl h
  | chain hc hq' hl hr =>
      obtain rfl := Option.some.inj (hq.symm.trans hq')
      exact .inr ⟨_, _, _, _, _, hc, rfl, hl, hr⟩

theorem level_lt_of_phrase (hc : c.phrase = p) : p.level < operandLevel := by
  subst hc
  cases c <;> decide

/-- What a connective and its left operand begin goes on with the phrase itself. -/
theorem opens_chain_iff (hc : c.phrase = p) (hq : p.operand? = some q) {l : Sentence}
    (hl : Derives q cs l) : p.Opens (cs ++ c.symbol.toList ++ ds) ↔ p.Opens ds := by
  constructor
  · rintro ⟨es, t, ht⟩
    -- The connective ends the operand in every reading, so all of them go on behind it.
    have hstops := stops_connective hq hc (ds ++ es)
    rw [List.append_assoc, List.append_assoc] at ht
    obtain ht | ⟨c', us, vs, l', r, hc', htext, hl', hr⟩ :=
      operand_or_chain (level_lt_of_phrase hc) hq ht
    · have hcs := (hl.unique ht hstops (stops_nil q) (List.append_nil _).symm).1
      obtain ⟨ch, hch, -⟩ := Token.ofChar?_connective c
      simp [hch] at hcs
    · rw [List.append_assoc] at htext
      obtain ⟨rfl, -⟩ := hl.unique hl' hstops (stops_connective hq hc' vs) htext
      obtain ⟨rfl, rfl⟩ := Formula.symbol_append_inj (List.append_cancel_left htext)
      exact ⟨es, r, hr⟩
  · rintro ⟨es, t, ht⟩
    refine ⟨es, .binary c l t, ?_⟩
    rw [List.append_assoc]
    exact .chain hc hq hl ht

/-- A text that a phrase begins with is one that its operand begins with, or it goes on after a
connective. -/
theorem opens_cases (hp : p.level < operandLevel) (hq : p.operand? = some q) (h : p.Opens cs) :
    q.Opens cs ∨ ∃ (c : Connective) (us vs : List Char) (l : Sentence), c.phrase = p ∧
      cs = us ++ c.symbol.toList ++ vs ∧ Derives q us l := by
  obtain ⟨ds, t, ht⟩ := h
  obtain ht | ⟨c, us, vs, l, r, hc, htext, hl, -⟩ := operand_or_chain hp hq ht
  · exact .inl ⟨ds, t, ht⟩
  -- The text ends within the operand, or it takes in the connective.
  rw [List.append_assoc] at htext
  obtain ⟨us', rfl, -⟩ | ⟨rest, rfl, hrest⟩ := List.append_eq_append_iff.mp htext
  · exact .inl ⟨us', l, hl⟩
  obtain ⟨ch, hch, -⟩ := Token.ofChar?_connective c
  cases rest with
  | nil => exact .inl (opens_of_derives (by rwa [List.append_nil]))
  | cons d rest =>
      rw [hch] at hrest
      obtain ⟨rfl, -⟩ := List.cons.inj hrest
      exact .inr ⟨c, us, rest, l, hc, by rw [hch, List.append_assoc]; rfl, hl⟩

end Phrase

/-! ### Where reading halts -/

/-- A phrase begins with the text `cs`, and it cannot go on with what follows. -/
structure Phrase.Impasse (p : Phrase) (cs rest : List Char) : Prop where
  opens : p.Opens cs
  stuck : ∀ c ∈ rest.head?, ¬p.Opens (cs ++ [c])

namespace Phrase.Impasse

variable {p q : Phrase} {c : Connective} {cs ds rest : List Char}

/-- Nothing can follow a phrase but a connective that it takes in. -/
theorem of_derives {t : Sentence} (h : Derives p cs t) (hrest : p.Stops rest) :
    p.Impasse cs rest := by
  refine ⟨opens_of_derives h, ?_⟩
  rintro d hd ⟨ds, t', ht'⟩
  cases rest with
  | nil => cases hd
  | cons d' rest =>
      obtain rfl := Option.some.inj hd
      have hstops : p.Stops (d' :: ds) := by
        intro c es hes
        obtain ⟨ch, hch, -⟩ := Token.ofChar?_connective c
        rw [hch] at hes
        obtain ⟨rfl, -⟩ := List.cons.inj hes
        exact hrest c rest (by rw [hch]; rfl)
      rw [List.append_assoc] at ht'
      have hcs := (h.unique ht' hstops (stops_nil p) (List.append_nil _).symm).1
      simp at hcs

theorem negation (h : prefixed.Impasse cs rest) : prefixed.Impasse ('!' :: cs) rest := by
  refine ⟨opens_negation_iff.mpr h.opens, fun d hd hopens => ?_⟩
  exact h.stuck d hd (opens_negation_iff.mp hopens)

theorem chain (hc : c.phrase = p) (hq : p.operand? = some q) {l : Sentence} (hl : Derives q cs l)
    (h : p.Impasse ds rest) : p.Impasse (cs ++ c.symbol.toList ++ ds) rest := by
  refine ⟨(opens_chain_iff hc hq hl).mpr h.opens, fun d hd hopens => ?_⟩
  rw [List.append_assoc (cs ++ c.symbol.toList)] at hopens
  exact h.stuck d hd ((opens_chain_iff hc hq hl).mp hopens)

theorem operand (hp : p.level < operandLevel) (hq : p.operand? = some q) (h : q.Impasse cs rest)
    (hchain : ∀ (c : Connective) (us vs : List Char) (l : Sentence), c.phrase = p →
      cs ++ rest = us ++ c.symbol.toList ++ vs → ¬Derives q us l) : p.Impasse cs rest := by
  refine ⟨h.opens.operand hq, fun d hd hopens => ?_⟩
  obtain hopens | ⟨c, us, vs, l, hc, htext, hl⟩ := opens_cases hp hq hopens
  · exact h.stuck d hd hopens
  · obtain ⟨rest, rfl⟩ := List.head?_eq_some_iff.mp hd
    refine hchain c us (vs ++ rest) l hc ?_ hl
    rw [← List.append_assoc, ← htext, List.append_assoc]
    rfl

theorem group (h : formula.Impasse cs rest)
    (hclosing : ')' ∈ rest.head? → ∀ t, ¬Derives .formula cs t) :
    prefixed.Impasse ('(' :: cs) rest := by
  refine ⟨opens_group_iff.mpr (.inl h.opens), fun d hd hopens => ?_⟩
  obtain hopens | ⟨ds, t, htext, ht⟩ := opens_group_iff.mp hopens
  · exact h.stuck d hd hopens
  · obtain ⟨rfl, hd'⟩ := List.append_inj' htext rfl
    obtain rfl := List.singleton_inj.mp hd'
    exact hclosing hd t ht

end Phrase.Impasse

theorem Phrase.level_ofLevel {level : Nat} (h : level ≤ operandLevel) :
    (Phrase.ofLevel level).level = level := by
  obtain _ | _ | _ | _ | level := level
  · rfl
  · rfl
  · rfl
  · rfl
  · simp only [operandLevel] at h
    obtain rfl : level = 0 := by omega
    rfl

theorem exists_of_head?_spelling {ts : List Spotted} {c : Char} {t : Token} (hts : Genuine ts)
    (h : c ∈ (spelling ts).head?) (hc : Token.ofChar? c = some t) :
    ∃ position rest, ts = ⟨t, position⟩ :: rest := by
  obtain ⟨cs, hcs⟩ := List.head?_eq_some_iff.mp h
  obtain ⟨position, rest, rfl, -⟩ := exists_of_spelling_cons hts hcs hc
  exact ⟨position, rest, rfl⟩

/-- No connective is left over that is read at the level of a formula that was read. -/
theorem level_lt_of_formulaAt {fuel level : Nat} {fresh : Bool} {ts rest : List Spotted} {f : Shape}
    {c : Connective} {position : Nat}
    (h : formulaAt fuel level fresh ts = .ok (f, ⟨.binary c, position⟩ :: rest)) :
    c.level < level := by
  induction fuel generalizing level fresh ts f with
  | zero => cases h
  | succ fuel ih =>
      by_cases hlevel : level < operandLevel
      · unfold formulaAt at h
        rw [if_pos hlevel] at h
        split at h
        · cases h
        · rename_i hl
          split at h
          · split at h
            · cases h
            · rename_i hr
              cases h
              exact ih hr
          · rename_i hc
            cases h
            have := ih hl
            omega
        · rename_i hne hl
          cases h
          exact absurd rfl (hne c position rest)
      · have htight : c.level < operandLevel := by cases c <;> decide
        omega

theorem stops_formula {fuel : Nat} {fresh : Bool} {ts rest : List Spotted} {f : Shape}
    (hrest : Genuine rest) (h : formulaAt fuel 0 fresh ts = .ok (f, rest)) :
    Phrase.formula.Stops (spelling rest) := by
  intro c ds hds
  obtain ⟨ch, hch, hop⟩ := Token.ofChar?_connective c
  rw [hch] at hds
  obtain ⟨position, us, rfl⟩ := exists_of_head?_spelling hrest (by rw [hds]; rfl) hop
  exact level_lt_of_formulaAt h

section

variable {fuel level : Nat} {fresh : Bool} {ts : List Spotted} {e : Halt}

/-- Reading with connectives halts in the first operand or after a connective. -/
theorem formulaAt_eq_error (hlevel : level < operandLevel)
    (h : formulaAt (fuel + 1) level fresh ts = .error e) :
    formulaAt fuel (level + 1) fresh ts = .error e ∨
    ∃ l c position rest, c.level = level ∧
      formulaAt fuel (level + 1) fresh ts = .ok (l, ⟨.binary c, position⟩ :: rest) ∧
      formulaAt fuel level false rest = .error e := by
  unfold formulaAt at h
  rw [if_pos hlevel] at h
  split at h
  · rename_i hl
    cases h
    exact .inl hl
  · rename_i l c position rest hl
    split at h
    · rename_i hc
      split at h
      · rename_i hr
        cases h
        exact .inr ⟨l, c, position, rest, hc, hl, hr⟩
      · cases h
    · cases h
  · cases h

/-- Reading an operand halts after a negation, in or after the formula of a group, or at once. -/
theorem formulaAt_operand_eq_error (h : formulaAt (fuel + 1) operandLevel fresh ts = .error e) :
    (∃ position rest, ts = ⟨.bang, position⟩ :: rest ∧
      formulaAt fuel operandLevel false rest = .error e) ∨
    (∃ position rest, ts = ⟨.lparen, position⟩ :: rest ∧
      (formulaAt fuel 0 true rest = .error e ∨ ∃ f, formulaAt fuel 0 true rest = .ok (f, e.rest) ∧
        ∀ position' vs, e.rest ≠ ⟨.rparen, position'⟩ :: vs)) ∨
    (e.rest = ts ∧
      ∀ s vs, ts = s :: vs → s.token ≠ .bang ∧ s.token ≠ .lparen ∧ ∀ n, s.token ≠ .var n) := by
  unfold formulaAt at h
  rw [if_neg (by decide)] at h
  split at h
  · rename_i position rest
    split at h
    · rename_i hread
      cases h
      exact .inl ⟨position, rest, rfl, hread⟩
    · cases h
  · cases h
  · rename_i position rest
    split at h
    · rename_i hread
      cases h
      exact .inr (.inl ⟨position, rest, rfl, .inl hread⟩)
    · cases h
    · rename_i f rest' hopen hread
      cases h
      exact .inr (.inl ⟨position, rest, rfl, .inr ⟨f, hread, hopen⟩⟩)
  · rename_i hbang hvar hlparen
    cases h
    refine .inr (.inr ⟨rfl, ?_⟩)
    rintro ⟨token, position⟩ vs rfl
    refine ⟨?_, ?_, fun n => ?_⟩
    · rintro rfl
      exact hbang position vs rfl
    · rintro rfl
      exact hlparen position vs rfl
    · rintro rfl
      exact hvar n position vs rfl

end

/-- A connective that a phrase takes in would have ended the operand. -/
theorem impasse_of_operand {fuel level : Nat} {fresh : Bool} {us : List Spotted} {e : Halt}
    (hts : Genuine (us ++ e.rest)) (hlevel : level < operandLevel)
    (hfuel : 5 * (us ++ e.rest).length + (5 - (level + 1)) ≤ fuel)
    (h : formulaAt fuel (level + 1) fresh (us ++ e.rest) = .error e)
    (himpasse : (Phrase.ofLevel (level + 1)).Impasse (spelling us) (spelling e.rest)) :
    (Phrase.ofLevel level).Impasse (spelling us) (spelling e.rest) := by
  have hq := Phrase.operand?_ofLevel hlevel
  have hp : (Phrase.ofLevel level).level = level := Phrase.level_ofLevel (Nat.le_of_lt hlevel)
  have hstep : (Phrase.ofLevel (level + 1)).level = level + 1 := Phrase.level_ofLevel hlevel
  refine himpasse.operand (by rwa [hp]) hq fun c cs ds l hc htext hl => ?_
  rw [← spelling_append] at htext
  obtain ⟨vs, position, ws, hvs, ⟨hgenuine, hcs⟩, -⟩ := exists_of_spelling_chain hts htext
  have hstops : (Phrase.ofLevel (level + 1)).Stops (spelling (⟨.binary c, position⟩ :: ws)) := by
    rw [spelling_connective]
    exact Phrase.stops_connective hq hc _
  rw [hvs, List.length_append] at hfuel
  have hread := formulaAt_of_derives hl hgenuine hcs _ hstops fuel (by omega) fresh
  rw [hstep, ← hvs, h] at hread
  cases hread

/-- A closing parenthesis would have ended the formula in a group. -/
theorem impasse_of_group {fuel : Nat} {us : List Spotted} {e : Halt}
    (hts : Genuine (us ++ e.rest)) (hfuel : 5 * (us ++ e.rest).length + 5 ≤ fuel)
    (h : formulaAt fuel 0 true (us ++ e.rest) = .error e)
    (himpasse : Phrase.formula.Impasse (spelling us) (spelling e.rest)) :
    Phrase.prefixed.Impasse ('(' :: spelling us) (spelling e.rest) := by
  refine himpasse.group fun hclosing t ht => ?_
  obtain ⟨position, vs, hvs⟩ := exists_of_head?_spelling hts.append.2 hclosing rfl
  rw [List.length_append] at hfuel
  have hread := formulaAt_of_derives ht hts.append.1 rfl (⟨.rparen, position⟩ :: vs)
    (Phrase.stops_closing _ (spelling vs)) fuel (by simp only [Phrase.level]; omega) true
  rw [← hvs] at hread
  cases hread.symm.trans h

/-- Reading halts where the phrase that was begun cannot go on. -/
theorem impasse_of_formulaAt {fuel level : Nat} {fresh : Bool} {ts : List Spotted} {e : Halt}
    (hts : Genuine ts) (hlevel : level ≤ operandLevel)
    (hfuel : 5 * ts.length + (5 - level) ≤ fuel)
    (h : formulaAt fuel level fresh ts = .error e) :
    ∃ us, ts = us ++ e.rest ∧ (Phrase.ofLevel level).Impasse (spelling us) (spelling e.rest) := by
  induction fuel generalizing level fresh ts with
  | zero =>
      simp only [operandLevel] at hlevel
      omega
  | succ fuel ih =>
      obtain hloose | rfl := Nat.lt_or_eq_of_le hlevel
      · obtain hl | ⟨l, c, position, rest, hc, hl, hr⟩ := formulaAt_eq_error hloose h
        · have hfuel' : 5 * ts.length + (5 - (level + 1)) ≤ fuel := by
            simp only [operandLevel] at hloose
            omega
          obtain ⟨us, rfl, himpasse⟩ := ih hts hloose hfuel' hl
          exact ⟨us, rfl, impasse_of_operand hts hloose hfuel' hl himpasse⟩
        · obtain ⟨us, t, rfl, ht, -⟩ := derives_of_formulaAt hts hl
          rw [List.length_append, List.length_cons] at hfuel
          obtain ⟨vs, rfl, himpasse⟩ :=
            ih (List.forall_mem_cons.mp hts.append.2).2 hlevel (by omega) hr
          refine ⟨us ++ ⟨.binary c, position⟩ :: vs, by simp, ?_⟩
          rw [spelling_chain]
          exact himpasse.chain (by rw [c.phrase_eq_ofLevel, hc]) (Phrase.operand?_ofLevel hloose) ht
      · obtain ⟨position, rest, rfl, hread⟩ | ⟨position, rest, rfl, hread⟩ | ⟨rfl, hfirst⟩ :=
          formulaAt_operand_eq_error h
        · rw [List.length_cons] at hfuel
          obtain ⟨us, rfl, himpasse⟩ := ih (List.forall_mem_cons.mp hts).2 hlevel (by omega) hread
          exact ⟨⟨.bang, position⟩ :: us, rfl, himpasse.negation⟩
        · have hrest : Genuine rest := (List.forall_mem_cons.mp hts).2
          simp only [List.length_cons, operandLevel] at hfuel
          obtain hread | ⟨f, hread, hopen⟩ := hread
          · obtain ⟨us, rfl, himpasse⟩ := ih hrest (Nat.zero_le _) (by omega) hread
            exact ⟨⟨.lparen, position⟩ :: us, rfl,
              impasse_of_group hrest (by omega) hread himpasse⟩
          · obtain ⟨us, t, rfl, ht, -⟩ := derives_of_formulaAt hrest hread
            have himpasse := Phrase.Impasse.of_derives ht (stops_formula hrest.append.2 hread)
            refine ⟨⟨.lparen, position⟩ :: us, rfl, himpasse.group fun hclosing => ?_⟩
            obtain ⟨position', vs, hvs⟩ := exists_of_head?_spelling hrest.append.2 hclosing rfl
            exact absurd hvs (hopen position' vs)
        · refine ⟨[], rfl, Phrase.opens_nil _, fun d hd hopens => ?_⟩
          obtain rfl | rfl | hletter := Phrase.opens_singleton hopens
          · obtain ⟨position, vs, hvs⟩ := exists_of_head?_spelling hts hd rfl
            exact (hfirst _ _ hvs).1 rfl
          · obtain ⟨position, vs, hvs⟩ := exists_of_head?_spelling hts hd rfl
            exact (hfirst _ _ hvs).2.1 rfl
          · obtain ⟨position, vs, hvs⟩ :=
              exists_of_head?_spelling hts hd (Token.ofChar?_letter hletter)
            exact (hfirst _ _ hvs).2.2 _ rfl

/-! ### Positions in a text -/

theorem utf8ByteSize_cons (c : Char) (cs : List Char) :
    (String.ofList (c :: cs)).utf8ByteSize = c.utf8Size + (String.ofList cs).utf8ByteSize := by
  have hcons : String.ofList (c :: cs) = String.singleton c ++ String.ofList cs := by
    rw [String.singleton_eq_ofList, ← String.ofList_append, List.singleton_append]
  rw [hcons, String.utf8ByteSize_append, String.utf8ByteSize_singleton]

/-- A character that is not blank stands at a byte offset of a text, after the characters
`before`. -/
def StandsAt (src : String) (p : Nat) (before : List Char) (c : Char) : Prop :=
  (String.ofList before).utf8ByteSize = p ∧ Text.isBlank c = false ∧
    ∃ after, src.toList = before ++ c :: after

theorem StandsAt.lt {src : String} {p : Nat} {before : List Char} {c : Char}
    (h : StandsAt src p before c) : p < src.utf8ByteSize := by
  obtain ⟨rfl, -, after, hsrc⟩ := h
  rw [← String.ofList_toList (s := src), hsrc, String.ofList_append, String.utf8ByteSize_append,
    utf8ByteSize_cons]
  have := c.utf8Size_pos
  omega

theorem StandsAt.unique {src : String} {p : Nat} {before before' : List Char} {c c' : Char}
    (h : StandsAt src p before c) (h' : StandsAt src p before' c') : before = before' ∧ c = c' := by
  obtain ⟨hsize, -, after, hsrc⟩ := h
  obtain ⟨hsize', -, after', hsrc'⟩ := h'
  have hlonger (xs : List Char) (d : Char) (ds : List Char) :
      (String.ofList xs).utf8ByteSize < (String.ofList (xs ++ d :: ds)).utf8ByteSize := by
    rw [String.ofList_append, String.utf8ByteSize_append, utf8ByteSize_cons]
    have := d.utf8Size_pos
    omega
  obtain ⟨xs, rfl, hxs⟩ | ⟨xs, rfl, hxs⟩ := List.append_eq_append_iff.mp (hsrc.symm.trans hsrc')
  · cases xs with
    | nil => exact ⟨(List.append_nil _).symm, (List.cons.inj hxs).1⟩
    | cons d ds =>
        have := hlonger before d ds
        omega
  · cases xs with
    | nil => exact ⟨List.append_nil _, (List.cons.inj hxs).1.symm⟩
    | cons d ds =>
        have := hlonger before' d ds
        omega

/-- A token stands where the tokens before it end. -/
theorem exists_of_tokens {position : Nat} {cs : List Char} {us vs : List Spotted} {s : Spotted}
    (h : tokens position cs = .ok (us ++ s :: vs)) :
    ∃ before c after, cs = before ++ c :: after ∧ inked before = spelling us ∧
      Text.isBlank c = false ∧ Token.ofChar? c = some s.token ∧
      s.position = position + (String.ofList before).utf8ByteSize := by
  induction cs generalizing position us with
  | nil => simp [tokens] at h
  | cons c cs ih =>
      obtain ⟨hblank, h⟩ | ⟨hblank, t, ts, ht, h, hts⟩ := tokens_cons_cases h
      · obtain ⟨before, d, after, rfl, hus, hd, htoken, hposition⟩ := ih h
        refine ⟨c :: before, d, after, rfl, ?_, hd, htoken, ?_⟩
        · simpa [inked, hblank] using hus
        · rw [hposition, utf8ByteSize_cons, Nat.add_assoc]
      · cases us with
        | nil =>
            obtain ⟨rfl, -⟩ := List.cons.inj hts
            exact ⟨[], c, cs, rfl, rfl, hblank, ht, rfl⟩
        | cons u us =>
            obtain ⟨rfl, rfl⟩ := List.cons.inj hts
            obtain ⟨before, d, after, rfl, hus, hd, htoken, hposition⟩ := ih h
            refine ⟨c :: before, d, after, rfl, ?_, hd, htoken, ?_⟩
            · have hchar := (Token.ofChar?_eq_some ht).1
              simpa [inked, spelling, hblank, hchar] using hus
            · rw [hposition, utf8ByteSize_cons, Nat.add_assoc]

/-! ### Whole texts -/

/-- The tokens of a text that is not a formula begin one up to the point where reading halts. They
do so properly: they are not a formula themselves. -/
theorem impasse_of_wholeFormula {ts : List Spotted} {e : Halt} (hts : Genuine ts)
    (h : wholeFormula ts = .error e) :
    (∃ us, ts = us ++ e.rest ∧ Phrase.formula.Impasse (spelling us) (spelling e.rest)) ∧
      ∀ t, ¬Derives .formula (spelling ts) t := by
  refine ⟨?_, fun t ht => ?_⟩
  · unfold wholeFormula at h
    split at h
    · rename_i hread
      cases h
      refine impasse_of_formulaAt hts (Nat.zero_le _) ?_ hread
      simp only [depthBound, operandLevel]
      omega
    · cases h
    · rename_i hread
      cases h
      obtain ⟨us, t, rfl, ht, -⟩ := derives_of_formulaAt hts hread
      exact ⟨us, rfl, .of_derives ht (stops_formula hts.append.2 hread)⟩
  · have hread := formulaAt_of_derives ht hts rfl [] (Phrase.stops_nil _) (depthBound ts.length)
      (by simp only [depthBound, operandLevel, Phrase.level]; omega) true
    rw [List.append_nil] at hread
    cases (wholeFormula_eq_ok.mpr hread).symm.trans h

theorem checkStructure_ne_unexpected (opened : List Nat) (afterBinary : Bool) (ts : List Spotted)
    (p : Nat) (found : Option Token) (expected : Expectation) :
    checkStructure opened afterBinary ts ≠ .error (.unexpected p found expected) := by
  fun_induction checkStructure opened afterBinary ts <;> simp_all

/-- A text with an unexpected token passes every stage but the last. -/
theorem exists_of_parse_eq_unexpected {src : String} {p : Nat} {found : Option Token}
    {expected : Expectation} (h : parse src = .error (.unexpected p found expected)) :
    ∃ ts e, tokens 0 src.toList = .ok ts ∧ wholeFormula ts = .error e ∧
      e.toError src.utf8ByteSize = .unexpected p found expected := by
  unfold parse at h
  dsimp only at h
  split at h
  · cases h
  split at h
  · cases h
  rename_i ts htokens
  split at h
  · rename_i hcheck
    cases h
    exact (checkStructure_ne_unexpected _ _ _ _ _ _ hcheck).elim
  split at h
  · rename_i e hwhole
    exact ⟨ts, e, htokens, hwhole, Except.error.inj h⟩
  · cases h

/-- An unexpected token is the first that is impossible. If the error is at a character, then the
text before it begins a formula, and together with the character it does not. If the error is at the
end, then the whole text begins a formula properly. There is no other place for it. -/
theorem unexpected_token_impossible {src : String} {p : Nat} {found : Option Token}
    {expected : Expectation} (h : parse src = .error (.unexpected p found expected)) :
    (∀ before c, StandsAt src p before c → found = Token.ofChar? c ∧
      Phrase.formula.Opens (inked before) ∧ ¬Phrase.formula.Opens (inked before ++ [c])) ∧
    (p = src.utf8ByteSize → found = none ∧
      (∃ ds t, ds ≠ [] ∧ Derives .formula (inked src.toList ++ ds) t) ∧
      ∀ t, ¬Derives .formula (inked src.toList) t) ∧
    ((∃ before c, StandsAt src p before c) ∨ p = src.utf8ByteSize) := by
  obtain ⟨ts, e, htokens, hwhole, herror⟩ := exists_of_parse_eq_unexpected h
  obtain ⟨hspelling, hgenuine⟩ := tokens_eq_ok htokens
  obtain ⟨⟨us, rfl, hopens, hstuck⟩, hnone⟩ := impasse_of_wholeFormula hgenuine hwhole
  unfold Halt.toError at herror
  cases hrest : e.rest with
  | nil =>
      rw [hrest] at herror
      rw [hrest, List.append_nil] at hspelling hnone
      cases herror
      rw [hspelling] at hopens hnone
      obtain ⟨ds, t, ht⟩ := hopens
      refine ⟨fun before c hat => absurd hat.lt (Nat.lt_irrefl _),
        fun _ => ⟨rfl, ⟨ds, t, ?_, ht⟩, hnone⟩, .inr rfl⟩
      rintro rfl
      rw [List.append_nil] at ht
      exact hnone t ht
  | cons s vs =>
      rw [hrest] at herror htokens hstuck
      cases herror
      obtain ⟨before, c, after, hsrc, hbefore, hblank, hc, hposition⟩ := exists_of_tokens htokens
      have hat : StandsAt src s.position before c :=
        ⟨by rw [hposition, Nat.zero_add], hblank, after, hsrc⟩
      refine ⟨fun before' c' hat' => ?_, fun hend => absurd hat.lt (Nat.not_lt_of_ge hend.ge),
        .inl ⟨before, c, hat⟩⟩
      obtain ⟨rfl, rfl⟩ := hat.unique hat'
      refine ⟨hc.symm, ?_⟩
      rw [hbefore, ← (Token.ofChar?_eq_some hc).1]
      exact ⟨hopens, hstuck _ rfl⟩

/-- An operand without a connective, after a blank of two bytes, and a missing operand. -/
theorem unexpected_token_impossible_nested :
    parse "a>(b*!c\u00a0d)|e" = .error (.unexpected 9 (some (.var 4)) .closing) ∧
    Phrase.formula.Opens "a>(b*!c".toList ∧ ¬Phrase.formula.Opens "a>(b*!cd".toList ∧
    parse "(a>b)=" = .error (.unexpected 6 none .operand) ∧
    (∃ ds t, ds ≠ [] ∧ Derives .formula ("(a>b)=".toList ++ ds) t) ∧
    ∀ t, ¬Derives .formula "(a>b)=".toList t := by
  have hmiddle : parse "a>(b*!c\u00a0d)|e" = .error (.unexpected 9 (some (.var 4)) .closing) := by
    decide
  have hend : parse "(a>b)=" = .error (.unexpected 6 none .operand) := by decide
  have hat : StandsAt "a>(b*!c\u00a0d)|e" 9 "a>(b*!c\u00a0".toList 'd' :=
    ⟨by decide, by decide, ")|e".toList, by decide⟩
  obtain ⟨-, hopens, hstuck⟩ := (unexpected_token_impossible hmiddle).1 _ _ hat
  obtain ⟨-, hopened, hnone⟩ := (unexpected_token_impossible hend).2.1 (by decide)
  exact ⟨hmiddle, hopens, hstuck, hend, hopened, hnone⟩

end Detachment

import Detachment.Proofs.Grammar
import Detachment.Proofs.Unification

/-!
# Reading a text

The reader accepts exactly the texts that the grammar derives once blanks are dropped, and stores
the formula of the derivation. The tokens of a text are its characters that are not blank, so both
directions follow the reader down the tokens: what it takes in, the grammar derives, and what the
grammar derives, it takes in, provided that no connective follows that it would go on with. The
check for parentheses and adjacent operators lets every such text pass.
-/
namespace Detachment

open Reading

/-- The characters of a text that are not blank. -/
def inked (cs : List Char) : List Char :=
  cs.filter fun c => !Text.isBlank c

/-! ### Tokens and characters -/

namespace Token

/-- The character that a token is written as. -/
def char : Token → Char
  | lparen => '('
  | rparen => ')'
  | bang => '!'
  | binary .implication => '>'
  | binary .disjunction => '|'
  | binary .conjunction => '*'
  | binary .xor => '+'
  | binary .equivalence => '='
  | var n => Char.ofNat ('a'.toNat + (n - 1))

variable {c : Char} {t : Token}

theorem ofChar?_letter (h : 'a' ≤ c ∧ c ≤ 'z') : ofChar? c = some (var (letterNumber c)) := by
  unfold ofChar?
  split
  case h_9 => exact if_pos h
  all_goals exact absurd h (by decide)

theorem ofChar?_eq_some (h : ofChar? c = some t) :
    t.char = c ∧ ∀ n, t = var n → ('a' ≤ c ∧ c ≤ 'z') ∧ letterNumber c = n := by
  unfold ofChar? at h
  split at h
  case h_9 =>
    split at h
    · rename_i hc
      obtain rfl := Option.some.inj h
      refine ⟨?_, fun n hn => ⟨hc, Token.var.inj hn⟩⟩
      have hlow : 'a'.toNat ≤ c.toNat := hc.1
      rw [char, show 'a'.toNat + (c.toNat - 'a'.toNat + 1 - 1) = c.toNat by omega, Char.ofNat_toNat]
    · cases h
  all_goals
    obtain rfl := Option.some.inj h
    exact ⟨rfl, nofun⟩

theorem ofChar?_connective (c : Connective) :
    ∃ ch, c.symbol.toList = [ch] ∧ ofChar? ch = some (binary c) := by
  cases c <;> exact ⟨_, rfl, rfl⟩

end Token

/-- The characters of tokens. -/
def spelling (ts : List Spotted) : List Char :=
  ts.map (·.token.char)

/-- Every token is one that its character is read as. -/
def Genuine (ts : List Spotted) : Prop :=
  ∀ s ∈ ts, Token.ofChar? s.token.char = some s.token

theorem tokens_cons_cases {position : Nat} {c : Char} {cs : List Char} {ts : List Spotted}
    (h : tokens position (c :: cs) = .ok ts) :
    (Text.isBlank c = true ∧ tokens (position + c.utf8Size) cs = .ok ts) ∨
    (Text.isBlank c = false ∧ ∃ t rest, Token.ofChar? c = some t ∧
      tokens (position + c.utf8Size) cs = .ok rest ∧ ts = ⟨t, position⟩ :: rest) := by
  rw [tokens] at h
  cases hblank : Text.isBlank c with
  | true =>
      rw [hblank, if_pos rfl] at h
      exact .inl ⟨rfl, h⟩
  | false =>
      rw [hblank, if_neg (by decide)] at h
      cases hc : Token.ofChar? c with
      | none => simp [hc] at h
      | some t =>
          cases hrest : tokens (position + c.utf8Size) cs with
          | error s => simp [hc, hrest, Except.map] at h
          | ok rest =>
              simp only [hc, hrest, Except.map, Except.ok.injEq] at h
              exact .inr ⟨rfl, t, rest, rfl, rfl, h.symm⟩

theorem tokens_eq_ok {position : Nat} {cs : List Char} {ts : List Spotted}
    (h : tokens position cs = .ok ts) : spelling ts = inked cs ∧ Genuine ts := by
  induction cs generalizing position ts with
  | nil =>
      cases h
      exact ⟨rfl, by simp [Genuine]⟩
  | cons c cs ih =>
      obtain ⟨hblank, hrest⟩ | ⟨hblank, t, rest, hc, hrest, rfl⟩ := tokens_cons_cases h
      · simpa [inked, hblank] using ih hrest
      · obtain ⟨hspelling, hgenuine⟩ := ih hrest
        have hchar := (Token.ofChar?_eq_some hc).1
        refine ⟨?_, ?_⟩
        · simpa [spelling, inked, hblank, hchar] using hspelling
        · refine List.forall_mem_cons.mpr ⟨?_, hgenuine⟩
          rw [hchar]
          exact hc

theorem exists_tokens {cs : List Char} (h : ∀ c ∈ inked cs, (Token.ofChar? c).isSome = true)
    (position : Nat) : ∃ ts, tokens position cs = .ok ts := by
  induction cs generalizing position with
  | nil => exact ⟨[], rfl⟩
  | cons c cs ih =>
      rw [tokens]
      cases hblank : Text.isBlank c with
      | true =>
          rw [if_pos rfl]
          exact ih (by simpa [inked, hblank] using h) _
      | false =>
          rw [if_neg (by decide)]
          simp only [inked, List.filter_cons, hblank, Bool.not_false, if_true,
            List.forall_mem_cons] at h
          obtain ⟨t, ht⟩ := Option.isSome_iff_exists.mp h.1
          obtain ⟨ts, hts⟩ := ih h.2 (position + c.utf8Size)
          exact ⟨⟨t, position⟩ :: ts, by simp [ht, hts, Except.map]⟩

theorem Genuine.append {ts us : List Spotted} (h : Genuine (ts ++ us)) :
    Genuine ts ∧ Genuine us :=
  List.forall_mem_append.mp h

/-- The tokens of a text that begins with a given character. -/
theorem exists_of_spelling_cons {ts : List Spotted} {c : Char} {cs : List Char} {t : Token}
    (hts : Genuine ts) (h : spelling ts = c :: cs) (hc : Token.ofChar? c = some t) :
    ∃ position rest, ts = ⟨t, position⟩ :: rest ∧ Genuine rest ∧ spelling rest = cs := by
  cases ts with
  | nil => cases h
  | cons s rest =>
      obtain ⟨rfl, hrest⟩ := List.cons.inj h
      obtain ⟨hs, hgenuine⟩ := List.forall_mem_cons.mp hts
      obtain ⟨token, position⟩ := s
      obtain rfl : token = t := Option.some.inj (hs.symm.trans hc)
      exact ⟨position, rest, rfl, hgenuine, hrest⟩

theorem exists_of_spelling_append {ts : List Spotted} {cs ds : List Char} (hts : Genuine ts)
    (h : spelling ts = cs ++ ds) :
    ∃ us vs, ts = us ++ vs ∧ (Genuine us ∧ spelling us = cs) ∧ Genuine vs ∧ spelling vs = ds := by
  obtain ⟨us, vs, rfl, hus, hvs⟩ := List.map_eq_append_iff.mp h
  exact ⟨us, vs, rfl, ⟨hts.append.1, hus⟩, hts.append.2, hvs⟩

theorem exists_of_spelling_group {ts : List Spotted} {cs : List Char} (hts : Genuine ts)
    (h : spelling ts = '(' :: (cs ++ [')'])) :
    ∃ position us position', ts = ⟨.lparen, position⟩ :: (us ++ [⟨.rparen, position'⟩]) ∧
      Genuine us ∧ spelling us = cs := by
  obtain ⟨position, inner, rfl, hinner, hspell⟩ := exists_of_spelling_cons hts h rfl
  obtain ⟨us, vs, rfl, ⟨hus, hcs⟩, hvs, hclose⟩ := exists_of_spelling_append hinner hspell
  obtain ⟨position', ws, rfl, -, hws⟩ := exists_of_spelling_cons hvs hclose rfl
  obtain rfl := List.map_eq_nil_iff.mp hws
  exact ⟨position, us, position', rfl, hus, hcs⟩

theorem exists_of_spelling_chain {ts : List Spotted} {c : Connective} {cs ds : List Char}
    (hts : Genuine ts) (h : spelling ts = cs ++ c.symbol.toList ++ ds) :
    ∃ us position vs, ts = us ++ ⟨.binary c, position⟩ :: vs ∧
      (Genuine us ∧ spelling us = cs) ∧ Genuine vs ∧ spelling vs = ds := by
  obtain ⟨ch, hch, hop⟩ := Token.ofChar?_connective c
  rw [hch, List.append_assoc] at h
  obtain ⟨us, vs, rfl, hus, hvs, hspell⟩ := exists_of_spelling_append hts h
  obtain ⟨position, ws, rfl, hws⟩ := exists_of_spelling_cons hvs hspell hop
  exact ⟨us, position, ws, rfl, hus, hws⟩

theorem spelling_connective (c : Connective) (position : Nat) (rest : List Spotted) :
    spelling (⟨.binary c, position⟩ :: rest) = c.symbol.toList ++ spelling rest := by
  cases c <;> rfl

theorem spelling_append (us vs : List Spotted) :
    spelling (us ++ vs) = spelling us ++ spelling vs :=
  List.map_append

theorem spelling_chain (us : List Spotted) (c : Connective) (position : Nat) (vs : List Spotted) :
    spelling (us ++ ⟨.binary c, position⟩ :: vs) =
      spelling us ++ c.symbol.toList ++ spelling vs := by
  rw [List.append_assoc, ← spelling_connective, spelling_append]

/-! ### What the grammar derives is read -/

/-- A text that the grammar derives passes the check, whatever precedes it. -/
theorem checkStructure_of_derives {p : Phrase} {cs : List Char} {t : Sentence}
    (h : Derives p cs t) {ts : List Spotted} (hts : Genuine ts) (hcs : spelling ts = cs)
    (opened : List Nat) (afterBinary : Bool) (rest : List Spotted) :
    checkStructure opened afterBinary (ts ++ rest) = checkStructure opened false rest := by
  induction h generalizing ts opened afterBinary rest with
  | letter h =>
      obtain ⟨position, us, rfl, -, hus⟩ :=
        exists_of_spelling_cons hts hcs (Token.ofChar?_letter h)
      obtain rfl := List.map_eq_nil_iff.mp hus
      cases opened <;> rfl
  | group h ih =>
      obtain ⟨position, us, position', rfl, hus, hinner⟩ := exists_of_spelling_group hts hcs
      rw [List.cons_append, List.append_assoc, checkStructure, ih hus hinner]
      rfl
  | negation h ih =>
      obtain ⟨position, us, rfl, hus, hspell⟩ := exists_of_spelling_cons hts hcs rfl
      rw [List.cons_append, ← ih hus hspell opened false rest]
      cases opened <;> rfl
  | single hq h ih => exact ih hts hcs opened afterBinary rest
  | @chain p q c cs ds l r hc hq hl hr ihl ihr =>
      obtain ⟨us, position, vs, rfl, ⟨hus, hl⟩, hvs, hr⟩ := exists_of_spelling_chain hts hcs
      rw [List.append_assoc, ihl hus hl, ← ihr hvs hr opened true rest]
      cases opened <;> rfl

/-- No connective follows that is read at the level of a phrase that stops. -/
theorem Phrase.Stops.level_lt {p : Phrase} {c : Connective} {position : Nat} {rest : List Spotted}
    (h : p.Stops (spelling (⟨.binary c, position⟩ :: rest))) : c.level < p.level := by
  rw [spelling_connective] at h
  exact h c _ rfl

/-- Operands are read one level up, except that a negation and an atom are read alike. -/
theorem Phrase.level_operand? {p q : Phrase} (hq : p.operand? = some q) :
    (p = .prefixed ∧ q = .atom) ∨ (p.level < operandLevel ∧ q.level = p.level + 1) := by
  cases p <;> cases hq <;> decide

section

variable {fuel level : Nat} {fresh : Bool} {ts rest : List Spotted} {l r : Shape}

theorem formulaAt_single (hlevel : level < operandLevel)
    (h : formulaAt fuel (level + 1) fresh ts = .ok (l, rest))
    (hrest : ∀ c position us, rest = ⟨.binary c, position⟩ :: us → c.level ≠ level) :
    formulaAt (fuel + 1) level fresh ts = .ok (l, rest) := by
  unfold formulaAt
  rw [if_pos hlevel, h]
  split
  · cases ‹_›
  · rename_i heq
    obtain ⟨rfl, rfl⟩ := Prod.mk.inj (Except.ok.inj heq)
    rw [if_neg (hrest _ _ _ rfl)]
  · rename_i heq
    exact heq.symm

theorem formulaAt_negation {position : Nat}
    (h : formulaAt fuel operandLevel false ts = .ok (l, rest)) :
    formulaAt (fuel + 1) operandLevel fresh (⟨.bang, position⟩ :: ts) = .ok (l.negate, rest) := by
  unfold formulaAt
  rw [if_neg (by decide)]
  simp only [h]

theorem formulaAt_group {position position' : Nat}
    (h : formulaAt fuel 0 true ts = .ok (l, ⟨.rparen, position'⟩ :: rest)) :
    formulaAt (fuel + 1) operandLevel fresh (⟨.lparen, position⟩ :: ts) = .ok (l, rest) := by
  unfold formulaAt
  rw [if_neg (by decide)]
  simp only [h]

theorem formulaAt_chain {c : Connective} {position : Nat} {us : List Spotted}
    (hlevel : level < operandLevel) (hc : c.level = level)
    (hl : formulaAt fuel (level + 1) fresh ts = .ok (l, ⟨.binary c, position⟩ :: us))
    (hr : formulaAt fuel level false us = .ok (r, rest)) :
    formulaAt (fuel + 1) level fresh ts = .ok (.node () c l r, rest) := by
  unfold formulaAt
  rw [if_pos hlevel, hl]
  simp only [hc, if_true, hr]

end

/-- A phrase is read in full, and with it what it is made of, if no connective follows that it would
have taken in. Between two tokens each level is entered at most once. -/
theorem formulaAt_of_derives {p : Phrase} {cs : List Char} {t : Sentence} (h : Derives p cs t)
    {ts : List Spotted} (hts : Genuine ts) (hcs : spelling ts = cs) (rest : List Spotted)
    (hrest : p.Stops (spelling rest)) (fuel : Nat)
    (hfuel : 5 * ts.length + (5 - p.level) ≤ fuel) (fresh : Bool) :
    formulaAt fuel p.level fresh (ts ++ rest) = .ok (t.shape, rest) := by
  induction h generalizing ts rest fuel fresh with
  | letter h =>
      obtain ⟨position, us, rfl, -, hus⟩ :=
        exists_of_spelling_cons hts hcs (Token.ofChar?_letter h)
      obtain rfl := List.map_eq_nil_iff.mp hus
      simp only [List.length_cons] at hfuel
      obtain ⟨fuel, rfl⟩ := Nat.exists_eq_add_of_le' (Nat.le_trans (by omega) hfuel : 1 ≤ fuel)
      rfl
  | group h ih =>
      obtain ⟨position, us, position', rfl, hus, hinner⟩ := exists_of_spelling_group hts hcs
      simp only [List.length_cons, List.length_append, List.length_nil] at hfuel
      obtain ⟨fuel, rfl⟩ := Nat.exists_eq_add_of_le' (Nat.le_trans (by omega) hfuel : 1 ≤ fuel)
      have hread := ih hus hinner (⟨.rparen, position'⟩ :: rest)
        (Phrase.stops_closing _ (spelling rest)) fuel (by simp only [Phrase.level]; omega) true
      rw [List.cons_append, List.append_assoc]
      exact formulaAt_group hread
  | negation h ih =>
      obtain ⟨position, us, rfl, hus, hspell⟩ := exists_of_spelling_cons hts hcs rfl
      simp only [List.length_cons] at hfuel
      obtain ⟨fuel, rfl⟩ := Nat.exists_eq_add_of_le' (Nat.le_trans (by omega) hfuel : 1 ≤ fuel)
      have hread := ih hus hspell rest hrest fuel (by omega) false
      exact formulaAt_negation hread
  | @single p q cs t hq h ih =>
      obtain ⟨rfl, rfl⟩ | ⟨hlevel, hstep⟩ := Phrase.level_operand? hq
      · exact ih hts hcs rest (hrest.operand hq) fuel hfuel fresh
      · simp only [operandLevel] at hlevel
        obtain ⟨fuel, rfl⟩ := Nat.exists_eq_add_of_le' (Nat.le_trans (by omega) hfuel : 1 ≤ fuel)
        have hread := ih hts hcs rest (hrest.operand hq) fuel (by omega) fresh
        rw [hstep] at hread
        refine formulaAt_single hlevel hread ?_
        rintro c position us rfl
        exact Nat.ne_of_lt hrest.level_lt
  | @chain p q c cs ds l r hc hq hl hr ihl ihr =>
      obtain ⟨us, position, vs, rfl, ⟨hus, hl⟩, hvs, hr⟩ := exists_of_spelling_chain hts hcs
      have hlt := Phrase.level_lt_of_operand? hq hc
      obtain ⟨rfl, rfl⟩ | ⟨hlevel, hstep⟩ := Phrase.level_operand? hq
      · exact absurd hlt (by decide)
      · simp only [operandLevel] at hlevel
        simp only [List.length_cons, List.length_append] at hfuel
        obtain ⟨fuel, rfl⟩ := Nat.exists_eq_add_of_le' (Nat.le_trans (by omega) hfuel : 1 ≤ fuel)
        have hstops : q.Stops (spelling (⟨.binary c, position⟩ :: (vs ++ rest))) := by
          rw [spelling_connective]
          exact Phrase.stops_connective hq hc _
        have hleft := ihl hus hl _ hstops fuel (by omega) fresh
        have hright := ihr hvs hr rest hrest fuel (by omega) false
        rw [hstep] at hleft
        rw [List.append_assoc]
        exact formulaAt_chain hlevel (by rw [← hc, c.level_phrase]) hleft hright

/-! ### What is read, the grammar derives -/

/-- The phrase that is read at a level. -/
def Phrase.ofLevel : Nat → Phrase
  | 0 => .formula
  | 1 => .parity
  | 2 => .disjunction
  | 3 => .conjunction
  | _ => .prefixed

theorem Phrase.operand?_ofLevel {level : Nat} (h : level < operandLevel) :
    (Phrase.ofLevel level).operand? = some (Phrase.ofLevel (level + 1)) := by
  obtain _ | _ | _ | _ | level := level
  · rfl
  · rfl
  · rfl
  · rfl
  · simp only [operandLevel] at h
    omega

theorem Phrase.ofLevel_of_le {level : Nat} (h : operandLevel ≤ level) :
    Phrase.ofLevel level = .prefixed := by
  obtain ⟨k, rfl⟩ := Nat.exists_eq_add_of_le' h
  rfl

theorem Connective.phrase_eq_ofLevel (c : Connective) : c.phrase = Phrase.ofLevel c.level := by
  cases c <;> rfl

theorem derives_of_formulaAt {fuel level : Nat} {fresh : Bool} {ts rest : List Spotted} {f : Shape}
    (hts : Genuine ts) (h : formulaAt fuel level fresh ts = .ok (f, rest)) :
    ∃ us t, ts = us ++ rest ∧ Derives (.ofLevel level) (spelling us) t ∧ t.shape = f := by
  induction fuel generalizing level fresh ts rest f with
  | zero => cases h
  | succ fuel ih =>
      unfold formulaAt at h
      split at h
      · rename_i hlevel
        have hq := Phrase.operand?_ofLevel hlevel
        split at h
        · cases h
        · rename_i l c position rest₁ hl
          obtain ⟨us, t, rfl, ht, rfl⟩ := ih hts hl
          split at h
          · rename_i hc
            split at h
            · cases h
            · rename_i r rest₂ hr
              cases h
              obtain ⟨vs, t', rfl, ht', rfl⟩ := ih (List.forall_mem_cons.mp hts.append.2).2 hr
              refine ⟨us ++ ⟨.binary c, position⟩ :: vs, .binary c t t', by simp, ?_, rfl⟩
              rw [spelling_chain]
              exact .chain (by rw [c.phrase_eq_ofLevel, hc]) hq ht ht'
          · cases h
            exact ⟨us, t, rfl, .single hq ht, rfl⟩
        · rename_i hl
          cases h
          obtain ⟨us, t, rfl, ht, rfl⟩ := ih hts hl
          exact ⟨us, t, rfl, .single hq ht, rfl⟩
      · rename_i hlevel
        have hphrase := Phrase.ofLevel_of_le (Nat.le_of_not_lt hlevel)
        split at h
        · rename_i position rest₁
          split at h
          · cases h
          · rename_i g rest₂ hread
            cases h
            obtain ⟨us, t, rfl, ht, rfl⟩ := ih (List.forall_mem_cons.mp hts).2 hread
            rw [hphrase] at ht ⊢
            exact ⟨⟨.bang, position⟩ :: us, .negation t, rfl, .negation ht, rfl⟩
        · rename_i n position rest₁
          cases h
          obtain ⟨hletter, hn⟩ := (Token.ofChar?_eq_some (List.forall_mem_cons.mp hts).1).2 n rfl
          refine ⟨[⟨.var n, position⟩], .letter (Token.var n).char, rfl, ?_, ?_⟩
          · rw [hphrase]
            exact .single rfl (.letter hletter)
          · rw [Sentence.shape, hn]
        · rename_i position rest₁
          split at h
          · cases h
          · rename_i g position' rest₂ hread
            cases h
            obtain ⟨us, t, rfl, ht, rfl⟩ := ih (List.forall_mem_cons.mp hts).2 hread
            refine ⟨⟨.lparen, position⟩ :: (us ++ [⟨.rparen, position'⟩]), .group t, by simp, ?_,
              rfl⟩
            rw [hphrase]
            have hspell : spelling (⟨.lparen, position⟩ :: (us ++ [⟨.rparen, position'⟩])) =
                '(' :: (spelling us ++ [')']) := by
              simp [spelling, Token.char]
            rw [hspell]
            exact .single rfl (.group ht)
          · cases h
        · cases h

/-! ### Whole texts -/

theorem wholeFormula_eq_ok {ts : List Spotted} {f : Shape} :
    wholeFormula ts = .ok f ↔ formulaAt (depthBound ts.length) 0 true ts = .ok (f, []) := by
  unfold wholeFormula
  split
  · rename_i e h
    simp [h]
  · rename_i t h
    simp [h]
  · rename_i t rest hne h
    simp only [h, Except.ok.injEq, Prod.mk.injEq]
    exact ⟨nofun, fun h' => absurd h'.2 hne⟩

/-- A text that is read passes every stage. -/
theorem parse_eq_ok {src : String} {e : Formula Nat} :
    parse src = .ok e ↔ src.toList.all Text.isBlank = false ∧ ∃ ts f, tokens 0 src.toList = .ok ts ∧
      checkStructure [] false ts = .ok () ∧ wholeFormula ts = .ok f ∧ e = f.place := by
  constructor
  · intro h
    unfold parse at h
    dsimp only at h
    split at h
    · cases h
    · rename_i hblank
      split at h
      · cases h
      · rename_i ts htokens
        split at h
        · cases h
        · rename_i hcheck
          split at h
          · cases h
          · rename_i f hwhole
            cases h
            exact ⟨by rwa [Bool.not_eq_true] at hblank, ts, f, htokens, hcheck, hwhole, rfl⟩
  · rintro ⟨hblank, ts, f, htokens, hcheck, hwhole, rfl⟩
    unfold parse
    simp only [hblank, htokens, hcheck, hwhole, Bool.false_eq_true, if_false]

theorem Derives.isSome_ofChar? {p : Phrase} {cs : List Char} {t : Sentence} (h : Derives p cs t) :
    ∀ c ∈ cs, (Token.ofChar? c).isSome = true := by
  induction h with
  | letter h => simp [Token.ofChar?_letter h]
  | group h ih =>
      rw [List.forall_mem_cons, List.forall_mem_append]
      exact ⟨rfl, ih, List.forall_mem_singleton.mpr rfl⟩
  | negation h ih => exact List.forall_mem_cons.mpr ⟨rfl, ih⟩
  | single hq h ih => exact ih
  | @chain p q c cs ds l r hc hq hl hr ihl ihr =>
      obtain ⟨ch, hch, hop⟩ := Token.ofChar?_connective c
      rw [hch, List.append_assoc, List.forall_mem_append, List.cons_append, List.forall_mem_cons]
      exact ⟨ihl, by simp [hop], ihr⟩

theorem Derives.ne_nil {p : Phrase} {cs : List Char} {t : Sentence} (h : Derives p cs t) :
    cs ≠ [] := by
  induction h with
  | letter h => exact List.cons_ne_nil _ _
  | group h ih => exact List.cons_ne_nil _ _
  | negation h ih => exact List.cons_ne_nil _ _
  | single hq h ih => exact ih
  | chain hc hq hl hr ihl ihr => simp [ihr]

/-- What the grammar derives is read. -/
theorem Derives.exists_tokens {src : String} {t : Sentence}
    (h : Derives .formula (inked src.toList) t) :
    ∃ ts, tokens 0 src.toList = .ok ts ∧ checkStructure [] false ts = .ok () ∧
      wholeFormula ts = .ok t.shape := by
  obtain ⟨ts, htokens⟩ := Detachment.exists_tokens h.isSome_ofChar? 0
  obtain ⟨hspelling, hgenuine⟩ := tokens_eq_ok htokens
  refine ⟨ts, htokens, ?_, wholeFormula_eq_ok.mpr ?_⟩
  · have hcheck := checkStructure_of_derives h hgenuine hspelling [] false []
    rwa [List.append_nil] at hcheck
  · have hread := formulaAt_of_derives h hgenuine hspelling [] (Phrase.stops_nil _)
      (depthBound ts.length) (by simp only [depthBound, operandLevel, Phrase.level]; omega) true
    rwa [List.append_nil] at hread

theorem parse_of_derives {src : String} {t : Sentence} (h : Derives .formula (inked src.toList) t) :
    parse src = .ok t.stored := by
  obtain ⟨ts, htokens, hcheck, hwhole⟩ := h.exists_tokens
  refine parse_eq_ok.mpr ⟨?_, ts, t.shape, htokens, hcheck, hwhole, t.stored_eq⟩
  rw [← Bool.not_eq_true, List.all_eq_true]
  intro hblank
  refine h.ne_nil (List.filter_eq_nil_iff.mpr fun c hc => ?_)
  simp [hblank c hc]

/-- What is read, the grammar derives. -/
theorem derives_of_parse {src : String} {e : Formula Nat} (h : parse src = .ok e) :
    ∃ t, Derives .formula (inked src.toList) t ∧ e = t.stored := by
  obtain ⟨-, ts, f, htokens, -, hwhole, rfl⟩ := parse_eq_ok.mp h
  obtain ⟨hspelling, hgenuine⟩ := tokens_eq_ok htokens
  obtain ⟨us, t, hus, ht, rfl⟩ := derives_of_formulaAt hgenuine (wholeFormula_eq_ok.mp hwhole)
  rw [List.append_nil] at hus
  refine ⟨t, ?_, t.stored_eq.symm⟩
  rw [← hspelling, hus]
  exact ht

/-- The reader accepts exactly the texts that the grammar derives once blanks are dropped, and
stores the formula of the derivation. The derivation is the only one, its formula is canonically
placed and has the truth value of the text, and the check for parentheses and adjacent operators
does not get in its way. -/
theorem parse_accepts_grammar (src : String) :
    (∀ e, parse src = .ok e ↔ ∃ t, Derives .formula (inked src.toList) t ∧ e = t.stored) ∧
    ∀ t, Derives .formula (inked src.toList) t →
      (∀ t', Derives .formula (inked src.toList) t' → t' = t) ∧ t.stored.place = t.stored ∧
      (∀ vars consts, t.stored.eval vars consts = t.truth vars) ∧
      ∃ ts, tokens 0 src.toList = .ok ts ∧ checkStructure [] false ts = .ok () := by
  refine ⟨fun e => ⟨derives_of_parse, ?_⟩, fun t ht => ⟨fun t' ht' => ?_, ?_, t.eval_stored, ?_⟩⟩
  · rintro ⟨t, ht, rfl⟩
    exact parse_of_derives ht
  · exact (ht'.unique ht (Phrase.stops_nil _) (Phrase.stops_nil _) rfl).2
  · rw [t.stored_eq, Formula.place_place]
  · obtain ⟨ts, htokens, hcheck, -⟩ := ht.exists_tokens
    exact ⟨ts, htokens, hcheck⟩

end Detachment

import SchemaRegistry.Lib.Bytes

/-!
The glob language: `?` stands for one character, `*` for any run of them, `[..]` for one of a
class and `[!..]` for one outside it. A pattern is read into tokens, and the texts it stands for
are those that fall into pieces its tokens take one after another. The recursive wildcard `**` is
not part of what is described here.
-/

namespace SchemaRegistry.Lib

/-! ### Tokens and the texts they stand for -/

/-- A member of a class: a character, or all from one to another. -/
inductive CharSpecifier where
  | single (c : Char)
  | range (first last : Char)
  deriving DecidableEq, Repr

def CharSpecifier.holds : CharSpecifier → Char → Bool
  | .single c, d => c == d
  | .range first last, d => decide (first ≤ d) && decide (d ≤ last)

inductive GlobToken where
  | char (c : Char)
  | anyChar
  | anySequence
  | anyWithin (cs : List CharSpecifier)
  | anyExcept (cs : List CharSpecifier)
  deriving DecidableEq, Repr

namespace GlobToken

/-- The single characters a token takes. -/
def takes : GlobToken → Char → Bool
  | .char c, d => c == d
  | .anyChar, _ => true
  | .anySequence, _ => true
  | .anyWithin cs, d => cs.any (·.holds d)
  | .anyExcept cs, d => !cs.any (·.holds d)

/-- The pieces of text a token stands for. -/
def Takes (tok : GlobToken) (w : List Char) : Prop :=
  tok = .anySequence ∨ ∃ c, w = [c] ∧ tok.takes c = true

/-- A token that stands for two pieces stands for two of one length. -/
theorem Takes.same_length {tok : GlobToken} {w w' : List Char} (h : tok.Takes w) (h' : tok.Takes w')
    (hne : w ≠ w') : ∃ v v', tok.Takes v ∧ tok.Takes v' ∧ v.length = v'.length ∧ v ≠ v' := by
  rcases h with rfl | ⟨c, rfl, hc⟩
  · exact ⟨['a'], ['b'], .inl rfl, .inl rfl, rfl, by decide⟩
  · rcases h' with rfl | ⟨c', rfl, hc'⟩
    · exact ⟨['a'], ['b'], .inl rfl, .inl rfl, rfl, by decide⟩
    · exact ⟨[c], [c'], .inr ⟨c, rfl, hc⟩, .inr ⟨c', rfl, hc'⟩, rfl, hne⟩

end GlobToken

/-- The texts that tokens stand for. -/
def InLanguage : List GlobToken → List Char → Prop
  | [], s => s = []
  | tok :: ts, s => ∃ w s', s = w ++ s' ∧ tok.Takes w ∧ InLanguage ts s'

theorem inLanguage_append {ts us : List GlobToken} {s : List Char} :
    InLanguage (ts ++ us) s ↔ ∃ x y, s = x ++ y ∧ InLanguage ts x ∧ InLanguage us y := by
  induction ts generalizing s with
  | nil => simp [InLanguage]
  | cons tok ts ih =>
    simp only [List.cons_append, InLanguage, ih]
    constructor
    · rintro ⟨w, s', rfl, hw, x, y, rfl, hx, hy⟩
      exact ⟨w ++ x, y, (List.append_assoc ..).symm, ⟨w, x, rfl, hw, hx⟩, hy⟩
    · rintro ⟨_, y, rfl, ⟨w, x, rfl, hw, hx⟩, hy⟩
      exact ⟨w, x ++ y, List.append_assoc .., hw, x, y, rfl, hx, hy⟩

/-- Tokens that stand for two texts stand for two of one length. -/
theorem InLanguage.same_length {ts : List GlobToken} {s t : List Char} (hs : InLanguage ts s)
    (ht : InLanguage ts t) (hne : s ≠ t) :
    ∃ u v, InLanguage ts u ∧ InLanguage ts v ∧ u.length = v.length ∧ u ≠ v := by
  induction ts generalizing s t with
  | nil => exact absurd (hs.trans ht.symm) hne
  | cons tok ts ih =>
    obtain ⟨w, s', rfl, hw, hs'⟩ := hs
    obtain ⟨w', t', rfl, hw', ht'⟩ := ht
    by_cases hhead : w = w'
    · subst hhead
      obtain ⟨u, v, hu, hv, hlength, huv⟩ := ih hs' ht' fun heq => hne (by rw [heq])
      exact ⟨w ++ u, w ++ v, ⟨w, u, rfl, hw, hu⟩, ⟨w, v, rfl, hw, hv⟩, by simp [hlength],
        fun heq => huv (List.append_cancel_left heq)⟩
    · obtain ⟨v, v', hv, hv', hlength, hvv⟩ := hw.same_length hw' hhead
      exact ⟨v ++ s', v' ++ s', ⟨v, s', rfl, hv, hs'⟩, ⟨v', s', rfl, hv', hs'⟩, by simp [hlength],
        fun heq => hvv (List.append_cancel_right heq)⟩

/-! ### A matcher -/

/-- One character for a token, and what follows for the rest. -/
def GlobToken.headThen (tok : GlobToken) (rest : List Char → Bool) : List Char → Bool
  | [] => false
  | c :: s => tok.takes c && rest s

def accepts : List GlobToken → List Char → Bool
  | [], s => s.isEmpty
  | tok :: ts, s =>
      if tok = .anySequence then s.tails.any (accepts ts) else tok.headThen (accepts ts) s

theorem accepts_iff {ts : List GlobToken} {s : List Char} :
    accepts ts s = true ↔ InLanguage ts s := by
  induction ts generalizing s with
  | nil => simp [accepts, InLanguage]
  | cons tok ts ih =>
    rw [accepts, InLanguage]
    split
    · next hstar =>
        simp only [List.any_eq_true, List.mem_tails, ih]
        constructor
        · rintro ⟨s', ⟨w, rfl⟩, hs'⟩
          exact ⟨w, s', rfl, .inl hstar, hs'⟩
        · rintro ⟨w, s', rfl, -, hs'⟩
          exact ⟨s', List.suffix_append w s', hs'⟩
    · next hstar =>
        cases s with
        | nil =>
          refine iff_of_false Bool.false_ne_true ?_
          rintro ⟨w, s', hsplit, hw, -⟩
          obtain ⟨c, rfl, -⟩ := hw.resolve_left hstar
          cases hsplit
        | cons c s =>
          simp only [GlobToken.headThen, Bool.and_eq_true, ih]
          constructor
          · rintro ⟨hc, hs⟩
            exact ⟨[c], s, rfl, .inr ⟨c, rfl, hc⟩, hs⟩
          · rintro ⟨w, s', hsplit, hw, hs'⟩
            obtain ⟨d, rfl, hd⟩ := hw.resolve_left hstar
            cases hsplit
            exact ⟨hd, hs'⟩

/-! ### Reading a pattern -/

/-- The members of a class, as written between the brackets. -/
def charSpecifiers : List Char → List CharSpecifier
  | first :: '-' :: last :: cs => .range first last :: charSpecifiers cs
  | c :: cs => .single c :: charSpecifiers cs
  | [] => []

/-- What follows an opening bracket: a class, and how much of the text it takes with the closing
one. The first character of a class is never the closing bracket. -/
def bracket : List Char → Option (GlobToken × Nat)
  | [] => none
  | c :: cs =>
      if c = '!' then
        cs.head?.bind fun d => (splitOnce ']' cs.tail).map fun p =>
          (.anyExcept (charSpecifiers (d :: p.1)), p.1.length + 3)
      else
        (splitOnce ']' cs).map fun p => (.anyWithin (charSpecifiers (c :: p.1)), p.1.length + 2)

/-- The tokens of a pattern; the first argument counts the characters of a class that are still
to be passed over. A bracket that is not closed is an error. -/
def tokensFrom : Nat → List Char → Option (List GlobToken)
  | _, [] => some []
  | k + 1, _ :: cs => tokensFrom k cs
  | 0, c :: cs =>
      if c = '?' then (tokensFrom 0 cs).map (.anyChar :: ·)
      else if c = '*' then (tokensFrom 0 cs).map (.anySequence :: ·)
      else if c = '[' then
        match bracket cs with
        | none => none
        | some (tok, length) => (tokensFrom length cs).map (tok :: ·)
      else (tokensFrom 0 cs).map (.char c :: ·)

def globTokens (p : List Char) : Option (List GlobToken) := tokensFrom 0 p

/-- A text that a pattern stands for. -/
def GlobMatches (p s : List Char) : Prop := ∃ ts, globTokens p = some ts ∧ InLanguage ts s

theorem splitOnce_append_of_some {α : Type} [DecidableEq α] {sep : α} {l before after : List α}
    (h : splitOnce sep l = some (before, after)) (rest : List α) :
    splitOnce sep (l ++ rest) = some (before, after ++ rest) := by
  obtain ⟨rfl, hbefore⟩ := splitOnce_eq_some_iff.mp h
  rw [List.append_assoc]
  exact splitOnce_append hbefore (after ++ rest)

/-- A closed class is closed where it is, whatever follows. -/
theorem bracket_append {cs : List Char} {tok : GlobToken} {length : Nat}
    (h : bracket cs = some (tok, length)) (rest : List Char) :
    bracket (cs ++ rest) = some (tok, length) ∧ length ≤ cs.length := by
  have hclosed : ∀ {cs : List Char} {p : List Char × List Char}, splitOnce ']' cs = some p →
      splitOnce ']' (cs ++ rest) = some (p.1, p.2 ++ rest) ∧ p.1.length + 1 ≤ cs.length := by
    intro cs p hp
    refine ⟨splitOnce_append_of_some hp rest, ?_⟩
    rw [(splitOnce_eq_some_iff.mp hp).1]
    simp
  cases cs with
  | nil => cases h
  | cons c cs =>
    rw [bracket] at h
    rw [List.cons_append, bracket]
    split at h
    · next hbang =>
        rw [if_pos hbang]
        obtain ⟨d, hd, h⟩ := Option.bind_eq_some_iff.mp h
        obtain ⟨ds, rfl⟩ := List.head?_eq_some_iff.mp hd
        obtain ⟨p, hp, hres⟩ := Option.map_eq_some_iff.mp h
        cases hres
        rw [List.tail_cons] at hp
        obtain ⟨happ, hlength⟩ := hclosed hp
        rw [List.cons_append, List.head?_cons, Option.bind_some, List.tail_cons, happ]
        exact ⟨rfl, by simpa using hlength⟩
    · next hbang =>
        rw [if_neg hbang]
        obtain ⟨p, hp, hres⟩ := Option.map_eq_some_iff.mp h
        cases hres
        obtain ⟨happ, hlength⟩ := hclosed hp
        rw [happ]
        exact ⟨rfl, by simpa using hlength⟩

/-- A pattern that can be read is read the same in front of another. -/
theorem tokensFrom_append {p : List Char} {k : Nat} {ts : List GlobToken}
    (h : tokensFrom k p = some ts) (hk : k ≤ p.length) (rest : List Char) :
    tokensFrom k (p ++ rest) = (tokensFrom 0 rest).map (ts ++ ·) := by
  induction p generalizing k ts with
  | nil =>
    obtain rfl : k = 0 := Nat.le_zero.mp hk
    cases h
    simp
  | cons c cs ih =>
    have hmore : ∀ {tok : GlobToken} {length : Nat} {ts : List GlobToken}, length ≤ cs.length →
        (tokensFrom length cs).map (tok :: ·) = some ts →
        (tokensFrom length (cs ++ rest)).map (tok :: ·) = (tokensFrom 0 rest).map (ts ++ ·) := by
      intro tok length ts hlength h
      obtain ⟨us, hus, rfl⟩ := Option.map_eq_some_iff.mp h
      rw [ih hus hlength, Option.map_map]
      rfl
    cases k with
    | succ k => exact ih h (Nat.le_of_succ_le_succ hk)
    | zero =>
      rw [List.cons_append, tokensFrom]
      rw [tokensFrom] at h
      split at h
      · next hc => rw [if_pos hc, hmore (Nat.zero_le _) h]
      · next hc =>
          rw [if_neg hc]
          split at h
          · next hc => rw [if_pos hc, hmore (Nat.zero_le _) h]
          · next hc =>
              rw [if_neg hc]
              split at h
              · next hc =>
                  rw [if_pos hc]
                  split at h
                  · cases h
                  · next tok length hclass =>
                      obtain ⟨happ, hlength⟩ := bracket_append hclass rest
                      rw [happ]
                      exact hmore hlength h
              · next hc => rw [if_neg hc, hmore (Nat.zero_le _) h]

/-- What a readable pattern and what follows it stand for. -/
theorem globMatches_append {p rest s : List Char} (hp : (globTokens p).isSome = true) :
    GlobMatches (p ++ rest) s ↔ ∃ x y, s = x ++ y ∧ GlobMatches p x ∧ GlobMatches rest y := by
  obtain ⟨ts, hts⟩ := Option.isSome_iff_exists.mp hp
  have happ := tokensFrom_append hts (Nat.zero_le _) rest
  constructor
  · rintro ⟨us, hus, hs⟩
    obtain ⟨vs, hvs, rfl⟩ := Option.map_eq_some_iff.mp (happ.symm.trans hus)
    obtain ⟨x, y, rfl, hx, hy⟩ := inLanguage_append.mp hs
    exact ⟨x, y, rfl, ⟨ts, hts, hx⟩, vs, hvs, hy⟩
  · rintro ⟨x, y, rfl, ⟨ts', hts', hx⟩, vs, hvs, hy⟩
    obtain rfl := Option.some.inj (hts.symm.trans hts')
    refine ⟨ts ++ vs, ?_, inLanguage_append.mpr ⟨x, y, rfl, hx, hy⟩⟩
    rw [globTokens, happ]
    exact congrArg (Option.map (ts ++ ·)) hvs

theorem globMatches_nil {s : List Char} : GlobMatches [] s ↔ s = [] := by
  constructor
  · rintro ⟨ts, hts, hs⟩
    cases hts
    exact hs
  · rintro rfl
    exact ⟨[], rfl, rfl⟩

/-- A pattern that stands for two texts stands for two of one length. -/
theorem GlobMatches.same_length {p s t : List Char} (hs : GlobMatches p s) (ht : GlobMatches p t)
    (hne : s ≠ t) : ∃ u v, GlobMatches p u ∧ GlobMatches p v ∧ u.length = v.length ∧ u ≠ v := by
  obtain ⟨ts, hts, hs⟩ := hs
  obtain ⟨ts', hts', ht⟩ := ht
  obtain rfl := Option.some.inj (hts.symm.trans hts')
  obtain ⟨u, v, hu, hv, hlength, huv⟩ := hs.same_length ht hne
  exact ⟨u, v, ⟨ts, hts, hu⟩, ⟨ts, hts, hv⟩, hlength, huv⟩

/-! ### Literal text -/

/-- A character as a pattern that stands for it alone: the special ones in brackets. -/
def escapeChar (c : Char) : List Char :=
  if c = '?' ∨ c = '*' ∨ c = '[' ∨ c = ']' then ['[', c, ']'] else [c]

def globEscape (t : List Char) : List Char := t.flatMap escapeChar

/-- One token that takes one character only. -/
theorem globMatches_of_takes {p : List Char} {tok : GlobToken} {c : Char}
    (hp : globTokens p = some [tok]) (hne : tok ≠ .anySequence)
    (htok : ∀ d, tok.takes d = true ↔ d = c) {s : List Char} : GlobMatches p s ↔ s = [c] := by
  constructor
  · rintro ⟨ts, hts, hs⟩
    obtain rfl := Option.some.inj (hp.symm.trans hts)
    obtain ⟨w, s', rfl, hw, rfl⟩ := hs
    obtain ⟨d, rfl, hd⟩ := hw.resolve_left hne
    rw [(htok d).mp hd, List.append_nil]
  · rintro rfl
    exact ⟨[tok], hp, [c], [], rfl, .inr ⟨c, rfl, (htok c).mpr rfl⟩, rfl⟩

theorem globMatches_escapeChar {c : Char} {s : List Char} :
    GlobMatches (escapeChar c) s ↔ s = [c] := by
  unfold escapeChar
  split
  · next hspecial =>
      have htokens : globTokens ['[', c, ']'] = some [.anyWithin [.single c]] := by
        rcases hspecial with rfl | rfl | rfl | rfl <;> rfl
      refine globMatches_of_takes htokens nofun fun d => ?_
      simp only [GlobToken.takes, CharSpecifier.holds, List.any_cons, List.any_nil, Bool.or_false,
        beq_iff_eq]
      exact eq_comm
  · next hplain =>
      simp only [not_or] at hplain
      have htokens : globTokens [c] = some [.char c] := by
        simp [globTokens, tokensFrom, hplain]
      refine globMatches_of_takes htokens nofun fun d => ?_
      simp only [GlobToken.takes, beq_iff_eq]
      exact eq_comm

theorem isSome_globTokens_escapeChar (c : Char) : (globTokens (escapeChar c)).isSome = true := by
  obtain ⟨ts, hts, -⟩ := (globMatches_escapeChar (c := c)).mpr rfl
  rw [hts]
  rfl

/-- An escaped text stands for itself, wherever it stands in a pattern. -/
theorem globMatches_globEscape {t rest s : List Char} :
    GlobMatches (globEscape t ++ rest) s ↔ ∃ s', s = t ++ s' ∧ GlobMatches rest s' := by
  induction t generalizing s with
  | nil => simp [globEscape]
  | cons c t ih =>
    have hcons : globEscape (c :: t) ++ rest = escapeChar c ++ (globEscape t ++ rest) := by
      simp [globEscape]
    rw [hcons, globMatches_append (isSome_globTokens_escapeChar c)]
    constructor
    · rintro ⟨x, y, rfl, hx, hy⟩
      obtain ⟨s', rfl, hs'⟩ := ih.mp hy
      rw [globMatches_escapeChar.mp hx]
      exact ⟨s', rfl, hs'⟩
    · rintro ⟨s', rfl, hs'⟩
      exact ⟨[c], t ++ s', rfl, globMatches_escapeChar.mpr rfl, ih.mpr ⟨s', rfl, hs'⟩⟩

end SchemaRegistry.Lib

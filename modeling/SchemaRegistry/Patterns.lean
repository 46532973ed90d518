import SchemaRegistry.Lib.Glob
import SchemaRegistry.Api.Authz

/-!
What a binding's patterns mean. The matcher looks for the parts of a pattern from left to
right and takes the first place it finds for each. That never misses a word as long as the
pattern ends with a wildcard. Otherwise the last part may be found too early: the word is
then refused although a later place of that part would have ended it.
-/

namespace SchemaRegistry.Authz

open Lib

/-! ### The first place of a part -/

theorem exists_of_afterFirst {part s rest : List Char} (h : afterFirst part s = some rest) :
    ∃ x, s = x ++ (part ++ rest) := by
  induction s with
  | nil =>
    cases part with
    | nil =>
      cases h
      exact ⟨[], rfl⟩
    | cons c cs => cases h
  | cons c cs ih =>
    unfold afterFirst at h
    split at h
    · next hstart =>
        obtain ⟨t, ht⟩ := List.isPrefixOf_iff_prefix.mp hstart
        rw [← ht, List.drop_left] at h
        cases h
        exact ⟨[], ht.symm⟩
    · obtain ⟨x, rfl⟩ := ih h
      exact ⟨c :: x, rfl⟩

/-- The first place leaves more of the word than any other. -/
theorem afterFirst_of_place (x part t : List Char) :
    ∃ rest, afterFirst part (x ++ (part ++ t)) = some rest ∧ t <:+ rest := by
  induction x with
  | nil =>
    rw [List.nil_append]
    cases hs : part ++ t with
    | nil =>
      obtain ⟨rfl, rfl⟩ := List.append_eq_nil_iff.mp hs
      exact ⟨[], rfl, List.suffix_rfl⟩
    | cons c cs =>
      have hstart : part.isPrefixOf (c :: cs) = true :=
        List.isPrefixOf_iff_prefix.mpr ⟨t, hs⟩
      refine ⟨t, ?_, List.suffix_rfl⟩
      rw [afterFirst, if_pos hstart, ← hs, List.drop_left]
  | cons c x ih =>
    rw [List.cons_append]
    by_cases hstart : part.isPrefixOf (c :: (x ++ (part ++ t))) = true
    · obtain ⟨u, hu⟩ := List.isPrefixOf_iff_prefix.mp hstart
      refine ⟨u, ?_, ?_⟩
      · rw [afterFirst, if_pos hstart, ← hu, List.drop_left]
      · -- Both are ends of one word, and this place starts no later.
        have hlength : t.length ≤ u.length := by
          have := congrArg List.length hu
          simp only [List.length_append, List.length_cons] at this
          omega
        have hu' : u <:+ part ++ u := List.suffix_append part u
        have ht' : t <:+ part ++ u := ⟨c :: (x ++ part), by rw [hu]; simp⟩
        exact List.suffix_of_suffix_length_le ht' hu' hlength
    · obtain ⟨rest, hrest, hsuffix⟩ := ih
      refine ⟨rest, ?_, hsuffix⟩
      rw [afterFirst, if_neg hstart, hrest]

/-! ### The first place of every part -/

theorem scattered_of_afterParts {parts : List String} {s rest : List Char}
    (h : afterParts false parts s = some rest) : Scattered (parts.map String.toList) s rest := by
  induction parts generalizing s with
  | nil =>
    cases h
    rfl
  | cons part parts ih =>
    cases hfirst : afterFirst part.toList s with
    | none => simp [afterParts, hfirst] at h
    | some t =>
      obtain ⟨x, hx⟩ := exists_of_afterFirst hfirst
      have htail : afterParts false parts t = some rest := by
        simpa [afterParts, hfirst] using h
      exact ⟨x, t, hx, ih htail⟩

/-- Going from left to right finds a place for every part if there is one, and leaves at least
as much as any other choice of places. -/
theorem afterParts_of_scattered {parts : List String} {s t rest : List Char}
    (h : Scattered (parts.map String.toList) t rest) (hsuffix : t <:+ s) :
    ∃ rest', afterParts false parts s = some rest' ∧ rest <:+ rest' := by
  induction parts generalizing s t with
  | nil =>
    cases h
    exact ⟨s, rfl, hsuffix⟩
  | cons part parts ih =>
    obtain ⟨y, rfl⟩ := hsuffix
    obtain ⟨x, u, rfl, hu⟩ := h
    obtain ⟨v, hv, huv⟩ := afterFirst_of_place (y ++ x) part.toList u
    obtain ⟨rest', hrest', hle⟩ := ih hu huv
    rw [List.append_assoc] at hv
    exact ⟨rest', by simpa [afterParts, hv] using hrest', hle⟩

/-! ### Patterns -/

/-- A string is an instance of a pattern: each `*` stands for some string, every other
character for itself. -/
def InstanceOf (pattern s : String) : Prop := Fills '*' pattern.toList s.toList

/-- A string of which a shorter start is an instance of the pattern as well. -/
def HasShorterInstance (pattern s : String) : Prop :=
  ∃ start rest, rest ≠ "" ∧ s = start ++ rest ∧ InstanceOf pattern start

theorem instanceOf_star (s : String) : InstanceOf "*" s := by
  have h : Fills '*' ['*'] (s.toList ++ []) := .fill s.toList .nil
  rwa [List.append_nil] at h

theorem instanceOf_iff_eq {p s : String} (h : '*' ∉ p.toList) : InstanceOf p s ↔ p = s := by
  obtain ⟨w, ws, hsplit⟩ := exists_splitOn '*' p.toList
  have hws : ws = [] := by
    by_contra hne
    exact h ((mem_iff_of_splitOn hsplit).mpr hne)
  subst hws
  have hself : Fills '*' p.toList p.toList := .refl h
  have hunique : ∀ t, Fills '*' p.toList t → t = w := by
    intro t ht
    obtain ⟨u, rfl, rfl⟩ := (fills_iff_scattered hsplit).mp ht
    exact List.append_nil w
  constructor
  · intro hs
    exact String.toList_injective ((hunique _ hself).trans (hunique _ hs).symm)
  · rintro rfl
    exact hself

/-- The parts of a pattern that has a wildcard, as the matcher keeps them: the one at the start,
then the others without the empty ones. -/
structure Cut (p : String) where
  first : List Char
  others : List (List Char)
  split : p.toList.splitOn '*' = first :: others
  more : others ≠ []

namespace Cut

variable {p : String}

theorem nonempty_of_mem (h : '*' ∈ p.toList) : Nonempty (Cut p) := by
  obtain ⟨w, ws, hsplit⟩ := exists_splitOn '*' p.toList
  exact ⟨⟨w, ws, hsplit, (mem_iff_of_splitOn hsplit).mp h⟩⟩

/-- The parts looked for after the start. -/
def found (c : Cut p) : List String := (c.others.filter fun q => !q.isEmpty).map String.ofList

theorem found_toList (c : Cut p) :
    c.found.map String.toList = c.others.filter fun q => !q.isEmpty := by
  simp [found, Function.comp_def]

theorem openEnd_iff (c : Cut p) : p.toList.getLast? = some '*' ↔ c.others.getLast c.more = [] := by
  obtain ⟨next, rest, hnext⟩ := List.exists_cons_of_ne_nil c.more
  have hne : p.toList ≠ [] := by
    intro hnil
    have hmem := (mem_iff_of_splitOn c.split).mpr c.more
    rw [hnil] at hmem
    cases hmem
  have hlast := getLast_eq_nil_iff c.split
  rw [or_iff_right hne] at hlast
  rw [← hlast]
  simp only [hnext, List.getLast_cons_cons]

/-- What the matcher does with a pattern that has a wildcard. -/
theorem matches_iff (c : Cut p) (hp : p ≠ "*") {s : String} :
    (Glob.parse p).matches s = true ↔
      ∃ t rest, s.toList = c.first ++ t ∧ afterParts false c.found t = some rest
        ∧ (p.toList.getLast? = some '*' ∨ rest = []) := by
  have hmem : '*' ∈ p.toList := (mem_iff_of_splitOn c.split).mpr c.more
  have hhead := head_eq_nil_iff c.split hmem
  rw [Glob.parse, if_neg hp, if_neg (not_not.mpr hmem), c.split]
  cases hfirst : c.first with
  | nil =>
    have hopen : (p.toList.head? == some '*') = true := beq_iff_eq.mpr (hhead.mpr hfirst)
    cases hparts : afterParts false c.found s.toList with
    | none =>
      have hparts' := hparts
      rw [found] at hparts'
      simp [Glob.matches, hopen, hparts', hparts]
    | some rest =>
      have hparts' := hparts
      rw [found] at hparts'
      simp [Glob.matches, hopen, hparts', hparts]
  | cons d ds =>
    have hclosed : (p.toList.head? == some '*') = false :=
      beq_eq_false_iff_ne.mpr fun h => by rw [hhead.mp h] at hfirst; cases hfirst
    simp only [List.filter_cons, List.isEmpty_cons, Bool.not_false, if_true, List.map_cons,
      Glob.matches, hclosed, afterParts, String.toList_ofList]
    by_cases hstart : (d :: ds).isPrefixOf s.toList = true
    · obtain ⟨t, ht⟩ := List.isPrefixOf_iff_prefix.mp hstart
      rw [if_pos hstart, ← ht, List.drop_left]
      cases hparts : afterParts false c.found t with
      | none =>
        have hparts' := hparts
        rw [found] at hparts'
        simp [hparts', hparts]
      | some rest =>
        have hparts' := hparts
        rw [found] at hparts'
        simp [hparts', hparts]
    · rw [if_neg hstart]
      constructor
      · intro h
        cases h
      · rintro ⟨t, -, ht, -⟩
        exact absurd (List.isPrefixOf_iff_prefix.mpr ⟨t, ht.symm⟩) hstart

theorem instanceOf_iff (c : Cut p) {s : String} :
    InstanceOf p s ↔
      ∃ t rest, s.toList = c.first ++ t ∧ Scattered (c.found.map String.toList) t rest
        ∧ (p.toList.getLast? = some '*' ∨ rest = []) := by
  rw [InstanceOf, fills_iff_scattered c.split, c.openEnd_iff, c.found_toList]
  constructor
  · rintro ⟨t, hs, ht⟩
    obtain ⟨rest, hrest, hlast⟩ := (scattered_filter c.more).mp ht
    exact ⟨t, rest, hs, hrest, or_iff_not_imp_left.mpr hlast⟩
  · rintro ⟨t, rest, hs, hrest, hlast⟩
    exact ⟨t, hs, (scattered_filter c.more).mpr ⟨rest, hrest, or_iff_not_imp_left.mp hlast⟩⟩

end Cut

/-- What the matcher accepts is an instance of the pattern. -/
theorem instanceOf_of_matches {p s : String} (h : (Glob.parse p).matches s = true) :
    InstanceOf p s := by
  by_cases hp : p = "*"
  · subst hp
    exact instanceOf_star s
  by_cases hmem : '*' ∈ p.toList
  · obtain ⟨c⟩ := Cut.nonempty_of_mem hmem
    obtain ⟨t, rest, hs, hrest, hlast⟩ := (c.matches_iff hp).mp h
    exact c.instanceOf_iff.mpr ⟨t, rest, hs, scattered_of_afterParts hrest, hlast⟩
  · rw [Glob.parse, if_neg hp, if_pos hmem] at h
    exact (instanceOf_iff_eq hmem).mpr (beq_iff_eq.mp h)

/-- An instance is refused exactly when the pattern does not end with a wildcard and the string
has a shorter instance at its start. -/
theorem matches_eq_false_iff {p s : String} (h : InstanceOf p s) :
    (Glob.parse p).matches s = false ↔
      p.toList.getLast? ≠ some '*' ∧ HasShorterInstance p s := by
  by_cases hp : p = "*"
  · subst hp
    simp [Glob.parse, Glob.matches]
  by_cases hmem : '*' ∈ p.toList
  · obtain ⟨c⟩ := Cut.nonempty_of_mem hmem
    obtain ⟨t, rest, hs, hrest, hlast⟩ := c.instanceOf_iff.mp h
    obtain ⟨rest', hrest', hle⟩ := afterParts_of_scattered hrest (List.suffix_refl t)
    -- The greedy places are the only ones the matcher looks at.
    have hmatches : (Glob.parse p).matches s = true ↔
        p.toList.getLast? = some '*' ∨ rest' = [] := by
      rw [c.matches_iff hp]
      constructor
      · rintro ⟨u, r, hu, hr, hor⟩
        obtain rfl : u = t := List.append_cancel_left (hu.symm.trans hs)
        rw [hrest'] at hr
        cases hr
        exact hor
      · intro hor
        exact ⟨t, rest', hs, hrest', hor⟩
    rw [← Bool.not_eq_true, hmatches, not_or]
    refine and_congr_right fun hopen => ?_
    constructor
    · intro hne
      obtain ⟨front, hfront, hscattered⟩ := (scattered_of_afterParts hrest').exists_front
      refine ⟨String.ofList (c.first ++ front), String.ofList rest', ?_, ?_, ?_⟩
      · intro hempty
        exact hne (by simpa using congrArg String.toList hempty)
      · apply String.toList_injective
        rw [hs, hfront]
        simp
      · exact c.instanceOf_iff.mpr ⟨front, [], by simp, hscattered, .inr rfl⟩
    · rintro ⟨start, more, hmore, rfl, hstart⟩ hnil
      obtain ⟨u, r, hu, hr, hor⟩ := c.instanceOf_iff.mp hstart
      rcases hor with hor | rfl
      · exact hopen hor
      · have ht : t = u ++ more.toList := by
          rw [String.toList_append, hu, List.append_assoc] at hs
          exact (List.append_cancel_left hs).symm
        have hgo := hr.append more.toList
        rw [← ht, List.nil_append] at hgo
        obtain ⟨r', hr', hle'⟩ := afterParts_of_scattered hgo (List.suffix_refl t)
        rw [hrest', hnil] at hr'
        cases hr'
        exact hmore (String.toList_injective (List.suffix_nil.mp hle'))
  · have heq := (instanceOf_iff_eq hmem).mp h
    subst heq
    rw [Glob.parse, if_neg hp, if_pos hmem]
    constructor
    · intro hfalse
      simp [Glob.matches] at hfalse
    · rintro ⟨-, start, rest, hrest, hs, hstart⟩
      have hstart := (instanceOf_iff_eq hmem).mp hstart
      have hlength := congrArg (fun x => x.toList.length) hs
      simp only [String.toList_append, List.length_append, ← hstart] at hlength
      exact absurd (String.toList_injective (List.length_eq_zero_iff.mp (by omega))) hrest

/-- Where a pattern means what its text says: always when it ends with a wildcard, otherwise for
the strings that are no instance or have no shorter one at their start. -/
theorem matches_iff_instanceOf (p s : String) :
    ((Glob.parse p).matches s = true ↔ InstanceOf p s) ↔
      p.toList.getLast? = some '*' ∨ ¬ (InstanceOf p s ∧ HasShorterInstance p s) := by
  by_cases h : InstanceOf p s
  · have hfalse := matches_eq_false_iff h
    rw [iff_true_right h, ← Bool.not_eq_false, hfalse]
    tauto
  · have hno : ¬ (Glob.parse p).matches s = true := fun hm => h (instanceOf_of_matches hm)
    constructor
    · intro _
      exact .inr fun hboth => h hboth.1
    · intro _
      exact iff_of_false hno h

/-- The matcher takes the first `a` of `aba` for the one that has to end it. -/
theorem not_matches_aba : ¬ ((Glob.parse "*a").matches "aba" = true ↔ InstanceOf "*a" "aba") := by
  intro h
  have hinstance : InstanceOf "*a" "aba" := .fill ['a', 'b'] (.keep (by decide) .nil)
  exact absurd (h.mpr hinstance) (by decide)

end SchemaRegistry.Authz

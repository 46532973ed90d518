import SchemaRegistry.Lib.Lists

/-!
Words with wildcards. A word fills a pattern when it is the pattern with some word in place of
each wildcard; cut at its wildcards, a pattern asks for its parts in order, the first at the
start and the last at the end of the word.
-/

namespace SchemaRegistry.Lib

variable {α : Type} {star : α}

/-- `Fills star p s`: `s` is `p` with some word in place of each `star`. -/
inductive Fills (star : α) : List α → List α → Prop where
  | nil : Fills star [] []
  | keep {c : α} {p s : List α} : c ≠ star → Fills star p s → Fills star (c :: p) (c :: s)
  | fill (x : List α) {p s : List α} : Fills star p s → Fills star (star :: p) (x ++ s)

/-- The parts stand in a word in this order, and `rest` is what follows the last one. -/
def Scattered : List (List α) → List α → List α → Prop
  | [], s, rest => s = rest
  | part :: parts, s, rest => ∃ x t, s = x ++ (part ++ t) ∧ Scattered parts t rest

/-- A pattern without wildcards stands for itself. -/
theorem Fills.refl {p : List α} (h : star ∉ p) : Fills star p p := by
  induction p with
  | nil => exact .nil
  | cons c p ih =>
    have hc : c ≠ star := fun heq => h (heq ▸ List.mem_cons_self)
    exact .keep hc (ih fun hmem => h (List.mem_cons_of_mem c hmem))

/-! ### Scattered parts -/

theorem Scattered.append {parts : List (List α)} {s rest : List α} (y : List α)
    (h : Scattered parts s rest) : Scattered parts (s ++ y) (rest ++ y) := by
  induction parts generalizing s with
  | nil => exact congrArg (· ++ y) h
  | cons part parts ih =>
    obtain ⟨x, t, rfl, ht⟩ := h
    exact ⟨x, t ++ y, by simp only [List.append_assoc], ih ht⟩

/-- What comes before the rest holds the parts on its own. -/
theorem Scattered.exists_front {parts : List (List α)} {s rest : List α}
    (h : Scattered parts s rest) : ∃ front, s = front ++ rest ∧ Scattered parts front [] := by
  induction parts generalizing s with
  | nil => exact ⟨[], h, rfl⟩
  | cons part parts ih =>
    obtain ⟨x, t, rfl, ht⟩ := h
    obtain ⟨front, rfl, hfront⟩ := ih ht
    exact ⟨x ++ (part ++ front), by simp only [List.append_assoc], x, front, rfl, hfront⟩

/-- Letters in front of the first part do not matter. -/
theorem Scattered.of_suffix {part : List α} {parts : List (List α)} {s t rest : List α}
    (h : Scattered (part :: parts) t rest) (hsuffix : t <:+ s) :
    Scattered (part :: parts) s rest := by
  obtain ⟨y, rfl⟩ := hsuffix
  obtain ⟨x, u, rfl, hu⟩ := h
  exact ⟨y ++ x, u, by rw [List.append_assoc], hu⟩

theorem scattered_nil_cons {part : List α} {parts : List (List α)} {s rest : List α} :
    Scattered ([] :: part :: parts) s rest ↔ Scattered (part :: parts) s rest := by
  constructor
  · rintro ⟨x, t, rfl, ht⟩
    exact ht.of_suffix ⟨x, by rw [List.nil_append]⟩
  · intro h
    exact ⟨[], s, rfl, h⟩

/-- Empty parts ask for nothing, except that an empty last part lets the word go on. -/
theorem scattered_filter {parts : List (List α)} (hne : parts ≠ []) {s : List α} :
    Scattered parts s [] ↔ ∃ rest, Scattered (parts.filter fun p => !p.isEmpty) s rest
        ∧ (parts.getLast hne ≠ [] → rest = []) := by
  induction parts generalizing s with
  | nil => exact absurd rfl hne
  | cons part parts ih =>
    cases parts with
    | nil =>
      cases part with
      | nil => exact ⟨fun _ => ⟨s, rfl, fun h => absurd rfl h⟩,
          fun _ => ⟨s, [], (List.append_nil s).symm, rfl⟩⟩
      | cons c cs =>
        constructor
        · intro h
          exact ⟨[], h, fun _ => rfl⟩
        · rintro ⟨rest, h, hrest⟩
          rw [hrest (List.cons_ne_nil c cs)] at h
          exact h
    | cons next parts =>
      have ih := @ih (List.cons_ne_nil next parts)
      cases part with
      | nil =>
        rw [scattered_nil_cons, List.getLast_cons_cons]
        exact ih
      | cons c cs =>
        rw [List.getLast_cons_cons]
        constructor
        · rintro ⟨x, t, rfl, ht⟩
          obtain ⟨rest, hrest, hlast⟩ := ih.mp ht
          exact ⟨rest, ⟨x, t, rfl, hrest⟩, hlast⟩
        · rintro ⟨rest, ⟨x, t, rfl, ht⟩, hlast⟩
          exact ⟨x, t, rfl, ih.mpr ⟨rest, ht, hlast⟩⟩

/-! ### A pattern cut at its wildcards -/

section Split

variable [DecidableEq α] {p w : List α} {ws : List (List α)}

/-- A word fills a pattern when it starts with the first part and holds the others after it,
up to its end. -/
theorem fills_iff_scattered (h : p.splitOn star = w :: ws) {s : List α} :
    Fills star p s ↔ ∃ t, s = w ++ t ∧ Scattered ws t [] := by
  induction p generalizing w ws s with
  | nil =>
    cases h
    constructor
    · rintro ⟨⟩
      exact ⟨[], rfl, rfl⟩
    · rintro ⟨t, rfl, rfl⟩
      exact .nil
  | cons c p ih =>
    obtain ⟨v, vs, hv⟩ := exists_splitOn star p
    by_cases hc : c = star
    · subst hc
      rw [splitOn_cons_self, hv] at h
      cases h
      constructor
      · rintro (_ | ⟨hne, -⟩ | ⟨x, hrest⟩)
        · exact absurd rfl hne
        · obtain ⟨t, rfl, ht⟩ := (ih hv).mp hrest
          exact ⟨x ++ (v ++ t), rfl, x, t, rfl, ht⟩
      · rintro ⟨t, rfl, x, u, rfl, hu⟩
        exact .fill x ((ih hv).mpr ⟨u, rfl, hu⟩)
    · rw [splitOn_cons_ne hc hv] at h
      cases h
      constructor
      · rintro (_ | ⟨-, hrest⟩ | ⟨-, -⟩)
        · obtain ⟨t, rfl, ht⟩ := (ih hv).mp hrest
          exact ⟨t, rfl, ht⟩
        · exact absurd rfl hc
      · rintro ⟨t, rfl, ht⟩
        exact .keep hc ((ih hv).mpr ⟨t, rfl, ht⟩)

/-- There is a second part exactly when there is a wildcard. -/
theorem mem_iff_of_splitOn (h : p.splitOn star = w :: ws) : star ∈ p ↔ ws ≠ [] := by
  induction p generalizing w ws with
  | nil =>
    cases h
    simp
  | cons c p ih =>
    obtain ⟨v, vs, hv⟩ := exists_splitOn star p
    by_cases hc : c = star
    · subst hc
      rw [splitOn_cons_self, hv] at h
      cases h
      simp
    · rw [splitOn_cons_ne hc hv] at h
      cases h
      rw [List.mem_cons, ih hv, or_iff_right (Ne.symm hc)]

/-- The first part is empty when the pattern starts with a wildcard, or is empty itself. -/
theorem head_eq_nil_iff (h : p.splitOn star = w :: ws) (hmem : star ∈ p) :
    p.head? = some star ↔ w = [] := by
  cases p with
  | nil => simp at hmem
  | cons c p =>
    obtain ⟨v, vs, hv⟩ := exists_splitOn star p
    by_cases hc : c = star
    · subst hc
      rw [splitOn_cons_self, hv] at h
      cases h
      simp
    · rw [splitOn_cons_ne hc hv] at h
      cases h
      simp [hc]

/-- The last part is empty when the pattern ends with a wildcard, or is empty itself. -/
theorem getLast_eq_nil_iff (h : p.splitOn star = w :: ws) :
    (w :: ws).getLast (List.cons_ne_nil w ws) = [] ↔ p = [] ∨ p.getLast? = some star := by
  induction p generalizing w ws with
  | nil =>
    cases h
    simp
  | cons c p ih =>
    obtain ⟨v, vs, hv⟩ := exists_splitOn star p
    have hlast : (c :: p).getLast? = some star ↔
        p = [] ∧ c = star ∨ p.getLast? = some star := by
      cases p with
      | nil => simp
      | cons d ds => simp [List.getLast?_cons_cons]
    rw [or_iff_right (List.cons_ne_nil c p), hlast]
    by_cases hc : c = star
    · subst hc
      rw [splitOn_cons_self, hv] at h
      cases h
      rw [List.getLast_cons_cons, ih hv, and_iff_left rfl]
    · rw [splitOn_cons_ne hc hv] at h
      cases h
      rw [or_iff_right fun hboth => hc hboth.2]
      cases ws with
      | nil =>
        -- The one part is the whole pattern, and it has no wildcard to end with.
        have hno : star ∉ p := fun hmem => (mem_iff_of_splitOn hv).mp hmem rfl
        constructor
        · intro heq
          cases heq
        · intro heq
          exact absurd (List.mem_of_getLast? heq) hno
      | cons u us =>
        have hne : p ≠ [] := by
          rintro rfl
          cases hv
        have ih := ih hv
        rw [List.getLast_cons_cons, or_iff_right hne] at ih
        rw [List.getLast_cons_cons, ih]

end Split

end SchemaRegistry.Lib

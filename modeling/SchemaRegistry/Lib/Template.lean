import Mathlib.Algebra.GroupWithZero.Nat
import Mathlib.Data.List.Basic
import Mathlib.Data.List.Infix

/-!
Texts with places to fill in. The pieces of a text around the places where a pattern stands,
found from left to right without overlap, do not depend on what is filled in; joined with a text
they are the template filled with it. A template with a place in it gives different texts for
different fillings.
-/

namespace SchemaRegistry.Lib

variable {α : Type} [BEq α] [LawfulBEq α]

/-- The pieces of a text around the places of a pattern; the first argument counts the elements
of a place just found that are still to be passed over. -/
def pieces (pat : List α) : Nat → List α → List (List α)
  | _, [] => [[]]
  | 0, c :: cs =>
      if pat.isPrefixOf (c :: cs) then [] :: pieces pat (pat.length - 1) cs
      else (pieces pat 0 cs).modifyHead (c :: ·)
  | k + 1, _ :: cs => pieces pat k cs

/-- The text with every place of the pattern replaced (`str::replace`). -/
def fillPlaces (pat new text : List α) : List α := new.intercalate (pieces pat 0 text)

section

variable {pat text new new' : List α}

omit [LawfulBEq α] in
theorem pieces_ne_nil (pat : List α) (k : Nat) (text : List α) : pieces pat k text ≠ [] := by
  induction text generalizing k with
  | nil => simp [pieces]
  | cons c cs ih =>
    cases k with
    | zero =>
      rw [pieces]
      split
      · simp
      · simpa using ih 0
    | succ k => exact ih k

/-- A text in which the pattern stands has two pieces at least. -/
theorem two_le_length_pieces (hpat : pat ≠ []) (h : pat <:+: text) :
    2 ≤ (pieces pat 0 text).length := by
  induction text with
  | nil => exact (hpat (List.infix_nil.mp h)).elim
  | cons c cs ih =>
    rw [pieces]
    by_cases hfront : pat.isPrefixOf (c :: cs) = true
    · rw [if_pos hfront, List.length_cons]
      have := List.length_pos_iff.mpr (pieces_ne_nil pat (pat.length - 1) cs)
      omega
    · rw [if_neg hfront, List.length_modifyHead]
      rcases List.infix_cons_iff.mp h with hhere | hrest
      · exact (hfront (List.isPrefixOf_iff_prefix.mpr hhere)).elim
      · exact ih hrest

omit [BEq α] [LawfulBEq α] in
theorem length_intercalate (new : List α) (parts : List (List α)) :
    (new.intercalate parts).length
      = (parts.map List.length).sum + (parts.length - 1) * new.length := by
  induction parts with
  | nil => simp
  | cons p parts ih =>
    cases parts with
    | nil => simp
    | cons q parts =>
      rw [List.intercalate_cons_cons, List.length_append, List.length_append, ih]
      simp only [List.map_cons, List.sum_cons, List.length_cons]
      rw [Nat.add_sub_cancel, Nat.add_sub_cancel, Nat.add_mul]
      omega

omit [BEq α] [LawfulBEq α] in
theorem length_eq_of_intercalate {parts : List (List α)} (hparts : 2 ≤ parts.length)
    (h : (new.intercalate parts).length = (new'.intercalate parts).length) :
    new.length = new'.length := by
  rw [length_intercalate, length_intercalate] at h
  exact Nat.eq_of_mul_eq_mul_left (by omega) (Nat.add_left_cancel h)

omit [BEq α] [LawfulBEq α] in
/-- What joins two pieces or more can be read off the result. -/
theorem eq_of_intercalate_eq {parts : List (List α)} (hparts : 2 ≤ parts.length)
    (h : new.intercalate parts = new'.intercalate parts) : new = new' := by
  have hlength := length_eq_of_intercalate hparts (congrArg List.length h)
  match parts, hparts with
  | p :: q :: rest, _ =>
      rw [List.intercalate_cons_cons, List.intercalate_cons_cons, List.append_assoc,
        List.append_assoc] at h
      exact (List.append_inj (List.append_cancel_left h) hlength).1

theorem eq_of_fillPlaces_eq (hpat : pat ≠ []) (hplace : pat <:+: text)
    (h : fillPlaces pat new text = fillPlaces pat new' text) : new = new' :=
  eq_of_intercalate_eq (two_le_length_pieces hpat hplace) h

end

/-! ### Places filled one by one -/

section Joined

variable {α : Type} {L : List α → Prop} {parts : List (List α)} {d s : List α}

/-- Pieces joined by texts of a language, one after another and not all the same. -/
def JoinsWith (L : List α → Prop) : List (List α) → List α → Prop
  | [], d => d = []
  | [p], d => d = p
  | p :: q :: rest, d => ∃ x y, d = p ++ (x ++ y) ∧ L x ∧ JoinsWith L (q :: rest) y

theorem joinsWith_intercalate (hs : L s) :
    ∀ parts : List (List α), JoinsWith L parts (s.intercalate parts)
  | [] => rfl
  | [p] => List.intercalate_singleton
  | p :: q :: rest => by
      refine ⟨s, s.intercalate (q :: rest), ?_, hs, joinsWith_intercalate hs (q :: rest)⟩
      rw [List.intercalate_cons_cons, List.append_assoc]

/-- A single place is filled once. -/
theorem joinsWith_two {p q : List α} :
    JoinsWith L [p, q] d ↔ ∃ s, L s ∧ s.intercalate [p, q] = d := by
  constructor
  · rintro ⟨x, y, rfl, hx, rfl⟩
    exact ⟨x, hx, by simp [List.intercalate_cons_cons]⟩
  · rintro ⟨s, hs, rfl⟩
    exact joinsWith_intercalate hs [p, q]

/-- Where the language has one text only, all places are filled with it. -/
theorem intercalate_of_joinsWith (hone : ∀ s t, L s → L t → s = t) (hs : L s) :
    ∀ (parts : List (List α)) {d : List α}, JoinsWith L parts d → s.intercalate parts = d
  | [], _, h => h.symm
  | [p], _, h => List.intercalate_singleton.trans h.symm
  | p :: q :: rest, _, h => by
      obtain ⟨x, y, rfl, hx, hy⟩ := h
      rw [List.intercalate_cons_cons, intercalate_of_joinsWith hone hs (q :: rest) hy,
        hone s x hs hx, List.append_assoc]

theorem exists_of_joinsWith {p q : List α} (h : JoinsWith L (p :: q :: parts) d) : ∃ s, L s := by
  obtain ⟨x, -, -, hx, -⟩ := h
  exact ⟨x, hx⟩

/-- Two texts of one length, put into different places, give what no text gives in all of them. -/
theorem joinsWith_apart {p q r : List α} {t : List α} (hs : L s) (ht : L t)
    (hlength : s.length = t.length) (hne : s ≠ t) :
    ∃ d, JoinsWith L (p :: q :: r :: parts) d ∧
      ∀ u : List α, u.intercalate (p :: q :: r :: parts) ≠ d := by
  refine ⟨p ++ (s ++ (q ++ (t ++ t.intercalate (r :: parts)))),
    ⟨s, _, rfl, hs, t, _, rfl, ht, joinsWith_intercalate ht (r :: parts)⟩, ?_⟩
  intro u hu
  have hsame : (p ++ (s ++ (q ++ (t ++ t.intercalate (r :: parts))))).length
      = (s.intercalate (p :: q :: r :: parts)).length := by
    simp only [List.intercalate_cons_cons, List.length_append, length_intercalate, hlength]
    omega
  have hul : u.length = s.length :=
    length_eq_of_intercalate (by simp) ((congrArg List.length hu).trans hsame)
  rw [List.intercalate_cons_cons, List.intercalate_cons_cons, List.append_assoc, List.append_assoc]
    at hu
  obtain ⟨hus, hrest⟩ := List.append_inj (List.append_cancel_left hu) hul
  obtain ⟨hut, -⟩ := List.append_inj (List.append_cancel_left hrest) (hul.trans hlength)
  exact hne (hus.symm.trans hut)

variable {β : Type} {sources : List β} {lang : β → List α → Prop}

/-- Without a place only the piece itself is left. -/
theorem joins_exact_of_one {p : List α} :
    (∀ d : List α, (∃ b ∈ sources, JoinsWith (lang b) [p] d)
      ↔ ∃ s : List α, (∃ b ∈ sources, lang b s) ∧ s.intercalate [p] = d)
    ↔ (sources ≠ [] → ∃ b ∈ sources, ∃ s, lang b s) := by
  constructor
  · intro h hne
    obtain ⟨b, hb⟩ := List.exists_mem_of_ne_nil sources hne
    obtain ⟨s, ⟨b', hb', hs⟩, -⟩ := (h p).mp ⟨b, hb, rfl⟩
    exact ⟨b', hb', s, hs⟩
  · intro h d
    constructor
    · rintro ⟨b, hb, hd⟩
      obtain ⟨b', hb', s, hs⟩ := h (List.ne_nil_of_mem hb)
      exact ⟨s, ⟨b', hb', hs⟩, List.intercalate_singleton.trans hd.symm⟩
    · rintro ⟨s, ⟨b, hb, -⟩, rfl⟩
      exact ⟨b, hb, List.intercalate_singleton⟩

theorem joins_exact_of_two {p q : List α} (d : List α) :
    (∃ b ∈ sources, JoinsWith (lang b) [p, q] d)
      ↔ ∃ s : List α, (∃ b ∈ sources, lang b s) ∧ s.intercalate [p, q] = d := by
  constructor
  · rintro ⟨b, hb, hd⟩
    obtain ⟨s, hs, hsd⟩ := joinsWith_two.mp hd
    exact ⟨s, ⟨b, hb, hs⟩, hsd⟩
  · rintro ⟨s, ⟨b, hb, hs⟩, hsd⟩
    exact ⟨b, hb, joinsWith_two.mpr ⟨s, hs, hsd⟩⟩

/-- With two places or more, a language of two texts gives too much: of two texts of one length,
each can be put into one of the places. -/
theorem joins_exact_of_more {p q r : List α}
    (hlength : ∀ b ∈ sources, ∀ s t, lang b s → lang b t → s ≠ t →
      ∃ u v, lang b u ∧ lang b v ∧ u.length = v.length ∧ u ≠ v) :
    (∀ d : List α, (∃ b ∈ sources, JoinsWith (lang b) (p :: q :: r :: parts) d)
      ↔ ∃ s : List α, (∃ b ∈ sources, lang b s) ∧ s.intercalate (p :: q :: r :: parts) = d)
    ↔ ∀ b ∈ sources, ∀ s t, lang b s → lang b t → s = t := by
  constructor
  · intro h b hb s t hs ht
    by_contra hne
    obtain ⟨u, v, hu, hv, huv, hne'⟩ := hlength b hb s t hs ht hne
    obtain ⟨d, hd, hnone⟩ := joinsWith_apart hu hv huv hne'
    obtain ⟨w, -, hw⟩ := (h d).mp ⟨b, hb, hd⟩
    exact hnone w hw
  · intro h d
    constructor
    · rintro ⟨b, hb, hd⟩
      obtain ⟨s, hs⟩ := exists_of_joinsWith hd
      exact ⟨s, ⟨b, hb, hs⟩, intercalate_of_joinsWith (h b hb) hs _ hd⟩
    · rintro ⟨s, ⟨b, hb, hs⟩, rfl⟩
      exact ⟨b, hb, joinsWith_intercalate hs _⟩

end Joined

end SchemaRegistry.Lib

import Mathlib.Data.List.Basic
import Mathlib.Data.List.Forall2

/-!
Lists: what a search finds, lists related element by element, and lists cut at a separator.
-/

namespace SchemaRegistry.Lib

variable {α β : Type}

instance lawfulOrderMaxUInt32 : Std.LawfulOrderMax UInt32 where
  max_eq_or a b := by
    change (if a ≤ b then b else a) = a ∨ (if a ≤ b then b else a) = b
    split <;> simp
  max_le_iff a b c := by
    change (if a ≤ b then b else a) ≤ c ↔ _
    split <;> simp only [UInt32.le_iff_toNat_le] at * <;> omega

/-! ### Searches -/

/-- Elements at which nothing is found need not be searched. -/
theorem findSome?_filter {f : α → Option β} {p : α → Bool} {l : List α}
    (h : ∀ a ∈ l, p a = false → f a = none) : (l.filter p).findSome? f = l.findSome? f := by
  induction l with
  | nil => rfl
  | cons a l ih =>
    have ih := ih fun b hb => h b (List.mem_cons_of_mem a hb)
    cases hp : p a with
    | true => simp [hp, List.findSome?_cons, ih]
    | false => simp [hp, ih, h a List.mem_cons_self hp]

theorem findSome?_congr {f g : α → Option β} {l : List α} (h : ∀ a ∈ l, f a = g a) :
    l.findSome? f = l.findSome? g := by
  induction l with
  | nil => rfl
  | cons a l ih =>
    rw [List.findSome?_cons, List.findSome?_cons, h a List.mem_cons_self,
      ih fun b hb => h b (List.mem_cons_of_mem a hb)]

/-- The largest element depends on the elements alone. -/
theorem max?_congr [Max α] [LE α] [Std.IsLinearOrder α] [Std.LawfulOrderMax α] {l l' : List α}
    (h : ∀ a, a ∈ l ↔ a ∈ l') : l.max? = l'.max? := by
  cases hmax : l.max? with
  | none =>
    rw [List.max?_eq_none_iff] at hmax
    subst hmax
    exact (List.max?_eq_none_iff.mpr (List.eq_nil_iff_forall_not_mem.mpr fun a ha =>
      List.not_mem_nil ((h a).mpr ha))).symm
  | some m =>
    obtain ⟨hmem, hle⟩ := List.max?_eq_some_iff.mp hmax
    exact (List.max?_eq_some_iff.mpr ⟨(h m).mp hmem, fun a ha => hle a ((h a).mpr ha)⟩).symm

theorem mapM_eq_some_map {f : α → Option β} {g : α → β} {xs : List α}
    (h : ∀ x ∈ xs, f x = some (g x)) : xs.mapM f = some (xs.map g) := by
  induction xs with
  | nil => rfl
  | cons x xs ih =>
    obtain ⟨hx, hxs⟩ := List.forall_mem_cons.mp h
    rw [List.mapM_cons, hx, ih hxs]
    rfl

theorem map_filterMap_sublist {f : α → Option β} {g : β → α}
    (h : ∀ a b, f a = some b → g b = a) (xs : List α) : ((xs.filterMap f).map g).Sublist xs := by
  induction xs with
  | nil => exact .slnil
  | cons x xs ih =>
    cases hx : f x with
    | none =>
      rw [List.filterMap_cons_none hx]
      exact ih.cons x
    | some y =>
      rw [List.filterMap_cons_some hx, List.map_cons, h x y hx]
      exact ih.cons_cons x

/-! ### Related lists -/

section Related

variable {S : α → β → Prop} {x : Option α} {y : Option β}

theorem rel_find? {p : α → Bool} {q : β → Bool} {as : List α} {bs : List β}
    (h : List.Forall₂ S as bs) (hpq : ∀ a b, S a b → p a = q b) :
    Option.Rel S (as.find? p) (bs.find? q) := by
  induction h with
  | nil => exact .none
  | @cons a b as bs hab _ ih =>
    rw [List.find?_cons, List.find?_cons, hpq a b hab]
    cases q b with
    | true => exact .some hab
    | false => exact ih

/-- Related results are both there or both missing. -/
theorem rel_cases (h : Option.Rel S x y) :
    x = none ∧ y = none ∨ ∃ a b, x = some a ∧ y = some b ∧ S a b := by
  cases h with
  | none => exact .inl ⟨rfl, rfl⟩
  | some hab => exact .inr ⟨_, _, rfl, rfl, hab⟩

theorem isSome_of_rel (h : Option.Rel S x y) : x.isSome = y.isSome := by
  cases h <;> rfl

end Related

/-! ### Separators -/

theorem intercalate_cons (sep : α) (l : List α) (ls : List (List α)) :
    [sep].intercalate (l :: ls) = l ++ ls.flatMap (sep :: ·) := by
  induction ls generalizing l with
  | nil => simp
  | cons m ls ih => simp [List.intercalate_cons_cons, ih]

theorem getLast?_intercalate (sep : α) {l : List α} {ls : List (List α)}
    (hlast : (l :: ls).getLast? ≠ some []) :
    ∃ m ∈ l :: ls, ([sep].intercalate (l :: ls)).getLast? = m.getLast? ∧ m ≠ [] := by
  induction ls generalizing l with
  | nil => exact ⟨l, by simp, by simp, by simpa using hlast⟩
  | cons k ls ih =>
    obtain ⟨m, hm, hget, hne⟩ := ih (l := k) (by simpa using hlast)
    refine ⟨m, List.mem_cons_of_mem l hm, ?_, hne⟩
    rw [List.intercalate_cons_cons, List.getLast?_append, hget, List.getLast?_eq_some_getLast hne]
    simp

section Cut

variable [DecidableEq α] {sep c : α} {p w : List α} {ws : List (List α)}

theorem splitOn_cons_self (p : List α) : (sep :: p).splitOn sep = [] :: p.splitOn sep := by
  simp [List.splitOn, List.splitOnP_cons_eq_if_modifyHead]

theorem splitOn_cons_ne (hc : c ≠ sep) (h : p.splitOn sep = w :: ws) :
    (c :: p).splitOn sep = (c :: w) :: ws := by
  have hhead : (c :: p).splitOn sep = (p.splitOn sep).modifyHead (c :: ·) := by
    simp [List.splitOn, List.splitOnP_cons_eq_if_modifyHead, hc]
  rw [hhead, h, List.modifyHead_cons]

theorem exists_splitOn (sep : α) (p : List α) : ∃ w ws, p.splitOn sep = w :: ws :=
  List.exists_cons_of_ne_nil (List.splitOn_ne_nil sep p)

theorem not_mem_of_mem_splitOn (h : w ∈ p.splitOn sep) : sep ∉ w := by
  induction p generalizing w with
  | nil =>
    rw [List.splitOn_nil, List.mem_singleton] at h
    simp [h]
  | cons c p ih =>
    obtain ⟨v, vs, hv⟩ := exists_splitOn sep p
    rw [hv] at ih
    by_cases hc : c = sep
    · subst hc
      rw [splitOn_cons_self, hv] at h
      rcases List.mem_cons.mp h with rfl | h
      · exact List.not_mem_nil
      · exact ih h
    · rw [splitOn_cons_ne hc hv] at h
      rcases List.mem_cons.mp h with rfl | h
      · exact fun hmem => (List.mem_cons.mp hmem).elim (Ne.symm hc) (ih List.mem_cons_self)
      · exact ih (List.mem_cons_of_mem v h)

/-- Nothing but separators gets lost. -/
theorem mem_splitOn_of_ne (hc : c ∈ p) (hne : c ≠ sep) : ∃ l ∈ p.splitOn sep, c ∈ l := by
  obtain ⟨v, vs, hv⟩ := exists_splitOn sep p
  have hjoin : [sep].intercalate (p.splitOn sep) = p := List.intercalate_splitOn sep
  rw [hv, intercalate_cons] at hjoin
  rw [← hjoin, List.mem_append, List.mem_flatMap] at hc
  rw [hv]
  obtain hc | ⟨l, hl, hc⟩ := hc
  · exact ⟨v, List.mem_cons_self, hc⟩
  · exact ⟨l, List.mem_cons_of_mem v hl, (List.mem_cons.mp hc).resolve_left hne⟩

end Cut

end SchemaRegistry.Lib

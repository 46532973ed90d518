import Mathlib.Data.List.Nodup
import Mathlib.Data.List.Perm.Basic
import Std.Data.ExtTreeMap
import Std.Data.ExtTreeSet

/-!
Vectors kept strictly sorted by a key of their elements, with ordered insertion
and removal. With the key `id` this is a sorted set, with `Prod.fst` a sorted
association vector. The order is part of the type, so a vector is determined by
its members (`SortedVec.ext_mem`) and every operation is described by what it
does to membership.

The file also gives pairs their lexicographic order, which the standard library
provides as a definition only, and the two facts about ordered maps that listings
rest on: the key list of a map is determined by which keys it holds, and so is
the element list of a set.
-/

namespace SchemaRegistry.Lib

open Std

/-! ### The lexicographic order on pairs -/

section Pairs

variable {α β : Type} [Ord α] [Ord β]

instance instOrdPair : Ord (α × β) := lexOrd

instance instTransOrdPair [TransOrd α] [TransOrd β] : TransOrd (α × β) :=
  inferInstanceAs (TransCmp (compareLex (compareOn Prod.fst) (compareOn Prod.snd)))

instance instLawfulEqOrdPair [LawfulEqOrd α] [LawfulEqOrd β] : LawfulEqOrd (α × β) where
  compare_self := by
    intro a
    show compareLex (compareOn Prod.fst) (compareOn Prod.snd) a a = .eq
    simp [compareLex_eq_eq, compareOn]
  eq_of_compare := by
    intro a b h
    have h' : compareLex (compareOn Prod.fst) (compareOn Prod.snd) a b = .eq := h
    rw [compareLex_eq_eq] at h'
    simp only [compareOn, LawfulEqOrd.compare_eq_iff_eq] at h'
    exact Prod.ext h'.1 h'.2

end Pairs

/-! ### Sorted vectors -/

/-- A vector strictly sorted by `key`. -/
structure SortedVec (α : Type) {κ : Type} [Ord κ] (key : α → κ) where
  entries : List α
  sorted : entries.Pairwise fun a b => compare (key a) (key b) = .lt

namespace SortedVec

variable {α κ : Type} [Ord κ] {key : α → κ}

instance : Inhabited (SortedVec α key) := ⟨⟨[], .nil⟩⟩

instance [DecidableEq α] : DecidableEq (SortedVec α key) := fun v w =>
  decidable_of_iff (v.entries = w.entries)
    ⟨fun h => by cases v; cases w; simp_all, fun h => h ▸ rfl⟩

/-- Put `a` at its place, over an element with the same key if there is one. -/
def insertList (key : α → κ) (a : α) : List α → List α
  | [] => [a]
  | b :: bs =>
      match compare (key b) (key a) with
      | .lt => b :: insertList key a bs
      | .eq => a :: bs
      | .gt => a :: b :: bs

/-- Remove the element with key `k`, looking no further than its place. -/
def eraseList (key : α → κ) (k : κ) : List α → List α
  | [] => []
  | b :: bs =>
      match compare (key b) k with
      | .lt => b :: eraseList key k bs
      | .eq => bs
      | .gt => b :: bs

theorem eraseList_sublist (k : κ) (l : List α) : (eraseList key k l).Sublist l := by
  induction l with
  | nil => exact .slnil
  | cons b bs ih =>
    simp only [eraseList]
    split
    · exact ih.cons_cons b
    · exact List.sublist_cons_self b bs
    · exact List.Sublist.refl _

def erase (v : SortedVec α key) (k : κ) : SortedVec α key :=
  ⟨eraseList key k v.entries, v.sorted.sublist (eraseList_sublist k v.entries)⟩

@[simp] theorem mem_default {c : α} : c ∉ (default : SortedVec α key).entries :=
  List.not_mem_nil

/-- Two members with one key are the same member. -/
theorem eq_of_key_eq [LawfulEqOrd κ] {v : SortedVec α key} {a b : α} (ha : a ∈ v.entries)
    (hb : b ∈ v.entries) (h : key a = key b) : a = b := by
  by_contra hne
  have hp := List.pairwise_iff_getElem.mp v.sorted
  obtain ⟨i, hi, rfl⟩ := List.getElem_of_mem ha
  obtain ⟨j, hj, rfl⟩ := List.getElem_of_mem hb
  rcases Nat.lt_trichotomy i j with hij | rfl | hij
  · have := hp i j hi hj hij
    simp [h, ReflCmp.compare_self] at this
  · exact hne rfl
  · have := hp j i hj hi hij
    simp [h, ReflCmp.compare_self] at this

/-- Everything after an element whose key is above `k` is above `k`. -/
private theorem forall_above [TransOrd κ] {k : κ} {b : α} {bs : List α}
    (hb : compare k (key b) = .lt)
    (hs : ∀ c ∈ bs, compare (key b) (key c) = .lt) : ∀ c ∈ bs, compare k (key c) = .lt :=
  fun c hc => TransCmp.lt_trans hb (hs c hc)

section Laws

variable [TransOrd κ] [LawfulEqOrd κ]

theorem mem_insertList {a c : α} {l : List α}
    (hs : l.Pairwise fun a b => compare (key a) (key b) = .lt) :
    c ∈ insertList key a l ↔ c = a ∨ (c ∈ l ∧ key c ≠ key a) := by
  induction l with
  | nil => simp [insertList]
  | cons b bs ih =>
    have hrest := List.pairwise_cons.mp hs
    simp only [insertList]
    split
    · rename_i hlt
      have hne : key b ≠ key a := fun h => by simp [h, ReflCmp.compare_self] at hlt
      rw [List.mem_cons, ih hrest.2, List.mem_cons]
      constructor
      · rintro (rfl | rfl | ⟨hc, hk⟩)
        · exact .inr ⟨.inl rfl, hne⟩
        · exact .inl rfl
        · exact .inr ⟨.inr hc, hk⟩
      · rintro (rfl | ⟨rfl | hc, hk⟩)
        · exact .inr (.inl rfl)
        · exact .inl rfl
        · exact .inr (.inr ⟨hc, hk⟩)
    · rename_i heq
      have hba : key b = key a := LawfulEqOrd.compare_eq_iff_eq.mp heq
      -- An element after `b` is strictly above it, so it has another key.
      have habove : ∀ c ∈ bs, key c ≠ key a := fun c hc h => by
        have := hrest.1 c hc
        simp [hba, h, ReflCmp.compare_self] at this
      rw [List.mem_cons, List.mem_cons]
      constructor
      · rintro (rfl | hc)
        · exact .inl rfl
        · exact .inr ⟨.inr hc, habove c hc⟩
      · rintro (rfl | ⟨rfl | hc, hk⟩)
        · exact .inl rfl
        · exact absurd hba hk
        · exact .inr hc
    · rename_i hgt
      have hlt : compare (key a) (key b) = .lt := OrientedCmp.lt_of_gt hgt
      have habove : ∀ c ∈ b :: bs, key c ≠ key a := by
        intro c hc h
        rcases List.mem_cons.mp hc with rfl | hc
        · simp [h, ReflCmp.compare_self] at hlt
        · have := forall_above hlt hrest.1 c hc
          simp [h, ReflCmp.compare_self] at this
      rw [List.mem_cons]
      exact ⟨fun h => h.imp id fun hc => ⟨hc, habove c hc⟩, fun h => h.imp id And.left⟩

theorem pairwise_insertList {a : α} {l : List α}
    (hs : l.Pairwise fun a b => compare (key a) (key b) = .lt) :
    (insertList key a l).Pairwise fun a b => compare (key a) (key b) = .lt := by
  induction l with
  | nil => simp [insertList]
  | cons b bs ih =>
    have hrest := List.pairwise_cons.mp hs
    simp only [insertList]
    split
    · rename_i hlt
      refine List.pairwise_cons.mpr ⟨fun c hc => ?_, ih hrest.2⟩
      rcases (mem_insertList hrest.2).mp hc with rfl | ⟨hc, -⟩
      · exact hlt
      · exact hrest.1 c hc
    · rename_i heq
      have hba : key b = key a := LawfulEqOrd.compare_eq_iff_eq.mp heq
      exact List.pairwise_cons.mpr ⟨fun c hc => hba ▸ hrest.1 c hc, hrest.2⟩
    · rename_i hgt
      have hlt : compare (key a) (key b) = .lt := OrientedCmp.lt_of_gt hgt
      refine List.pairwise_cons.mpr ⟨fun c hc => ?_, hs⟩
      rcases List.mem_cons.mp hc with rfl | hc
      · exact hlt
      · exact forall_above hlt hrest.1 c hc

theorem mem_eraseList {k : κ} {c : α} {l : List α}
    (hs : l.Pairwise fun a b => compare (key a) (key b) = .lt) :
    c ∈ eraseList key k l ↔ c ∈ l ∧ key c ≠ k := by
  induction l with
  | nil => simp [eraseList]
  | cons b bs ih =>
    have hrest := List.pairwise_cons.mp hs
    simp only [eraseList]
    split
    · rename_i hlt
      have hne : key b ≠ k := fun h => by simp [h, ReflCmp.compare_self] at hlt
      rw [List.mem_cons, ih hrest.2, List.mem_cons]
      constructor
      · rintro (rfl | ⟨hc, hk⟩)
        · exact ⟨.inl rfl, hne⟩
        · exact ⟨.inr hc, hk⟩
      · rintro ⟨rfl | hc, hk⟩
        · exact .inl rfl
        · exact .inr ⟨hc, hk⟩
    · rename_i heq
      have hbk : key b = k := LawfulEqOrd.compare_eq_iff_eq.mp heq
      rw [List.mem_cons]
      constructor
      · intro hc
        refine ⟨.inr hc, fun h => ?_⟩
        have := hrest.1 c hc
        simp [hbk, h, ReflCmp.compare_self] at this
      · rintro ⟨rfl | hc, hk⟩
        · exact absurd hbk hk
        · exact hc
    · rename_i hgt
      have hlt : compare k (key b) = .lt := OrientedCmp.lt_of_gt hgt
      refine ⟨fun hc => ⟨hc, fun h => ?_⟩, And.left⟩
      rcases List.mem_cons.mp hc with rfl | hc
      · simp [h, ReflCmp.compare_self] at hlt
      · have := forall_above hlt hrest.1 c hc
        simp [h, ReflCmp.compare_self] at this

def insert (v : SortedVec α key) (a : α) : SortedVec α key :=
  ⟨insertList key a v.entries, pairwise_insertList v.sorted⟩

theorem mem_insert {v : SortedVec α key} {a c : α} :
    c ∈ (v.insert a).entries ↔ c = a ∨ (c ∈ v.entries ∧ key c ≠ key a) :=
  mem_insertList v.sorted

theorem mem_erase {v : SortedVec α key} {k : κ} {c : α} :
    c ∈ (v.erase k).entries ↔ c ∈ v.entries ∧ key c ≠ k :=
  mem_eraseList v.sorted

end Laws

end SortedVec

/-! ### Strictly sorted lists are determined by their members -/

section Determined

variable {α κ : Type} [Ord κ] [TransOrd κ] {key : α → κ}

theorem eq_of_sorted_of_mem_iff {l m : List α}
    (hl : l.Pairwise fun a b => compare (key a) (key b) = .lt)
    (hm : m.Pairwise fun a b => compare (key a) (key b) = .lt)
    (h : ∀ a, a ∈ l ↔ a ∈ m) : l = m := by
  have irrefl : ∀ {l : List α}, (l.Pairwise fun a b => compare (key a) (key b) = .lt) → l.Nodup :=
    fun hs => hs.imp fun {a b} hab e => by simp [e, ReflCmp.compare_self] at hab
  have hperm : l.Perm m := (List.perm_ext_iff_of_nodup (irrefl hl) (irrefl hm)).mpr h
  refine hperm.eq_of_pairwise (fun a b _ _ hab hba => ?_) hl hm
  have := TransCmp.lt_trans hab hba
  simp [ReflCmp.compare_self] at this

theorem SortedVec.ext_mem {v w : SortedVec α key} (h : ∀ a, a ∈ v.entries ↔ a ∈ w.entries) :
    v.entries = w.entries :=
  eq_of_sorted_of_mem_iff v.sorted w.sorted h

theorem keys_eq_of_mem_iff [LawfulEqOrd κ] {β γ : Type} {s : ExtTreeMap κ β} {t : ExtTreeMap κ γ}
    (h : ∀ k, k ∈ s ↔ k ∈ t) : s.keys = t.keys := by
  have hs : s.keys.Pairwise fun a b => compare (id a) (id b) = .lt := s.ordered_keys
  have ht : t.keys.Pairwise fun a b => compare (id a) (id b) = .lt := t.ordered_keys
  refine eq_of_sorted_of_mem_iff hs ht fun k => ?_
  rw [ExtTreeMap.mem_keys, ExtTreeMap.mem_keys, h]

end Determined

/-! ### Maps of sorted vectors -/

/-- A map whose values are sorted vectors; an absent key stands for the empty vector. -/
abbrev VecMap (ι : Type) [Ord ι] (α : Type) {κ : Type} [Ord κ] (key : α → κ) :=
  ExtTreeMap ι (SortedVec α key)

namespace VecMap

set_option linter.unusedSectionVars false

variable {ι α κ : Type} [Ord ι] [TransOrd ι] [LawfulEqOrd ι] [DecidableEq ι] [Ord κ] [TransOrd κ]
  [LawfulEqOrd κ] {key : α → κ}

/-- The vector under a key. -/
def vecAt (m : VecMap ι α key) (i : ι) : SortedVec α key := m[i]?.getD default

def insertAt (m : VecMap ι α key) (i : ι) (a : α) : VecMap ι α key :=
  m.insert i ((vecAt m i).insert a)

/-- Remove an element from the vector under a key; a vector that becomes empty is dropped. -/
def eraseAt (m : VecMap ι α key) (i : ι) (k : κ) : VecMap ι α key :=
  match m[i]? with
  | some v => if (v.erase k).entries.isEmpty then m.erase i else m.insert i (v.erase k)
  | none => m

theorem entries_insertAt (m : VecMap ι α key) (i j : ι) (a : α) :
    (vecAt (insertAt m i a) j).entries
      = if i = j then ((vecAt m i).insert a).entries else (vecAt m j).entries := by
  by_cases h : i = j <;> simp [vecAt, insertAt, ExtTreeMap.getElem?_insert, h]

theorem entries_eraseAt (m : VecMap ι α key) (i j : ι) (k : κ) :
    (vecAt (eraseAt m i k) j).entries
      = if i = j then ((vecAt m i).erase k).entries else (vecAt m j).entries := by
  by_cases h : i = j
  · subst h
    cases hm : m[i]? with
    | none => simp [vecAt, eraseAt, hm, SortedVec.erase, SortedVec.eraseList, default]
    | some v =>
      by_cases he : (v.erase k).entries = [] <;> simp [vecAt, eraseAt, hm, he, default]
  · cases hm : m[i]? with
    | none => simp [eraseAt, hm, h]
    | some v =>
      by_cases he : (v.erase k).entries = [] <;>
        simp [vecAt, eraseAt, hm, he, h, ExtTreeMap.getElem?_insert, ExtTreeMap.getElem?_erase]

/-- Removing without dropping what becomes empty leaves the same vectors. -/
theorem entries_modify_erase (m : VecMap ι α key) (i j : ι) (k : κ) :
    (vecAt (m.modify i fun v => v.erase k) j).entries
      = if i = j then ((vecAt m i).erase k).entries else (vecAt m j).entries := by
  by_cases h : i = j
  · subst h
    cases hm : m[i]? with
    | none =>
      simp [vecAt, hm, SortedVec.erase, SortedVec.eraseList, default]
    | some v => simp [vecAt, hm]
  · simp [vecAt, ExtTreeMap.getElem?_modify, h]

/-- No key stands for an empty vector. -/
def NoEmpty (m : VecMap ι α key) : Prop :=
  ∀ (i : ι) (v : SortedVec α key), m[i]? = some v → v.entries ≠ []

theorem NoEmpty.mem_iff {m : VecMap ι α key} (h : NoEmpty m) {i : ι} :
    i ∈ m ↔ (vecAt m i).entries ≠ [] := by
  rw [← ExtTreeMap.isSome_getElem?_iff_mem]
  cases hm : m[i]? with
  | none => simp [vecAt, hm, default]
  | some v => simpa [vecAt, hm] using h i v hm

theorem NoEmpty.insertAt {m : VecMap ι α key} (h : NoEmpty m) (i : ι) (a : α) :
    NoEmpty (VecMap.insertAt m i a) := by
  intro j v hv
  rw [VecMap.insertAt, ExtTreeMap.getElem?_insert] at hv
  split at hv
  · cases hv
    exact List.ne_nil_of_mem (SortedVec.mem_insert.mpr (.inl rfl))
  · exact h j v hv

theorem NoEmpty.eraseAt {m : VecMap ι α key} (h : NoEmpty m) (i : ι) (k : κ) :
    NoEmpty (VecMap.eraseAt m i k) := by
  intro j v hv
  cases hm : m[i]? with
  | none =>
    rw [VecMap.eraseAt, hm] at hv
    exact h j v hv
  | some u =>
    by_cases he : (u.erase k).entries = []
    · simp only [VecMap.eraseAt, hm, he, List.isEmpty_nil, if_true, ExtTreeMap.getElem?_erase] at hv
      split at hv
      · cases hv
      · exact h j v hv
    · simp only [VecMap.eraseAt, hm, List.isEmpty_iff, he, if_false,
        ExtTreeMap.getElem?_insert] at hv
      split at hv
      · cases hv
        exact he
      · exact h j v hv

end VecMap

end SchemaRegistry.Lib

import Mathlib.Data.List.Nodup
import Mathlib.Data.List.Perm.Subperm
import Mathlib.Tactic.Tauto

/-!
Layered merging. `upsert` puts an element into a list: in the place of the one with
its key, or at the end. Merging the layers `a`, `b`, `c` and then putting the result
in the place of `b` changes nothing (`upsertAll_between`), and so it is for the keys
alone (`addKeys_between`).
-/

namespace SchemaRegistry.Lib

/-! ### Keys -/

section Keys

variable {κ : Type} [DecidableEq κ] {ks ls : List κ}

/-- Add keys in order, those that are already there left out. -/
def addKeys (ks ls : List κ) : List κ := ls.foldl (fun ks k => if k ∈ ks then ks else ks ++ [k]) ks

theorem addKeys_cons (ks : List κ) (l : κ) (ls : List κ) :
    addKeys ks (l :: ls) = addKeys (if l ∈ ks then ks else ks ++ [l]) ls := rfl

theorem addKeys_append (ms : List κ) : addKeys ks (ls ++ ms) = addKeys (addKeys ks ls) ms :=
  List.foldl_append

theorem prefix_addKeys : ks <+: addKeys ks ls := by
  induction ls generalizing ks with
  | nil => exact List.prefix_refl ks
  | cons k ls ih =>
    rw [addKeys_cons]
    refine List.IsPrefix.trans ?_ ih
    split
    · exact List.prefix_refl ks
    · exact List.prefix_append ks [k]

theorem subset_addKeys_right : ls ⊆ addKeys ks ls := by
  induction ls generalizing ks with
  | nil => exact List.nil_subset _
  | cons k ls ih =>
    rw [addKeys_cons]
    refine List.cons_subset.mpr ⟨prefix_addKeys.subset ?_, ih⟩
    split
    · assumption
    · exact List.mem_append_right ks List.mem_cons_self

theorem mem_addKeys {k : κ} : k ∈ addKeys ks ls ↔ k ∈ ks ∨ k ∈ ls := by
  constructor
  · intro h
    induction ls generalizing ks with
    | nil => exact .inl h
    | cons l ls ih =>
      rcases ih (addKeys_cons ks l ls ▸ h) with h | h
      · split at h
        · exact .inl h
        · rcases List.mem_append.mp h with h | h
          · exact .inl h
          · exact .inr (List.mem_singleton.mp h ▸ List.mem_cons_self)
      · exact .inr (List.mem_cons_of_mem l h)
  · rintro (h | h)
    · exact prefix_addKeys.subset h
    · exact subset_addKeys_right h

theorem nodup_addKeys (h : ks.Nodup) : (addKeys ks ls).Nodup := by
  induction ls generalizing ks with
  | nil => exact h
  | cons k ls ih =>
    rw [addKeys_cons]
    refine ih ?_
    split
    · exact h
    · next hk => exact List.nodup_append_comm.mp (List.nodup_cons.mpr ⟨hk, h⟩)

/-- The keys there are no more than anything that holds them all. -/
theorem length_addKeys_le {ms : List κ} (h : ls ⊆ ms) : (addKeys [] ls).length ≤ ms.length := by
  refine (List.subperm_of_subset (nodup_addKeys List.nodup_nil) fun k hk => ?_).length_le
  exact h ((mem_addKeys.mp hk).resolve_left List.not_mem_nil)

theorem addKeys_of_subset (h : ls ⊆ ks) : addKeys ks ls = ks := by
  induction ls with
  | nil => rfl
  | cons k ls ih =>
    obtain ⟨hk, hls⟩ := List.cons_subset.mp h
    rw [addKeys_cons, if_pos hk]
    exact ih hls

theorem addKeys_of_disjoint (h : (ks ++ ls).Nodup) : addKeys ks ls = ks ++ ls := by
  induction ls generalizing ks with
  | nil => simp [addKeys]
  | cons k ls ih =>
    have hk : k ∉ ks := fun hmem => (List.disjoint_of_nodup_append h) hmem List.mem_cons_self
    have hassoc : ks ++ k :: ls = ks ++ [k] ++ ls := by simp
    rw [addKeys_cons, if_neg hk]
    rw [hassoc] at h ⊢
    exact ih h

/-- Keys that start with those already there come out as they are. -/
theorem addKeys_of_isPrefix (h : ks <+: ls) (hls : ls.Nodup) : addKeys ks ls = ls := by
  obtain ⟨rest, rfl⟩ := h
  rw [addKeys_append, addKeys_of_subset (List.Subset.refl ks), addKeys_of_disjoint hls]

theorem addKeys_between (as bs cs : List κ) :
    let merged := addKeys (addKeys (addKeys [] as) bs) cs
    addKeys (addKeys (addKeys [] as) merged) cs = merged := by
  intro merged
  have hnodup : merged.Nodup := nodup_addKeys (nodup_addKeys (nodup_addKeys List.nodup_nil))
  have hfront : addKeys [] as <+: merged := prefix_addKeys.trans prefix_addKeys
  rw [addKeys_of_isPrefix hfront hnodup]
  exact addKeys_of_subset subset_addKeys_right

end Keys

/-! ### Elements under their keys -/

section Last

variable {α κ : Type} {key : α → κ} {as : List α} {a x : α}

/-- The last element of a list with its key. -/
def IsLast (key : α → κ) (as : List α) (x : α) : Prop :=
  ∃ before after, as = before ++ x :: after ∧ key x ∉ after.map key

theorem isLast_nil : ¬ IsLast key [] x := by
  rintro ⟨before, after, h, -⟩
  simp at h

theorem isLast_cons :
    IsLast key (a :: as) x ↔ x = a ∧ key x ∉ as.map key ∨ IsLast key as x := by
  constructor
  · rintro ⟨before, after, hsplit, hnot⟩
    cases before with
    | nil =>
      obtain ⟨rfl, rfl⟩ := List.cons.inj hsplit
      exact .inl ⟨rfl, hnot⟩
    | cons b before =>
      obtain ⟨rfl, rfl⟩ := List.cons.inj hsplit
      exact .inr ⟨before, after, rfl, hnot⟩
  · rintro (⟨rfl, hnot⟩ | ⟨before, after, rfl, hnot⟩)
    · exact ⟨[], as, rfl, hnot⟩
    · exact ⟨a :: before, after, rfl, hnot⟩

theorem IsLast.mem (h : IsLast key as x) : x ∈ as := by
  obtain ⟨before, after, rfl, -⟩ := h
  exact List.mem_append_right before List.mem_cons_self

/-- Lists without repeated keys are equal if they have the same keys in the same order and one
has every element of the other. -/
theorem eq_of_map_key_eq {l m : List α} (hm : (m.map key).Nodup) (hkeys : l.map key = m.map key)
    (hsub : l ⊆ m) : l = m := by
  induction l generalizing m with
  | nil => exact (List.map_eq_nil_iff.mp hkeys.symm).symm
  | cons x l ih =>
    cases m with
    | nil => cases hkeys
    | cons y m =>
      simp only [List.map_cons, List.cons.injEq] at hkeys
      obtain ⟨hxy, hrest⟩ := hkeys
      obtain ⟨hy, hnodup⟩ := List.nodup_cons.mp hm
      have hx : x = y := by
        rcases List.mem_cons.mp (hsub List.mem_cons_self) with hx | hx
        · exact hx
        · exact (hy (hxy ▸ List.mem_map_of_mem hx)).elim
      subst hx
      refine congrArg (x :: ·) (ih hnodup hrest fun z hz => ?_)
      rcases List.mem_cons.mp (hsub (List.mem_cons_of_mem x hz)) with rfl | hz'
      · exact (hy (hrest ▸ List.mem_map_of_mem hz)).elim
      · exact hz'

end Last

section Upsert

variable {α κ : Type} [DecidableEq κ] (key : α → κ)

/-- An element takes the place of those with its key, or goes to the end. -/
def upsert (l : List α) (a : α) : List α :=
  if l.any (key · == key a) then l.map fun x => if key x == key a then a else x else l ++ [a]

def upsertAll (l as : List α) : List α := as.foldl (upsert key) l

variable {key} {l as : List α} {a x : α}

theorem any_key : l.any (key · == key a) = true ↔ key a ∈ l.map key := by
  simp only [List.any_eq_true, beq_iff_eq, List.mem_map]

theorem map_key_upsert : (upsert key l a).map key
    = if key a ∈ l.map key then l.map key else l.map key ++ [key a] := by
  unfold upsert
  by_cases h : key a ∈ l.map key
  · rw [if_pos (any_key.mpr h), if_pos h, List.map_map]
    refine List.map_congr_left fun x _ => ?_
    by_cases hx : key x = key a <;> simp [hx]
  · rw [if_neg (mt any_key.mp h), if_neg h, List.map_append, List.map_singleton]

theorem mem_upsert : x ∈ upsert key l a ↔ x = a ∨ x ∈ l ∧ key x ≠ key a := by
  unfold upsert
  by_cases h : key a ∈ l.map key
  · rw [if_pos (any_key.mpr h), List.mem_map]
    constructor
    · rintro ⟨y, hy, rfl⟩
      by_cases hk : key y = key a <;> simp [hk, hy]
    · rintro (rfl | ⟨hx, hk⟩)
      · obtain ⟨y, hy, hk⟩ := List.mem_map.mp h
        exact ⟨y, hy, by simp [hk]⟩
      · exact ⟨x, hx, by simp [hk]⟩
  · rw [if_neg (mt any_key.mp h), List.mem_append, List.mem_singleton, or_comm]
    refine or_congr_right ⟨fun hx => ⟨hx, fun hk => h ?_⟩, And.left⟩
    exact hk ▸ List.mem_map_of_mem hx

theorem map_key_upsertAll : (upsertAll key l as).map key = addKeys (l.map key) (as.map key) := by
  induction as generalizing l with
  | nil => rfl
  | cons a as ih =>
    refine Eq.trans ih ?_
    rw [map_key_upsert]
    rfl

/-- What is in the merged list: the last ones that came in, and what none of them displaced. -/
theorem mem_upsertAll :
    x ∈ upsertAll key l as ↔ IsLast key as x ∨ x ∈ l ∧ key x ∉ as.map key := by
  induction as generalizing l with
  | nil => simp [upsertAll, isLast_nil]
  | cons a as ih =>
    rw [upsertAll, List.foldl_cons, ← upsertAll, ih, isLast_cons, mem_upsert, List.map_cons,
      List.mem_cons]
    tauto

/-- Merging the layers `a`, `b`, `c`, and then merging the result between `a` and `c`, gives
the result again. -/
theorem upsertAll_between (as bs cs : List α) :
    let merged := upsertAll key (upsertAll key (upsertAll key [] as) bs) cs
    upsertAll key (upsertAll key (upsertAll key [] as) merged) cs = merged := by
  intro merged
  have hkeys : merged.map key
      = addKeys (addKeys (addKeys [] (as.map key)) (bs.map key)) (cs.map key) := by
    simp only [merged, map_key_upsertAll, List.map_nil]
  have hnodup : (merged.map key).Nodup :=
    hkeys ▸ nodup_addKeys (nodup_addKeys (nodup_addKeys List.nodup_nil))
  refine eq_of_map_key_eq hnodup ?_ fun x hx => ?_
  · simp only [map_key_upsertAll, List.map_nil, hkeys]
    exact addKeys_between _ _ _
  · rcases mem_upsertAll.mp hx with hlast | ⟨hx, -⟩
    · exact mem_upsertAll.mpr (.inl hlast)
    · rcases mem_upsertAll.mp hx with hlast | ⟨hx, hnot⟩
      · exact hlast.mem
      · -- An element of the first layer has its key in the merged list.
        have hmem : key x ∈ (upsertAll key [] as).map key := List.mem_map_of_mem hx
        rw [map_key_upsertAll, List.map_nil] at hmem
        exact (hnot (hkeys ▸ (prefix_addKeys.trans prefix_addKeys).subset hmem)).elim

end Upsert

end SchemaRegistry.Lib

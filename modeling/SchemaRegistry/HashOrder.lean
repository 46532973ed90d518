import Mathlib.Algebra.Group.Nat.Defs
import SchemaRegistry.Lib.Chained
import SchemaRegistry.Schema.JavaOrder

/-!
The order given for a Java set is the one in which a chained hash table iterates that starts with
sixteen buckets and doubles as it fills up.
-/

namespace SchemaRegistry

open Lib

/-- A mask of low bits that is cut to a word still gives the remainder. -/
theorem toNat_and_mask (h : UInt32) (i : Nat) :
    (h &&& UInt32.ofNat (2 ^ i - 1)).toNat = h.toNat % 2 ^ i := by
  have hword : (2 ^ i - 1) % 2 ^ 32 = (2 ^ i - 1) &&& (2 ^ 32 - 1) :=
    (Nat.and_two_pow_sub_one_eq_mod _ 32).symm
  have hlt : h.toNat % 2 ^ i < 2 ^ 32 := Nat.lt_of_le_of_lt (Nat.mod_le _ _) h.toNat_lt
  rw [UInt32.toNat_and, UInt32.toNat_ofNat', hword, ← Nat.and_assoc, Nat.and_two_pow_sub_one_eq_mod,
    Nat.and_two_pow_sub_one_eq_mod, Nat.mod_eq_of_lt hlt]

section Order

variable {K : Type} [DecidableEq K] (hash : K → UInt32)

/-- The number whose remainder is the bucket of a key. -/
def spreadNat (k : K) : Nat := (spread (hash k)).toNat

variable {hash}

omit [DecidableEq K] in
/-- Keys by their bucket are the keys of a chained table as it iterates. -/
theorem byBucket_eq_iterate (i : Nat) (keys : List K) :
    byBucket hash (2 ^ i) keys = (Chained.ofKeys (spreadNat hash) (2 ^ i) keys).iterate := by
  have hbucket : ∀ k, (spread (hash k) &&& UInt32.ofNat (2 ^ i - 1)).toNat
      = spreadNat hash k % 2 ^ i := fun k => toNat_and_mask _ i
  have hlt : ∀ k ∈ keys, spreadNat hash k % 2 ^ i < 2 ^ i :=
    fun k _ => Nat.mod_lt _ (Nat.two_pow_pos i)
  rw [byBucket, sort_eq_flatMap (fun k => spreadNat hash k % 2 ^ i) hlt]
  · rfl
  · intro a b
    rw [Before, ← hbucket, ← hbucket, UInt32.lt_iff_toNat_lt, ← UInt32.toNat_inj]

/-- The set stands for the chained table of its keys and capacity. -/
structure JavaSet.Refines (s : JavaSet K) (t : Chained K) (hash : K → UInt32) : Prop where
  power : ∃ i, 4 ≤ i ∧ s.cap = 2 ^ i
  table : t = Chained.ofKeys (spreadNat hash) s.cap s.keys
  nodup : s.keys.Nodup

theorem JavaSet.Refines.insert {s : JavaSet K} {t : Chained K} (h : s.Refines t hash) (k : K) :
    (s.insert k).Refines (t.insert (spreadNat hash) k) hash := by
  obtain ⟨⟨i, hi, hcap⟩, rfl, hnodup⟩ := h
  have hpos : 0 < s.cap := hcap ▸ Nat.two_pow_pos i
  -- three quarters of the capacity is a whole number
  have hquarter : ∀ len, s.cap * 3 / 4 < len ↔ 3 * s.cap < 4 * len := by
    intro len
    obtain ⟨q, hq⟩ : 4 ∣ s.cap := hcap ▸ Nat.pow_dvd_pow 2 (by omega : 2 ≤ i)
    omega
  rw [Chained.insert_ofKeys hpos, JavaSet.insert]
  split
  · exact ⟨⟨i, hi, hcap⟩, rfl, hnodup⟩
  · rename_i hnew
    simp only [hquarter]
    refine ⟨?_, rfl, ?_⟩
    · split
      · exact ⟨i + 1, by omega, by rw [hcap, Nat.pow_succ]⟩
      · exact ⟨i, hi, hcap⟩
    · rw [List.nodup_append]
      refine ⟨hnodup, List.nodup_singleton k, fun a ha b hb => ?_⟩
      rw [List.mem_singleton.mp hb]
      rintro rfl
      exact hnew ha

theorem JavaSet.Refines.extend {s : JavaSet K} {t : Chained K} (h : s.Refines t hash)
    (items : List K) :
    (s.extend items).Refines (items.foldl (Chained.insert (spreadNat hash)) t) hash := by
  induction items generalizing s t with
  | nil => exact h
  | cons k items ih => exact ih (h.insert k)

omit [DecidableEq K] in
theorem refines_empty (hash : K → UInt32) : ({} : JavaSet K).Refines (Chained.empty 16) hash :=
  ⟨⟨4, Nat.le_refl 4, rfl⟩, Chained.empty_eq_ofKeys 16, List.nodup_nil⟩

end Order

/-- A set filled with any keys is listed as the chained table filled with them is: each key once. -/
theorem ordered_eq_iterate {K : Type} [DecidableEq K] (hash : K → UInt32) (items : List K) :
    (({} : JavaSet K).extend items).ordered hash
      = (items.foldl (Chained.insert (spreadNat hash)) (Chained.empty 16)).iterate ∧
    ((({} : JavaSet K).extend items).ordered hash).Nodup ∧
    ∀ k, k ∈ (({} : JavaSet K).extend items).ordered hash ↔ k ∈ items := by
  obtain ⟨⟨i, -, hcap⟩, htable, hnodup⟩ := (refines_empty hash).extend items
  refine ⟨?_, ?_, fun k => ?_⟩
  · rw [JavaSet.ordered, htable, hcap]
    exact byBucket_eq_iterate i _
  · exact (byBucket_perm _ _).nodup_iff.mpr hnodup
  · rw [JavaSet.ordered, mem_byBucket, JavaSet.mem_keys_extend]
    simp

end SchemaRegistry

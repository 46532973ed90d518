import Mathlib.Data.List.Sort
import Mathlib.Data.List.Range

/-!
Hash tables with chained buckets. A new key goes to the tail of its bucket; a table that gets too
full doubles, and each bucket is split in two with the keys in the order they had. Whatever the
resizes, a table holds its keys as if they had been filled into it in its present size
(`insert_ofKeys`), so that it lists them by bucket and, in one bucket, as they came
(`sort_eq_flatMap`).
-/

namespace SchemaRegistry.Lib

variable {K : Type}

/-- The buckets and the number of keys in them. -/
structure Chained (K : Type) where
  buckets : List (List K)
  size : Nat

namespace Chained

section Table

variable (hash : K → Nat)

def empty (cap : Nat) : Chained K := ⟨List.replicate cap [], 0⟩

def cap (t : Chained K) : Nat := t.buckets.length

/-- The bucket a key belongs to. -/
def slot (t : Chained K) (k : K) : Nat := hash k % t.cap

/-- Append a key at the tail of its bucket. -/
def append (t : Chained K) (k : K) : Chained K :=
  ⟨t.buckets.modify (t.slot hash k) (· ++ [k]), t.size + 1⟩

/-- Twice as many buckets: of each, one half stays and the other goes as far up as the table was
long. -/
def double (t : Chained K) : Chained K :=
  ⟨(t.buckets.map (·.filter fun k => hash k / t.cap % 2 = 0))
    ++ t.buckets.map (·.filter fun k => hash k / t.cap % 2 = 1), t.size⟩

/-- A key that is not there is appended; a table filled to more than three quarters doubles. -/
def insert [DecidableEq K] (t : Chained K) (k : K) : Chained K :=
  if k ∈ t.buckets.getD (t.slot hash k) [] then t
  else
    let t' := t.append hash k
    if 3 * t'.cap < 4 * t'.size then t'.double hash else t'

/-- The keys in the order of iteration. -/
def iterate (t : Chained K) : List K := t.buckets.flatten

/-- The table of a capacity with some keys in it. -/
def ofKeys (cap : Nat) (keys : List K) : Chained K :=
  ⟨(List.range cap).map fun b => keys.filter fun k => hash k % cap = b, keys.length⟩

variable {hash} {n : Nat} {keys : List K}

theorem empty_eq_ofKeys (n : Nat) : (empty n : Chained K) = ofKeys hash n [] := by
  simp [empty, ofKeys]

@[simp] theorem size_ofKeys : (ofKeys hash n keys).size = keys.length := rfl

@[simp] theorem cap_ofKeys : (ofKeys hash n keys).cap = n := by simp [cap, ofKeys]

theorem getD_ofKeys {b : Nat} (hb : b < n) :
    (ofKeys hash n keys).buckets.getD b [] = keys.filter fun k => hash k % n = b := by
  simp [ofKeys, List.getD_eq_getElem?_getD, hb]

theorem append_ofKeys (k : K) :
    (ofKeys hash n keys).append hash k = ofKeys hash n (keys ++ [k]) := by
  have hbuckets : (ofKeys hash n keys).buckets.modify (hash k % n) (· ++ [k])
      = (ofKeys hash n (keys ++ [k])).buckets := by
    refine List.ext_getElem? fun b => ?_
    rw [List.getElem?_modify]
    by_cases hb : b < n
    · by_cases hslot : hash k % n = b <;> simp [ofKeys, hb, hslot, List.filter_append]
    · simp [ofKeys, hb]
  rw [append, slot, cap_ofKeys, hbuckets]
  simp [ofKeys]

/-- The low half of a bucket stays, the high half moves up. -/
theorem mod_mul_two {h b : Nat} (hb : b < n) :
    (h % (n * 2) = b ↔ h % n = b ∧ h / n % 2 = 0) ∧
    (h % (n * 2) = n + b ↔ h % n = b ∧ h / n % 2 = 1) := by
  have hsplit := Nat.mod_mul (x := h) (a := n) (b := 2)
  have hrem : h % n < n := Nat.mod_lt _ (by omega)
  have hbit : h / n % 2 = 0 ∨ h / n % 2 = 1 := by omega
  rw [hsplit]
  rcases hbit with hbit | hbit <;> rw [hbit] <;> omega

theorem double_ofKeys : (ofKeys hash n keys).double hash = ofKeys hash (n * 2) keys := by
  have hbuckets : (ofKeys hash n keys).buckets.map (·.filter fun k => hash k / n % 2 = 0)
      ++ (ofKeys hash n keys).buckets.map (·.filter fun k => hash k / n % 2 = 1)
      = (ofKeys hash (n * 2) keys).buckets := by
    rw [ofKeys, ofKeys, Nat.mul_two, List.range_add, List.map_append, List.map_map, List.map_map,
      List.map_map]
    congr 1
    · refine List.map_congr_left fun b hb => ?_
      have hmod := fun h => (mod_mul_two (h := h) (List.mem_range.mp hb)).1
      simp only [Function.comp_apply, List.filter_filter, ← Nat.mul_two, hmod]
      simp [Bool.and_comm]
    · refine List.map_congr_left fun b hb => ?_
      have hmod := fun h => (mod_mul_two (h := h) (List.mem_range.mp hb)).2
      simp only [Function.comp_apply, List.filter_filter, ← Nat.mul_two, hmod]
      simp [Bool.and_comm]
  rw [double, cap_ofKeys, hbuckets]
  rfl

/-- The table stays the one of its keys. -/
theorem insert_ofKeys [DecidableEq K] (hn : 0 < n) (k : K) :
    (ofKeys hash n keys).insert hash k
      = if k ∈ keys then ofKeys hash n keys
        else ofKeys hash (if 3 * n < 4 * (keys ++ [k]).length then n * 2 else n) (keys ++ [k]) := by
  have hmem : k ∈ (ofKeys hash n keys).buckets.getD ((ofKeys hash n keys).slot hash k) []
      ↔ k ∈ keys := by
    rw [slot, cap_ofKeys, getD_ofKeys (Nat.mod_lt _ hn), List.mem_filter]
    simp
  rw [insert]
  simp only [hmem, append_ofKeys, cap_ofKeys, size_ofKeys, double_ofKeys]
  split
  · rfl
  · split <;> rfl

end Table

end Chained

/-! ### Sorting by bucket -/

section Sorted

variable {α : Type}

/-- The elements bucket by bucket are all the elements. -/
theorem flatMap_filter_perm (g : α → Nat) (xs : List α) (n : Nat) :
    ((List.range n).flatMap fun b => xs.filter fun x => g x = b).Perm
      (xs.filter fun x => g x < n) := by
  induction n with
  | zero => simp
  | succ n ih =>
    rw [List.range_succ, List.flatMap_append]
    have hlow : (xs.filter fun x => g x < n + 1).filter (fun x => g x < n)
        = xs.filter fun x => g x < n := by
      rw [List.filter_filter]
      refine List.filter_congr fun x _ => ?_
      rw [Bool.eq_iff_iff]
      simp
      omega
    have hhigh : (xs.filter fun x => g x < n + 1).filter (fun x => !decide (g x < n))
        = xs.filter fun x => g x = n := by
      rw [List.filter_filter]
      refine List.filter_congr fun x _ => ?_
      rw [Bool.eq_iff_iff]
      simp
      omega
    have hparts := List.filter_append_perm (fun x => decide (g x < n))
      (xs.filter fun x => g x < n + 1)
    rw [hlow, hhigh] at hparts
    refine List.Perm.trans ?_ hparts
    simpa using ih.append_right _

variable (g : K → Nat)

/-- Earlier in the order: in a lower bucket, or before in the same one. -/
def Before (a b : K × Nat) : Prop := g a.1 < g b.1 ∨ g a.1 = g b.1 ∧ a.2 ≤ b.2

instance : IsTrans (K × Nat) (Before g) := ⟨fun a b c hab hbc => by unfold Before at *; omega⟩

instance : Std.Total (Before g) := ⟨fun a b => by unfold Before; omega⟩

theorem pairwise_zipIdx (keys : List K) : keys.zipIdx.Pairwise fun a b => a.2 < b.2 := by
  rw [← List.pairwise_map, List.zipIdx_map_snd]
  exact List.pairwise_lt_range'

/-- Sorted by bucket, and in one bucket as they stood, elements come bucket by bucket. -/
theorem sort_eq_flatMap {keys : List K} {n : Nat} (hg : ∀ k ∈ keys, g k < n)
    (r : K × Nat → K × Nat → Prop) [DecidableRel r] (hr : ∀ a b, r a b ↔ Before g a b) :
    (keys.zipIdx.insertionSort r).map Prod.fst
      = (List.range n).flatMap fun b => keys.filter fun k => g k = b := by
  obtain rfl : r = Before g := funext fun a => funext fun b => propext (hr a b)
  have hall : (keys.zipIdx.filter fun p => g p.1 < n) = keys.zipIdx := by
    refine List.filter_eq_self.mpr fun p hp => ?_
    simpa using hg p.1 (List.fst_mem_of_mem_zipIdx hp)
  have hperm := flatMap_filter_perm (fun p : K × Nat => g p.1) keys.zipIdx n
  rw [hall] at hperm
  have hsorted : keys.zipIdx.insertionSort (Before g)
      = (List.range n).flatMap fun b => keys.zipIdx.filter fun p => g p.1 = b := by
    refine List.Perm.eq_of_pairwise ?_ (List.pairwise_insertionSort (Before g) _) ?_
      ((List.perm_insertionSort _ _).trans hperm.symm)
    · intro a b ha hb hab hba
      have hidx : a.2 = b.2 := by
        unfold Before at hab hba
        omega
      have hka := List.mk_mem_zipIdx_iff_getElem?.mp ((List.mem_insertionSort _).mp ha)
      have hkb := List.mk_mem_zipIdx_iff_getElem?.mp (hperm.mem_iff.mp hb)
      rw [hidx, hkb] at hka
      exact Prod.ext (Option.some.inj hka).symm hidx
    · rw [List.pairwise_flatMap]
      constructor
      · intro b _
        refine ((pairwise_zipIdx keys).filter _).imp_of_mem fun ha hb hlt => ?_
        have hga := (List.mem_filter.mp ha).2
        have hgb := (List.mem_filter.mp hb).2
        simp only [decide_eq_true_eq] at hga hgb
        exact .inr ⟨hga.trans hgb.symm, Nat.le_of_lt hlt⟩
      · refine List.pairwise_lt_range.imp fun hlt x hx y hy => .inl ?_
        have hgx := (List.mem_filter.mp hx).2
        have hgy := (List.mem_filter.mp hy).2
        simp only [decide_eq_true_eq] at hgx hgy
        omega
  rw [hsorted, List.map_flatMap]
  congr 1
  funext b
  have hfst : keys.zipIdx.map Prod.fst = keys := List.zipIdx_map_fst 0 keys
  conv_rhs => rw [← hfst, List.filter_map]
  rfl

end Sorted

end SchemaRegistry.Lib

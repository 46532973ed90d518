import Mathlib.Data.List.Sort

/-!
The order in which Java's hash tables iterate over their keys, which some answers follow. A key's
bucket is its spread hash modulo the capacity of the table; keys that share a bucket keep the order
they came in.
-/

namespace SchemaRegistry

/-- The UTF-16 code units of a character. -/
def utf16Units (c : Char) : List UInt32 :=
  if c.val < 0x10000 then [c.val]
  else [(0xd800 : UInt32) + ((c.val - 0x10000) >>> 10),
    (0xdc00 : UInt32) + ((c.val - 0x10000) &&& 0x3ff)]

/-- `String#hashCode`, as the bits of an `i32`. -/
def javaHash (s : String) : UInt32 :=
  (s.toList.flatMap utf16Units).foldl (fun h u => h * 31 + u) 0

def spread (h : UInt32) : UInt32 := h ^^^ (h >>> 16)

section Order

variable {K : Type} [DecidableEq K] (hash : K → UInt32)

/-- A `ConcurrentHashMap` that takes a key: it doubles as soon as three quarters are taken. -/
def chmInsert (table : List K × Nat) (k : K) : List K × Nat :=
  if k ∈ table.1 then table
  else
    let seen := table.1 ++ [k]
    (seen, if table.2 * 3 / 4 ≤ seen.length then table.2 * 2 else table.2)

/-- The keys by their bucket, those of one bucket as they came. -/
def byBucket (cap : Nat) (keys : List K) : List K :=
  let bucket (k : K) : UInt32 := spread (hash k) &&& UInt32.ofNat (cap - 1)
  (keys.zipIdx.insertionSort fun a b =>
    bucket a.1 < bucket b.1 ∨ bucket a.1 = bucket b.1 ∧ a.2 ≤ b.2).map Prod.fst

/-- Iteration order of a `ConcurrentHashMap` filled by `put` in the given order. -/
def chmOrder (keys : List K) : List K :=
  let table := keys.foldl chmInsert ([], 16)
  byBucket hash table.2 table.1

/-- A `HashSet` or `HashMap`, by its keys as they came and the capacity of its table. -/
structure JavaSet (K : Type) where
  keys : List K := []
  cap : Nat := 16

namespace JavaSet

def insert (s : JavaSet K) (k : K) : JavaSet K :=
  if k ∈ s.keys then s
  else
    let keys := s.keys ++ [k]
    ⟨keys, if s.cap * 3 / 4 < keys.length then s.cap * 2 else s.cap⟩

def extend (s : JavaSet K) (items : List K) : JavaSet K := items.foldl insert s

/-- `new HashSet<>(collection)`. -/
def fromCollection (items : List K) : JavaSet K :=
  extend { cap := (max (items.length * 4 / 3 + 1) 16).nextPowerOfTwo } items

/-- Iteration order. -/
def ordered (s : JavaSet K) : List K := byBucket hash s.cap s.keys

end JavaSet

/-- Iteration order of a `HashMap` filled by `put` in the given order. -/
def mapOrder (keys : List K) : List K := (({} : JavaSet K).extend keys).ordered hash

/-- Order of a `HashSet` of the keys of one map that takes those of another. -/
def unionOrder (a b : List K) : List K :=
  ((JavaSet.fromCollection (mapOrder hash a)).extend (mapOrder hash b)).ordered hash

variable {hash}

omit [DecidableEq K] in
theorem byBucket_perm (cap : Nat) (keys : List K) : (byBucket hash cap keys).Perm keys := by
  have hperm := (List.perm_insertionSort (fun a b : K × Nat =>
    spread (hash a.1) &&& UInt32.ofNat (cap - 1) < spread (hash b.1) &&& UInt32.ofNat (cap - 1) ∨
    spread (hash a.1) &&& UInt32.ofNat (cap - 1) = spread (hash b.1) &&& UInt32.ofNat (cap - 1) ∧
      a.2 ≤ b.2) keys.zipIdx).map Prod.fst
  rw [List.zipIdx_map_fst] at hperm
  exact hperm

omit [DecidableEq K] in
theorem mem_byBucket {cap : Nat} {keys : List K} {k : K} : k ∈ byBucket hash cap keys ↔ k ∈ keys :=
  (byBucket_perm cap keys).mem_iff

theorem mem_foldl_chmInsert {keys : List K} {table : List K × Nat} {k : K} :
    k ∈ (keys.foldl chmInsert table).1 ↔ k ∈ table.1 ∨ k ∈ keys := by
  induction keys generalizing table with
  | nil => simp
  | cons x keys ih =>
    rw [List.foldl_cons, ih, List.mem_cons, ← or_assoc]
    refine or_congr_left ?_
    unfold chmInsert
    split
    · next hx =>
        constructor
        · exact .inl
        · rintro (h | rfl)
          · exact h
          · exact hx
    · simp

/-- The order has the keys it is an order of. -/
theorem mem_chmOrder {keys : List K} {k : K} : k ∈ chmOrder hash keys ↔ k ∈ keys := by
  simp [chmOrder, mem_byBucket, mem_foldl_chmInsert]

theorem nodup_foldl_chmInsert {keys : List K} {table : List K × Nat} (h : table.1.Nodup) :
    (keys.foldl chmInsert table).1.Nodup := by
  induction keys generalizing table with
  | nil => exact h
  | cons x keys ih =>
    refine ih ?_
    unfold chmInsert
    split
    · exact h
    · next hx => exact List.nodup_append.mpr ⟨h, List.nodup_singleton x, by
        rintro a ha b hb rfl
        exact hx (List.mem_singleton.mp hb ▸ ha)⟩

/-- Each key once. -/
theorem nodup_chmOrder (keys : List K) : (chmOrder hash keys).Nodup :=
  (byBucket_perm _ _).nodup_iff.mpr (nodup_foldl_chmInsert List.nodup_nil)

theorem JavaSet.mem_keys_extend {s : JavaSet K} {items : List K} {k : K} :
    k ∈ (s.extend items).keys ↔ k ∈ s.keys ∨ k ∈ items := by
  induction items generalizing s with
  | nil => simp [JavaSet.extend]
  | cons x items ih =>
    rw [JavaSet.extend, List.foldl_cons]
    refine ih.trans ?_
    rw [List.mem_cons, ← or_assoc]
    refine or_congr_left ?_
    unfold JavaSet.insert
    split
    · next hx =>
        constructor
        · exact .inl
        · rintro (h | rfl)
          · exact h
          · exact hx
    · simp

theorem mem_mapOrder {keys : List K} {k : K} : k ∈ mapOrder hash keys ↔ k ∈ keys := by
  simp [mapOrder, JavaSet.ordered, mem_byBucket, JavaSet.mem_keys_extend]

theorem mem_unionOrder {a b : List K} {k : K} : k ∈ unionOrder hash a b ↔ k ∈ a ∨ k ∈ b := by
  simp [unionOrder, JavaSet.ordered, mem_byBucket, JavaSet.fromCollection,
    JavaSet.mem_keys_extend, mem_mapOrder]

end Order

example : javaHash "hello" = 99162322 := by decide
example : chmOrder id [17, 1, 2] = [17, 1, 2] := by decide
example : mapOrder id [3, 1, 2] = [1, 2, 3] := by decide

end SchemaRegistry

import Mathlib.Algebra.Group.Nat.Defs
import Mathlib.Data.List.Basic
import Mathlib.Data.List.Infix
import Mathlib.Data.List.TakeWhile
import Mathlib.Data.Nat.Basic
import Std.Data.ExtTreeMap

/-!
Byte strings as the keys of an ordered store: big-endian numbers, UTF-8 text,
fields ended by a separator, and scans over the keys that start with a given
byte string.
-/

namespace SchemaRegistry.Lib

open Std

abbrev Bytes := List UInt8

/-! ### Fields ended by a separator -/

section Separator

variable {α : Type} [DecidableEq α] {sep : α}

/-- What stands before and after the first `sep`, if there is one. -/
def splitOnce (sep : α) (l : List α) : Option (List α × List α) :=
  match l.dropWhile (· != sep) with
  | [] => none
  | _ :: after => some (l.takeWhile (· != sep), after)

theorem all_ne_of_not_mem {l : List α} (h : sep ∉ l) : ∀ a ∈ l, (a != sep) = true := by
  intro a ha
  have : a ≠ sep := fun e => h (e ▸ ha)
  simpa using this

theorem splitOnce_append {l : List α} (h : sep ∉ l) (r : List α) :
    splitOnce sep (l ++ sep :: r) = some (l, r) := by
  have hl := all_ne_of_not_mem h
  simp [splitOnce, List.dropWhile_append_of_pos hl, List.takeWhile_append_of_pos hl]

theorem splitOnce_eq_some_iff {l before after : List α} :
    splitOnce sep l = some (before, after) ↔ l = before ++ sep :: after ∧ sep ∉ before := by
  constructor
  · intro h
    have hl := l.takeWhile_append_dropWhile (p := (· != sep))
    unfold splitOnce at h
    split at h
    · cases h
    · next x rest hdrop =>
        cases h
        have hx : x = sep := by
          have hhead := List.head_dropWhile_not (· != sep) (l := l) (by rw [hdrop]; simp)
          simpa [hdrop] using hhead
        rw [hdrop, hx] at hl
        refine ⟨hl.symm, fun hmem => ?_⟩
        simpa using List.mem_takeWhile_imp hmem
  · rintro ⟨rfl, hbefore⟩
    exact splitOnce_append hbefore after

theorem splitOnce_eq_none {l : List α} (h : sep ∉ l) : splitOnce sep l = none := by
  rw [splitOnce, List.dropWhile_eq_nil_iff.mpr (all_ne_of_not_mem h)]

theorem append_sep_inj {l m r s : List α} (hl : sep ∉ l) (hm : sep ∉ m)
    (h : l ++ sep :: r = m ++ sep :: s) : l = m ∧ r = s := by
  have := congrArg (splitOnce sep) h
  simpa [splitOnce_append hl, splitOnce_append hm] using this

/-- What follows the last separator is determined by the whole. -/
theorem sep_append_inj {l m r s : List α} (hr : sep ∉ r) (hs : sep ∉ s)
    (h : l ++ [sep] ++ r = m ++ [sep] ++ s) : l = m ∧ r = s := by
  have hrev := congrArg List.reverse h
  simp only [List.reverse_append, List.reverse_singleton, List.singleton_append] at hrev
  obtain ⟨hrs, hlm⟩ := append_sep_inj (by simpa using hr) (by simpa using hs) hrev
  exact ⟨List.reverse_inj.mp hlm, List.reverse_inj.mp hrs⟩

/-- A field that runs to the next separator or to the end. -/
theorem append_sep_or_nil_inj {l m r s : List α} (hl : sep ∉ l) (hm : sep ∉ m)
    (hr : ∀ a ∈ r.head?, a = sep) (hs : ∀ a ∈ s.head?, a = sep) (h : l ++ r = m ++ s) :
    l = m ∧ r = s := by
  have htake : ∀ {l r : List α}, sep ∉ l → (∀ a ∈ r.head?, a = sep) →
      (l ++ r).takeWhile (· != sep) = l := by
    intro l r hl hr
    rw [List.takeWhile_append_of_pos (all_ne_of_not_mem hl)]
    cases r with
    | nil => simp
    | cons a r =>
      obtain rfl := hr a rfl
      simp
  have hlm : l = m := by rw [← htake hl hr, h, htake hm hs]
  subst hlm
  exact ⟨rfl, List.append_cancel_left h⟩

theorem mem_of_splitOnce {l before after : List α} (h : splitOnce sep l = some (before, after))
    {a : α} (ha : a ∈ before ∨ a ∈ after) : a ∈ l := by
  have hl := l.takeWhile_append_dropWhile (p := (· != sep))
  unfold splitOnce at h
  split at h
  · cases h
  · next x rest hdrop =>
      cases h
      rw [← hl, hdrop]
      rcases ha with ha | ha <;> simp [ha]

end Separator

/-! ### Big-endian numbers -/

/-- The low `width` bytes of a number, most significant first. -/
def be : Nat → Nat → Bytes
  | 0, _ => []
  | width + 1, n => UInt8.ofNat (n / 256 ^ width) :: be width n

/-- The number that bytes spell, most significant first. -/
def fromBe : Bytes → Nat
  | [] => 0
  | b :: bs => b.toNat * 256 ^ bs.length + fromBe bs

@[simp] theorem length_be (width n : Nat) : (be width n).length = width := by
  induction width with
  | zero => rfl
  | succ width ih => simp [be, ih]

theorem fromBe_be (width n : Nat) : fromBe (be width n) = n % 256 ^ width := by
  induction width with
  | zero => simp [be, fromBe, Nat.mod_one]
  | succ width ih =>
    have hb : (UInt8.ofNat (n / 256 ^ width)).toNat = n / 256 ^ width % 256 := by simp
    rw [be, fromBe, hb, length_be, ih, Nat.pow_succ, Nat.mod_mul, Nat.mul_comm, Nat.add_comm]

theorem be_inj {width a b : Nat} (ha : a < 256 ^ width) (hb : b < 256 ^ width)
    (h : be width a = be width b) : a = b := by
  have := congrArg fromBe h
  rwa [fromBe_be, fromBe_be, Nat.mod_eq_of_lt ha, Nat.mod_eq_of_lt hb] at this

theorem compare_ofNat (a b : Nat) :
    compare (UInt8.ofNat a) (UInt8.ofNat b) = compare (a % 256) (b % 256) := by
  have hlt : UInt8.ofNat a < UInt8.ofNat b ↔ a % 256 < b % 256 := by
    rw [UInt8.lt_iff_toNat_lt, UInt8.toNat_ofNat', UInt8.toNat_ofNat']
  have heq : UInt8.ofNat a = UInt8.ofNat b ↔ a % 256 = b % 256 := by
    rw [← UInt8.toNat_inj, UInt8.toNat_ofNat', UInt8.toNat_ofNat']
  simp only [compare, compareOfLessAndEq, hlt, heq]

theorem compare_digit {p q y z base : Nat} (hy : y < base) (hz : z < base) :
    compare (y + base * p) (z + base * q) = (compare p q).then (compare y z) := by
  rcases Nat.lt_trichotomy p q with h | rfl | h
  · have hle : base * (p + 1) ≤ base * q := Nat.mul_le_mul_left base h
    rw [Nat.mul_succ] at hle
    rw [Nat.compare_eq_lt.mpr h, Nat.compare_eq_lt.mpr (by omega)]
    rfl
  · rw [Nat.compare_eq_eq.mpr rfl, Ordering.eq_then]
    simp only [compare, compareOfLessAndEq, Nat.add_lt_add_iff_right, Nat.add_right_cancel_iff]
  · have hle : base * (q + 1) ≤ base * p := Nat.mul_le_mul_left base h
    rw [Nat.mul_succ] at hle
    rw [Nat.compare_eq_gt.mpr h, Nat.compare_eq_gt.mpr (by omega)]
    rfl

/-- Numbers of one width are ordered as their bytes are. -/
theorem compare_be_mod (width a b : Nat) :
    compare (be width a) (be width b) = compare (a % 256 ^ width) (b % 256 ^ width) := by
  induction width with
  | zero => simp [be, Nat.mod_one]
  | succ width ih =>
    have hpos : 0 < 256 ^ width := Nat.pow_pos (by decide)
    rw [be, be, List.compare_cons_cons, ih, compare_ofNat, Nat.pow_succ, Nat.mod_mul, Nat.mod_mul,
      compare_digit (Nat.mod_lt a hpos) (Nat.mod_lt b hpos)]

theorem compare_be {width a b : Nat} (ha : a < 256 ^ width) (hb : b < 256 ^ width) :
    compare (be width a) (be width b) = compare a b := by
  rw [compare_be_mod, Nat.mod_eq_of_lt ha, Nat.mod_eq_of_lt hb]

/-- `u32::to_be_bytes`. -/
def be32 (x : UInt32) : Bytes := be 4 x.toNat

/-- `u64::to_be_bytes`. -/
def be64 (x : UInt64) : Bytes := be 8 x.toNat

/-- `be_u32`: the first four bytes; fewer are a panic of the source. -/
def beU32 (b : Bytes) : Option UInt32 :=
  if 4 ≤ b.length then some (UInt32.ofNat (fromBe (b.take 4))) else none

/-- `be_u64`: the first eight bytes. -/
def beU64 (b : Bytes) : Option UInt64 :=
  if 8 ≤ b.length then some (UInt64.ofNat (fromBe (b.take 8))) else none

@[simp] theorem length_be32 (x : UInt32) : (be32 x).length = 4 := length_be 4 _

@[simp] theorem length_be64 (x : UInt64) : (be64 x).length = 8 := length_be 8 _

@[simp] theorem beU32_be32_append (x : UInt32) (rest : Bytes) :
    beU32 (be32 x ++ rest) = some x := by
  have hx : x.toNat < 256 ^ 4 := x.toNat_lt
  have ht : (be32 x ++ rest).take 4 = be 4 x.toNat := by
    rw [List.take_append_of_le_length (by simp), List.take_of_length_le (by simp)]
    rfl
  rw [beU32, if_pos (by simp), ht, fromBe_be, Nat.mod_eq_of_lt hx, UInt32.ofNat_toNat]

@[simp] theorem beU32_be32 (x : UInt32) : beU32 (be32 x) = some x := by
  simpa using beU32_be32_append x []

@[simp] theorem beU64_be64 (x : UInt64) : beU64 (be64 x) = some x := by
  have hx : x.toNat < 256 ^ 8 := x.toNat_lt
  have ht : (be64 x).take 8 = be 8 x.toNat := List.take_of_length_le (by simp)
  rw [beU64, if_pos (by simp), ht, fromBe_be, Nat.mod_eq_of_lt hx, UInt64.ofNat_toNat]

theorem be32_injective : Function.Injective be32 := fun x y h => by
  have := congrArg beU32 h
  simpa using this

theorem be64_injective : Function.Injective be64 := fun x y h => by
  have := congrArg beU64 h
  simpa using this

/-! ### UTF-8 text -/

/-- `str::as_bytes`. -/
def utf8 (s : String) : Bytes := s.toByteArray.data.toList

/-- How many continuation bytes a lead byte asks for, and the range of the first of them. -/
def continuation (lead : UInt8) : Option (Nat × UInt8 × UInt8) :=
  if 0xC2 ≤ lead && lead ≤ 0xDF then some (1, 0x80, 0xBF)
  else if lead == 0xE0 then some (2, 0xA0, 0xBF)
  else if lead == 0xED then some (2, 0x80, 0x9F)
  else if 0xE1 ≤ lead && lead ≤ 0xEF then some (2, 0x80, 0xBF)
  else if lead == 0xF0 then some (3, 0x90, 0xBF)
  else if lead == 0xF4 then some (3, 0x80, 0x8F)
  else if 0xF1 ≤ lead && lead ≤ 0xF3 then some (3, 0x80, 0xBF)
  else none

/-- How many of the bytes after a lead byte belong to its sequence. -/
def sequenceLength (need : Nat) (lo hi : UInt8) : Bytes → Nat
  | [] => 0
  | b :: bs =>
      match need with
      | 0 => 0
      | need + 1 => if lo ≤ b && b ≤ hi then 1 + sequenceLength need 0x80 0xBF bs else 0

/-- Decode with U+FFFD for every maximal run that is no character. -/
def decodeLossy : Nat → Bytes → List Char
  | 0, _ => []
  | _, [] => []
  | fuel + 1, lead :: bs =>
      if lead < 0x80 then Char.ofNat lead.toNat :: decodeLossy fuel bs
      else
        match continuation lead with
        | none => Char.ofNat 0xFFFD :: decodeLossy fuel bs
        | some (need, lo, hi) =>
            let len := sequenceLength need lo hi bs
            let char :=
              if len = need then
                let low := (bs.take len).foldl (fun acc b => acc * 64 + b.toNat % 64) 0
                Char.ofNat (lead.toNat % 2 ^ (6 - need) * 64 ^ need + low)
              else Char.ofNat 0xFFFD
            char :: decodeLossy fuel (bs.drop len)

/-- `String::from_utf8_lossy`. -/
def fromUtf8Lossy (b : Bytes) : String :=
  match String.fromUTF8? ⟨b.toArray⟩ with
  | some s => s
  | none => String.ofList (decodeLossy b.length b)

@[simp] theorem fromUtf8Lossy_utf8 (s : String) : fromUtf8Lossy (utf8 s) = s := by
  have h : (⟨(utf8 s).toArray⟩ : ByteArray) = s.toByteArray := by simp [utf8]
  simp [fromUtf8Lossy, h, String.fromUTF8?, String.fromUTF8, s.isValidUTF8]

theorem utf8_injective : Function.Injective utf8 := fun s t h => by
  have := congrArg fromUtf8Lossy h
  simpa using this

theorem utf8_append (s t : String) : utf8 (s ++ t) = utf8 s ++ utf8 t := by
  simp [utf8, String.toByteArray_append]

theorem utf8_ofList (l : List Char) : utf8 (String.ofList l) = l.flatMap String.utf8EncodeChar := by
  simp [utf8, List.utf8Encode]

/-- A string without the character NUL. -/
def NulFree (s : String) : Prop := '\x00' ∉ s.toList

instance (s : String) : Decidable (NulFree s) := inferInstanceAs (Decidable (_ ∉ _))

/-- An ASCII byte in an encoding is the whole encoding. -/
theorem val_of_mem_utf8EncodeChar {c : Char} {b : UInt8} (hb : b.toNat < 128)
    (h : b ∈ String.utf8EncodeChar c) : c.val.toNat = b.toNat := by
  have hz : ∀ n, b = UInt8.ofNat n ↔ n % 256 = b.toNat := fun n => by
    rw [← UInt8.toNat_inj]
    simp [eq_comm]
  simp only [String.utf8EncodeChar] at h
  -- Every byte of an encoding of more than one byte has its top bit set.
  split at h
  · simp only [List.mem_singleton, hz] at h
    omega
  split at h
  · simp only [List.mem_cons, List.not_mem_nil, or_false, hz] at h
    omega
  split at h
  · simp only [List.mem_cons, List.not_mem_nil, or_false, hz] at h
    omega
  · simp only [List.mem_cons, List.not_mem_nil, or_false, hz] at h
    omega

/-- An ASCII character is in a string exactly when its byte is. -/
theorem mem_utf8 {s : String} {ch : Char} {b : UInt8} (hb : b.toNat < 128)
    (hch : ch.val.toNat = b.toNat) : b ∈ utf8 s ↔ ch ∈ s.toList := by
  rw [← String.ofList_toList (s := s), utf8_ofList, List.mem_flatMap, String.toList_ofList]
  constructor
  · rintro ⟨c, hc, hmem⟩
    obtain rfl : c = ch :=
      Char.ext (UInt32.toNat_inj.mp ((val_of_mem_utf8EncodeChar hb hmem).trans hch.symm))
    exact hc
  · intro hc
    have hsize : ch.utf8Size = 1 := by
      rw [Char.utf8Size_eq_one_iff, UInt32.le_iff_toNat_le, hch]
      exact Nat.le_of_lt_succ hb
    refine ⟨ch, hc, ?_⟩
    rw [String.utf8EncodeChar_eq_singleton hsize, List.mem_singleton, ← UInt8.toNat_inj,
      UInt32.toNat_toUInt8, hch, Nat.mod_eq_of_lt (by omega)]

theorem not_mem_utf8 {s : String} {ch : Char} {b : UInt8} (hb : b.toNat < 128)
    (hch : ch.val.toNat = b.toNat) (h : ch ∉ s.toList) : b ∉ utf8 s :=
  (mem_utf8 hb hch).not.mpr h

/-- Only NUL has a zero byte in its encoding. -/
theorem zero_not_mem_utf8 {s : String} (h : NulFree s) : (0 : UInt8) ∉ utf8 s :=
  not_mem_utf8 (by decide) rfl h

/-! ### Prefix scans -/

section Scan

variable {β : Type}

/-- The entries whose key starts with `start`, in key order: the iterator is placed
at `start` and stops at the first key that does not begin with it. -/
def scanFrom (m : ExtTreeMap Bytes β) (start : Bytes) : List (Bytes × β) :=
  (m.toList.dropWhile fun p => compare p.1 start == .lt).takeWhile fun p => start.isPrefixOf p.1

theorem compare_append_left (start a b : Bytes) :
    compare (start ++ a) (start ++ b) = compare a b := by
  induction start with
  | nil => rfl
  | cons c start ih => simp [List.compare_cons_cons, ReflCmp.compare_self, ih]

/-- Between a byte string and one of its extensions there are only extensions. -/
theorem isPrefix_of_between {start k t : Bytes} (h1 : compare start k ≠ .gt)
    (h2 : compare k (start ++ t) ≠ .gt) : start <+: k := by
  induction start generalizing k with
  | nil => exact List.nil_prefix
  | cons a start ih =>
    cases k with
    | nil => simp [List.compare_cons_nil] at h1
    | cons b k =>
      rw [List.cons_append, List.compare_cons_cons] at *
      have hab : a = b := by
        by_contra hne
        have hne' : compare a b ≠ .eq := fun e => hne (LawfulEqOrd.compare_eq_iff_eq.mp e)
        have hgt : compare a b = .lt := by
          cases hc : compare a b <;> simp_all
        have := OrientedCmp.gt_of_lt hgt
        simp [this] at h2
      subst hab
      simp only [ReflCmp.compare_self, Ordering.eq_then] at h1 h2
      exact List.cons_prefix_cons.mpr ⟨rfl, ih h1 h2⟩

theorem le_of_isPrefix {start k : Bytes} (h : start <+: k) : compare start k ≠ .gt := by
  obtain ⟨t, rfl⟩ := h
  induction start with
  | nil => cases t <;> simp
  | cons a start ih => simpa [List.compare_cons_cons, ReflCmp.compare_self] using ih

/-- Past `start`, the keys that extend it come before all others. -/
theorem takeWhile_eq_filter {start : Bytes} {l : List (Bytes × β)}
    (hs : l.Pairwise fun a b => compare a.1 b.1 = .lt) (hl : ∀ p ∈ l, compare start p.1 ≠ .gt) :
    (l.takeWhile fun p => start.isPrefixOf p.1) = l.filter fun p => start.isPrefixOf p.1 := by
  induction l with
  | nil => rfl
  | cons p ps ih =>
    have hrest := List.pairwise_cons.mp hs
    by_cases hp : start.isPrefixOf p.1
    · simp [hp, ih hrest.2 fun q hq => hl q (List.mem_cons_of_mem p hq)]
    · have hnone : ∀ q ∈ ps, ¬ start.isPrefixOf q.1 := by
        intro q hq hpre
        obtain ⟨t, ht⟩ := List.isPrefixOf_iff_prefix.mp hpre
        refine hp (List.isPrefixOf_iff_prefix.mpr ?_)
        refine isPrefix_of_between (t := t) (hl p List.mem_cons_self) ?_
        rw [ht, hrest.1 q hq]
        decide
      simpa [hp] using hnone

/-- Skipping to a place in a sorted list leaves what is not before it. -/
theorem dropWhile_eq_filter {start : Bytes} {l : List (Bytes × β)}
    (hs : l.Pairwise fun a b => compare a.1 b.1 = .lt) :
    (l.dropWhile fun p => compare p.1 start == .lt)
      = l.filter fun p => compare p.1 start != .lt := by
  induction l with
  | nil => rfl
  | cons p ps ih =>
    have hrest := List.pairwise_cons.mp hs
    by_cases hlt : compare p.1 start = .lt
    · simp [hlt, ih hrest.2]
    · have hall : ∀ q ∈ ps, compare q.1 start ≠ .lt := fun q hq hq' =>
        hlt (TransCmp.lt_trans (hrest.1 q hq) hq')
      rw [List.dropWhile_cons_of_neg (by simp [hlt]), List.filter_cons_of_pos (by simp [hlt]),
        List.filter_eq_self.mpr fun q hq => by simp [hall q hq]]

theorem dropWhile_takeWhile_eq_filter {start : Bytes} {l : List (Bytes × β)}
    (hs : l.Pairwise fun a b => compare a.1 b.1 = .lt) :
    ((l.dropWhile fun p => compare p.1 start == .lt).takeWhile fun p => start.isPrefixOf p.1)
      = l.filter fun p => start.isPrefixOf p.1 := by
  rw [dropWhile_eq_filter hs, takeWhile_eq_filter (hs.filter _), List.filter_filter]
  · refine List.filter_congr fun p _ => ?_
    by_cases hpre : start.isPrefixOf p.1
    · have hle := le_of_isPrefix (List.isPrefixOf_iff_prefix.mp hpre)
      simpa [hpre] using fun hlt => hle (OrientedCmp.gt_of_lt hlt)
    · simp [hpre]
  · intro p hp hgt
    simpa [OrientedCmp.lt_of_gt hgt] using (List.mem_filter.mp hp).2

theorem scanFrom_eq_filter (m : ExtTreeMap Bytes β) (start : Bytes) :
    scanFrom m start = m.toList.filter fun p => start.isPrefixOf p.1 :=
  dropWhile_takeWhile_eq_filter m.ordered_keys_toList

/-- What a filter by key returns depends on the keys it lets through. -/
theorem filter_toList_congr {m m' : ExtTreeMap Bytes β} {p : Bytes → Bool}
    (h : ∀ k, p k = true → m[k]? = m'[k]?) :
    (m.toList.filter fun e => p e.1) = m'.toList.filter fun e => p e.1 := by
  have heq : m.filter (fun k _ => p k) = m'.filter fun k _ => p k := by
    apply ExtTreeMap.ext_getElem?
    intro k
    rw [ExtTreeMap.getElem?_filter', ExtTreeMap.getElem?_filter']
    by_cases hk : p k = true
    · rw [h k hk]
    · simp [hk]
  have := congrArg ExtTreeMap.toList heq
  rwa [ExtTreeMap.toList_filter, ExtTreeMap.toList_filter] at this
theorem mem_scanFrom {m : ExtTreeMap Bytes β} {start k : Bytes} {v : β} :
    (k, v) ∈ scanFrom m start ↔ m[k]? = some v ∧ start <+: k := by
  rw [scanFrom_eq_filter, List.mem_filter,
    ExtTreeMap.mem_toList_iff_getElem?_eq_some, List.isPrefixOf_iff_prefix]

end Scan

end SchemaRegistry.Lib

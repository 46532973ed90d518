import SchemaRegistry.Schema.JsonSchema.Diff
import Mathlib.Data.Int.Log
import Mathlib.Tactic.Linarith
import Mathlib.Tactic.FieldSimp

/-!
What the comparison of number schemas promises. Limits are compared by their doubles, which integers
below 2^53 are. Of `multipleOf` only what is before the point of the doubles is divided: a divisor
that the code takes to be a multiple of another need not be one.
-/

namespace SchemaRegistry.JsonSchema

/-! ### Number schemas as they are written -/

namespace NumS

/-- The numbers a schema accepts. -/
structure Accepts (s : NumS ℚ) (x : ℚ) : Prop where
  minimum : ∀ m ∈ s.minimum, m ≤ x
  maximum : ∀ m ∈ s.maximum, x ≤ m
  exclusiveMinimum : ∀ m ∈ s.exclusiveMinimum, m < x
  exclusiveMaximum : ∀ m ∈ s.exclusiveMaximum, x < m
  multipleOf : ∀ d ∈ s.multipleOf, ∃ k : ℤ, x = k * d
  integer : s.requiresInteger = true → ∃ k : ℤ, x = k

/-- Its limits are integers that doubles hold exactly. -/
def IntegerLimits (s : NumS ℚ) : Prop :=
  ∀ limit ∈ [s.minimum, s.maximum, s.exclusiveMinimum, s.exclusiveMaximum], ∀ q ∈ limit,
    ∃ z : ℤ, q = z ∧ |z| < 2 ^ 53

/-- How the numbers of a schema are held, given how one number is. -/
structure HeldAs (reads : ℚ → JsonNumber → Prop) (s : NumS ℚ) (s' : NumS JsonNumber) : Prop where
  minimum : Option.Rel reads s.minimum s'.minimum
  maximum : Option.Rel reads s.maximum s'.maximum
  exclusiveMinimum : Option.Rel reads s.exclusiveMinimum s'.exclusiveMinimum
  exclusiveMaximum : Option.Rel reads s.exclusiveMaximum s'.exclusiveMaximum
  multipleOf : Option.Rel reads s.multipleOf s'.multipleOf
  requiresInteger : s.requiresInteger = s'.requiresInteger

end NumS

/-- Integers below 2^53 are read and turned into doubles exactly. -/
def ExactIntegers (host : Host) (reads : ℚ → JsonNumber → Prop) : Prop :=
  ∀ (z : ℤ) (n : JsonNumber), |z| < 2 ^ 53 → reads z n → host.asF64 n = z

/-! ### Limits -/

section Limits

variable {host : Host} {reads : ℚ → JsonNumber → Prop} (hreads : ExactIntegers host reads)
  {path : List String} {a b : Option ℚ} {a' b' : Option JsonNumber} (ha : Option.Rel reads a a')
  (hb : Option.Rel reads b b') (haz : ∀ q ∈ a, ∃ z : ℤ, q = z ∧ |z| < 2 ^ 53)
  (hbz : ∀ q ∈ b, ∃ z : ℤ, q = z ∧ |z| < 2 ^ 53)

include hreads ha hb haz hbz

/-- A limit of the reader is one of the writer, or a looser one, when all that is found is
compatible. -/
theorem limit_of_clean {l : Limit}
    (hclean : ∀ d ∈ compareNumberBound path host l a' b', d.incompatible = false) :
    ∀ q ∈ b, ∃ p ∈ a, if l.isUpper then p ≤ q else q ≤ p := by
  cases hb with
  | none => simp
  | @some q n hqn =>
    cases ha with
    | none => simp [compareNumberBound, compareBound, Diff.incompatible, Diff.add,
        DiffKind.compatible] at hclean
    | @some p m hpm =>
      obtain ⟨x, rfl, hx⟩ := haz p rfl
      obtain ⟨y, rfl, hy⟩ := hbz q rfl
      have hm := hreads x m hx hpm
      have hn := hreads y n hy hqn
      have hle : if l.isUpper then (x : ℚ) ≤ y else (y : ℚ) ≤ x := by
        by_cases heq : m = n
        · subst heq
          have hxy : (x : ℚ) = y := hm.symm.trans hn
          simp [hxy]
        · simp only [compareNumberBound, Option.some.injEq, heq, if_false, Option.map_some,
            compareBound, hm, hn] at hclean
          rcases lt_trichotomy (x : ℚ) y with hlt | hxy | hgt
          · simp only [hlt.ne, hlt, if_true, if_false, List.mem_singleton, forall_eq] at hclean
            simp only [Diff.incompatible, Diff.add, DiffKind.compatible,
              Bool.not_eq_false'] at hclean
            simp [hclean, hlt.le]
          · simp [hxy]
          · simp only [hgt.ne', hgt, hgt.not_gt, if_true, if_false, List.mem_singleton,
              forall_eq] at hclean
            simp only [Diff.incompatible, Diff.add, DiffKind.compatible, Bool.not_not] at hclean
            simp [hclean, hgt.le]
      intro q hq
      obtain rfl : (y : ℚ) = q := Option.some.inj hq
      exact ⟨x, rfl, hle⟩

end Limits

/-! ### Divisors -/

theorem multipleOfChange_compatible {a b : ℚ} (h : (multipleOfChange a b).compatible = true) :
    satI64 b ∣ satI64 a := by
  simp only [multipleOfChange] at h
  split at h
  · cases h
  · split at h
    · next h' => exact Int.dvd_of_tmod_eq_zero h'.2
    · cases h

theorem satI64_intCast {z : ℤ} (h : |z| < 2 ^ 53) : satI64 z = z := by
  have hbounds := abs_lt.mp h
  simp only [satI64, Int.floor_intCast, Int.ceil_intCast, ite_self]
  omega

/-- Both are integers that doubles hold exactly. -/
def SmallIntegers (a b : ℚ) : Prop := ∃ x y : ℤ, a = x ∧ b = y ∧ |x| < 2 ^ 53 ∧ |y| < 2 ^ 53

/-- The least number with divisor `d` that the schema leaves: `d`, or its numerator where integers
are asked for. -/
def NumS.period (s : NumS ℚ) (d : ℚ) : ℚ := if s.requiresInteger then d.num else d

/-- A number with divisor `d` is a multiple of what the schema leaves of `d`. -/
theorem NumS.Accepts.period {s : NumS ℚ} {x d : ℚ} (h : s.Accepts x) (hd : d ∈ s.multipleOf) :
    ∃ k : ℤ, x = k * s.period d := by
  obtain ⟨j, hj⟩ := h.multipleOf d hd
  rw [NumS.period]
  split
  · next hint =>
      -- z * den = j * num, and the numerator has no factor in common with the denominator
      obtain ⟨z, rfl⟩ := h.integer hint
      have hcross : z * (d.den : ℤ) = j * d.num := by
        have hd' : d * d.den = d.num := Rat.mul_den_eq_num d
        have : (z : ℚ) * d.den = j * d.num := by rw [hj, mul_assoc, hd']
        exact_mod_cast this
      have hdvd : d.num ∣ z * (d.den : ℤ) := ⟨j, by rw [hcross, mul_comm]⟩
      obtain ⟨k, hk⟩ := Int.dvd_of_dvd_mul_left_of_gcd_one hdvd d.reduced
      exact ⟨k, by rw [hk]; push_cast; ring⟩
  · exact ⟨j, hj⟩

/-- The reader's divisor divides what the writer's schema leaves of its own. -/
def MultiplesFit (o u : NumS ℚ) : Prop :=
  ∀ a ∈ o.multipleOf, ∀ b ∈ u.multipleOf, ∃ k : ℤ, o.period a = k * b

/-- The divisors are small integers, or they fit. -/
def DivisorsFit (o u : NumS ℚ) : Prop :=
  ∀ a ∈ o.multipleOf, ∀ b ∈ u.multipleOf, SmallIntegers a b ∨ ∃ k : ℤ, o.period a = k * b

section Divisors

variable {host : Host} {reads : ℚ → JsonNumber → Prop} (hreads : ExactIntegers host reads)
  {path : List String} {a b : ℚ} {m n : JsonNumber} (ha : reads a m) (hb : reads b n)

include hreads ha hb

/-- Of small integers the verdict is right. -/
theorem dvd_of_clean (hsmall : SmallIntegers a b)
    (hclean : ∀ d ∈ compareMultipleOf path host (some m) (some n), d.incompatible = false) :
    ∃ k : ℤ, a = k * b := by
  obtain ⟨x, y, rfl, rfl, hx, hy⟩ := hsmall
  have hm := hreads x m hx ha
  have hn := hreads y n hy hb
  by_cases heq : (x : ℚ) = y
  · exact ⟨1, by simp [heq]⟩
  · have hcompatible : (multipleOfChange x y).compatible = true := by
      simpa [compareMultipleOf, hm, hn, heq, Diff.incompatible, Diff.add] using hclean
    have hdvd := multipleOfChange_compatible hcompatible
    rw [satI64_intCast hx, satI64_intCast hy] at hdvd
    obtain ⟨k, rfl⟩ := hdvd
    exact ⟨k, by push_cast; ring⟩

end Divisors

/-! ### Number schemas -/

/-- Nothing incompatible is found. -/
def Clean (host : Host) (path : List String) (o' u' : NumS JsonNumber) : Prop :=
  ∀ d ∈ compareNumber path host o' u', d.incompatible = false

/-- When nothing incompatible is found, what the writer's schema accepts the reader's does. -/
def SoundFor (host : Host) (path : List String) (o u : NumS ℚ) (o' u' : NumS JsonNumber) : Prop :=
  Clean host path o' u' → ∀ x, o.Accepts x → u.Accepts x

/-- A schema without limits. -/
structure Unlimited (s : NumS ℚ) : Prop where
  minimum : s.minimum = none
  maximum : s.maximum = none
  exclusiveMinimum : s.exclusiveMinimum = none
  exclusiveMaximum : s.exclusiveMaximum = none

theorem Unlimited.accepts {s : NumS ℚ} (h : Unlimited s) {d : ℚ} (hd : d ∈ s.multipleOf) :
    s.Accepts (s.period d) where
  minimum := by simp [h.minimum]
  maximum := by simp [h.maximum]
  exclusiveMinimum := by simp [h.exclusiveMinimum]
  exclusiveMaximum := by simp [h.exclusiveMaximum]
  multipleOf e he := by
    obtain rfl : d = e := Option.some.inj (hd.symm.trans he)
    rw [NumS.period]
    split
    · exact ⟨d.den, by rw [mul_comm]; exact (Rat.mul_den_eq_num d).symm⟩
    · exact ⟨1, by simp⟩
  integer hint := ⟨d.num, by simp [NumS.period, hint]⟩

section Sound

variable {host : Host} {reads : ℚ → JsonNumber → Prop} {path : List String} {o u : NumS ℚ}
  {o' u' : NumS JsonNumber} (ho : NumS.HeldAs reads o o') (hu : NumS.HeldAs reads u u')

include ho hu

/-- A divisor of the reader's divides what the writer accepts. -/
theorem multipleOf_of_clean (hreads : ExactIntegers host reads) (hfit : DivisorsFit o u)
    (hclean : ∀ d ∈ compareMultipleOf path host o'.multipleOf u'.multipleOf, d.incompatible = false)
    {x : ℚ} (hx : o.Accepts x) : ∀ b ∈ u.multipleOf, ∃ k : ℤ, x = k * b := by
  intro b hb
  obtain ⟨n, hn, hbn⟩ : ∃ n, u'.multipleOf = some n ∧ reads b n := by
    have hrel := hu.multipleOf
    rw [show u.multipleOf = some b from hb] at hrel
    cases hu' : u'.multipleOf <;> rw [hu'] at hrel <;> cases hrel
    exact ⟨_, rfl, by assumption⟩
  have hrel := ho.multipleOf
  rw [hn] at hclean
  cases hmult : o.multipleOf with
  | none =>
    -- a divisor the writer does not have counts as incompatible
    rw [hmult] at hrel
    cases ho' : o'.multipleOf <;> rw [ho'] at hrel hclean <;> cases hrel
    simp [compareMultipleOf, Diff.incompatible, Diff.add, DiffKind.compatible] at hclean
  | some a =>
    rw [hmult] at hrel
    cases ho' : o'.multipleOf <;> rw [ho'] at hrel hclean <;> cases hrel
    rename_i ham
    rcases hfit a hmult b hb with hsmall | ⟨k, hk⟩
    · obtain ⟨k, rfl⟩ := dvd_of_clean hreads ham hbn hsmall hclean
      obtain ⟨j, rfl⟩ := hx.multipleOf _ hmult
      exact ⟨j * k, by push_cast; ring⟩
    · obtain ⟨j, rfl⟩ := hx.period hmult
      exact ⟨j * k, by rw [hk]; push_cast; ring⟩

theorem soundFor_of_divisorsFit (hreads : ExactIntegers host reads) (hol : o.IntegerLimits)
    (hul : u.IntegerLimits) (hfit : DivisorsFit o u) : SoundFor host path o u o' u' := by
  intro hclean x hx
  simp only [Clean, compareNumber, List.mem_append, or_imp, forall_and] at hclean
  obtain ⟨⟨⟨⟨⟨hmax, hmin⟩, hexmax⟩, hexmin⟩, hmult⟩, hint⟩ := hclean
  have limit {l : Limit} {a b : Option ℚ} {a' b' : Option JsonNumber} (ha : Option.Rel reads a a')
      (hb : Option.Rel reads b b')
      (hao : a ∈ [o.minimum, o.maximum, o.exclusiveMinimum, o.exclusiveMaximum])
      (hbu : b ∈ [u.minimum, u.maximum, u.exclusiveMinimum, u.exclusiveMaximum])
      (hbound : ∀ d ∈ compareNumberBound path host l a' b', d.incompatible = false) :=
    limit_of_clean hreads ha hb (hol a hao) (hul b hbu) hbound
  refine ⟨?_, ?_, ?_, ?_, ?_, ?_⟩
  · intro q hq
    obtain ⟨p, hp, hle⟩ := limit ho.minimum hu.minimum (by simp) (by simp) hmin q hq
    exact le_trans hle (hx.minimum p hp)
  · intro q hq
    obtain ⟨p, hp, hle⟩ := limit ho.maximum hu.maximum (by simp) (by simp) hmax q hq
    exact le_trans (hx.maximum p hp) hle
  · intro q hq
    obtain ⟨p, hp, hle⟩ := limit ho.exclusiveMinimum hu.exclusiveMinimum (by simp)
        (by simp) hexmin q hq
    exact lt_of_le_of_lt hle (hx.exclusiveMinimum p hp)
  · intro q hq
    obtain ⟨p, hp, hle⟩ := limit ho.exclusiveMaximum hu.exclusiveMaximum (by simp)
        (by simp) hexmax q hq
    exact lt_of_lt_of_le (hx.exclusiveMaximum p hp) hle
  · exact multipleOf_of_clean ho hu hreads hfit hmult hx
  · intro hui
    refine hx.integer ?_
    by_contra hoi
    rw [ho.requiresInteger] at hoi
    rw [hu.requiresInteger] at hui
    simp [hui, hoi, Diff.incompatible, Diff.add, DiffKind.compatible] at hint

end Sound

/-- The comparison of number schemas is sound when the divisors are small integers or the reader's
divides what the writer's leaves; of a writer without limits that it lets pass only when it does. -/
theorem compareNumber_sound (host : Host) (reads : ℚ → JsonNumber → Prop)
    (hreads : ExactIntegers host reads) (path : List String) (o u : NumS ℚ) (ow uw : JsonMap)
    (ho : NumS.HeldAs reads o (number false ow o.requiresInteger))
    (hu : NumS.HeldAs reads u (number false uw u.requiresInteger)) (hol : o.IntegerLimits)
    (hul : u.IntegerLimits) :
    let o' := number false ow o.requiresInteger
    let u' := number false uw u.requiresInteger
    (DivisorsFit o u → SoundFor host path o u o' u')
      ∧ (Unlimited o → Clean host path o' u' →
        (SoundFor host path o u o' u' ↔ MultiplesFit o u)) := by
  have hsound : DivisorsFit o u → SoundFor host path o u _ _ :=
    soundFor_of_divisorsFit ho hu hreads hol hul
  refine ⟨hsound, fun hou hclean => ⟨fun h a ha b hb => ?_, fun h => ?_⟩⟩
  · exact (h hclean _ (hou.accepts ha)).multipleOf b hb
  · exact hsound fun a ha b hb => .inr (h a ha b hb)

/-! ### Doubles -/

/-- The nearest integer, the even one of two. -/
def nearestEven (q : ℚ) : ℤ :=
  if q - ⌊q⌋ < 1 / 2 ∨ q - ⌊q⌋ = 1 / 2 ∧ Even ⌊q⌋ then ⌊q⌋ else ⌊q⌋ + 1

/-- The double nearest to a number of the ordinary range: 53 bits from the first one that is set. -/
def roundF64 (q : ℚ) : ℚ :=
  let unit : ℚ := 2 ^ (Int.log 2 |q| - 52)
  nearestEven (q / unit) * unit

theorem nearestEven_intCast (z : ℤ) : nearestEven z = z := by
  simp [nearestEven]

/-- Integers of 53 bits are doubles. -/
theorem roundF64_intCast {z : ℤ} (h : |z| < 2 ^ 53) : roundF64 z = z := by
  have hlog : Int.log 2 |(z : ℚ)| ≤ 52 := by
    by_cases hz : z = 0
    · simp [hz]
    · have hpos : (0 : ℚ) < |(z : ℚ)| := by positivity
      have hlt : |(z : ℚ)| < (2 : ℕ) ^ (53 : ℤ) := by
        norm_num
        exact_mod_cast h
      have := (Int.lt_zpow_iff_log_lt (b := 2) (by norm_num) hpos).mp hlt
      omega
  obtain ⟨k, hk⟩ :
      ∃ k : ℕ, Int.log 2 |(z : ℚ)| - 52 = -k := ⟨(52 - Int.log 2 |(z : ℚ)|).toNat, by omega⟩
  have hscaled : (z : ℚ) / 2 ^ (-(k : ℤ)) = ((z * 2 ^ k : ℤ) : ℚ) := by
    push_cast
    rw [zpow_neg, zpow_natCast, div_inv_eq_mul]
  rw [roundF64]
  simp only [hk, hscaled, nearestEven_intCast]
  push_cast
  rw [zpow_neg, zpow_natCast, mul_assoc, mul_inv_cancel₀ (by positivity), mul_one]

/-- The value of a printed number: digits, a point and an exponent. -/
def decimalValue (text : List Char) : ℚ :=
  let digits (cs : List Char) : Int := cs.foldl (fun n c => n * 10 + (c.toNat - '0'.toNat : ℕ)) 0
  let signed (cs : List Char) : Int :=
    match cs with
    | '-' :: rest => -digits rest
    | '+' :: rest => digits rest
    | rest => digits rest
  let isMark (c : Char) : Bool := c == 'e' || c == 'E'
  let mantissa := text.takeWhile (!isMark ·)
  let power := signed ((text.dropWhile (!isMark ·)).drop 1)
  let places := (mantissa.dropWhile (· != '.')).drop 1
  signed (mantissa.filter (· != '.')) * 10 ^ (power - places.length)

/-- Numbers turned into the nearest double. -/
def doubles : Host where
  asF64
    | .int z => roundF64 z
    | .float form => roundF64 (decimalValue form.text.toList)
  regex _ := .error "no regular expressions"

/-- A number is read into the double nearest to it, an integer as it is. -/
def readsNearest (q : ℚ) : JsonNumber → Prop
  | .int z => q = z
  | .float form => roundF64 (decimalValue form.text.toList) = roundF64 q

theorem doubles_exact : ExactIntegers doubles readsNearest := by
  rintro z (y | form) hz hread
  · obtain rfl : z = y := Int.cast_injective (α := ℚ) hread
    exact roundF64_intCast hz
  · exact Eq.trans hread (roundF64_intCast hz)

/-- A schema that only asks for divisibility. -/
def divisibleBy {N : Type} (d : N) : NumS N := ⟨none, none, none, none, some d, false⟩

/-- It as it is written. -/
def multipleOfOnly (n : JsonNumber) : JsonMap := [("multipleOf", .number n)]

theorem number_multipleOfOnly (n : JsonNumber) :
    number false (multipleOfOnly n) false = divisibleBy n := rfl

theorem divisibleBy_held {q : ℚ} {n : JsonNumber} (h : readsNearest q n) :
    NumS.HeldAs readsNearest (divisibleBy q) (number false (multipleOfOnly n) false) := by
  rw [number_multipleOfOnly]
  exact ⟨.none, .none, .none, .none, .some h, rfl⟩

theorem divisibleBy_limits (q : ℚ) : (divisibleBy q).IntegerLimits := by
  simp [NumS.IntegerLimits, divisibleBy]

/-- Multiples of 9 are multiples of 3, and the comparison says so. -/
theorem compareNumber_sound_nine :
    SoundFor doubles [] (divisibleBy 9) (divisibleBy 3)
      (number false (multipleOfOnly (.int 9)) false)
      (number false (multipleOfOnly (.int 3)) false) := by
  have hnine : readsNearest 9 (.int 9) := by simp [readsNearest]
  have hthree : readsNearest 3 (.int 3) := by simp [readsNearest]
  refine (compareNumber_sound doubles readsNearest doubles_exact [] _ _ _ _ (divisibleBy_held hnine)
    (divisibleBy_held hthree) (divisibleBy_limits 9) (divisibleBy_limits 3)).1 ?_
  intro a ha b hb
  obtain rfl : (9 : ℚ) = a := Option.some.inj ha
  obtain rfl : (3 : ℚ) = b := Option.some.inj hb
  exact .inl ⟨9, 3, by norm_num, by norm_num, by norm_num, by norm_num⟩

/-- 4.5, as a number with a point is held. -/
def fourAndAHalf : JsonNumber := .float ⟨"4.5", by decide⟩

/-- Multiples of 4.5 are taken to be multiples of 2. -/
theorem compareNumber_half :
    readsNearest (9 / 2) fourAndAHalf ∧ readsNearest 2 (.int 2)
      ∧ ¬ SoundFor doubles [] (divisibleBy (9 / 2)) (divisibleBy 2)
        (number false (multipleOfOnly fourAndAHalf) false)
        (number false (multipleOfOnly (.int 2)) false) := by
  refine ⟨?_, by simp [readsNearest], fun hsound => ?_⟩
  · show roundF64 (decimalValue "4.5".toList) = roundF64 (9 / 2)
    decide +kernel
  · have hclean : (compareNumber [] doubles (number false (multipleOfOnly fourAndAHalf) false)
        (number false (multipleOfOnly (.int 2)) false)).all (fun d => !d.incompatible) = true := by
      decide +kernel
    have haccept : (divisibleBy (9 / 2 : ℚ)).Accepts (9 / 2) :=
      Unlimited.accepts ⟨rfl, rfl, rfl, rfl⟩ rfl
    obtain ⟨k, hk⟩ := (hsound (by simpa [Clean] using hclean) (9 / 2) haccept).multipleOf 2 rfl
    have hfour : (9 : ℚ) = ((4 * k : ℤ) : ℚ) := by
      push_cast
      linarith
    have : (9 : ℤ) = 4 * k := by exact_mod_cast hfour
    omega

end SchemaRegistry.JsonSchema

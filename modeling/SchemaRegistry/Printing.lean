import SchemaRegistry.Json
import Mathlib.Tactic.IntervalCases

/-!
What a printed value says. The compact form of a JSON value holds no NUL and
determines the value (`Json.render_injective`): a string literal is read back one
character at a time, a number ends where its characters end, and arrays and
objects by induction on their members.
-/

namespace SchemaRegistry

namespace Json

/-! ### String literals -/

/-- The value of a hexadecimal digit. -/
def hexValue (c : Char) : Nat :=
  if c.isDigit then c.toNat - '0'.toNat else c.toNat - 'a'.toNat + 10

/-- One character inside a string literal, read back; `none` at the closing quote. -/
def readChar : List Char → Option (Char × List Char)
  | '\\' :: 'u' :: '0' :: '0' :: a :: b :: rest =>
      some (Char.ofNat (16 * hexValue a + hexValue b), rest)
  | '\\' :: 'b' :: rest => some (Char.ofNat 8, rest)
  | '\\' :: 't' :: rest => some (Char.ofNat 9, rest)
  | '\\' :: 'n' :: rest => some (Char.ofNat 10, rest)
  | '\\' :: 'f' :: rest => some (Char.ofNat 12, rest)
  | '\\' :: 'r' :: rest => some (Char.ofNat 13, rest)
  | '\\' :: c :: rest => some (c, rest)
  | '"' :: _ => none
  | c :: rest => some (c, rest)
  | [] => none

/-- A character below space, read back from its escape. -/
theorem readChar_control (n : Nat) (h : n < 32) (xs : List Char) :
    readChar (escapeChar (Char.ofNat n) ++ xs) = some (Char.ofNat n, xs) := by
  interval_cases n <;> rfl

theorem readChar_escapeChar (c : Char) (xs : List Char) :
    readChar (escapeChar c ++ xs) = some (c, xs) := by
  by_cases hq : c = '"'
  · subst hq
    rfl
  by_cases hb : c = '\\'
  · subst hb
    rfl
  by_cases hc : c.toNat < 32
  · have := readChar_control c.toNat hc xs
    rwa [Char.ofNat_toNat] at this
  · have hne : ∀ n : UInt32, n.toNat < 32 → c.val ≠ n := by
      rintro n hn rfl
      exact hc hn
    have hplain : escapeChar c = [c] := by
      have hge : ¬ c.val < 32 := fun hlt => hc (UInt32.lt_iff_toNat_lt.mp hlt)
      simp [escapeChar, hq, hb, hne 8, hne 9, hne 10, hne 12, hne 13, hge]
    rw [hplain, List.singleton_append]
    unfold readChar
    split <;> simp_all

/-- A string literal ends at its closing quote and nowhere else. -/
theorem literal_append_inj {cs ds xs ys : List Char}
    (h : cs.flatMap escapeChar ++ '"' :: xs = ds.flatMap escapeChar ++ '"' :: ys) :
    cs = ds ∧ xs = ys := by
  induction cs generalizing ds with
  | nil =>
    cases ds with
    | nil => exact ⟨rfl, (List.cons.inj h).2⟩
    | cons d ds =>
      have := congrArg readChar h
      rw [List.flatMap_cons, List.append_assoc, readChar_escapeChar] at this
      cases this
  | cons c cs ih =>
    cases ds with
    | nil =>
      have := congrArg readChar h
      rw [List.flatMap_cons, List.append_assoc, readChar_escapeChar] at this
      cases this
    | cons d ds =>
      simp only [List.flatMap_cons, List.append_assoc] at h
      have hread := congrArg readChar h
      rw [readChar_escapeChar, readChar_escapeChar, Option.some.injEq, Prod.mk.injEq] at hread
      obtain ⟨rfl, hrest⟩ := hread
      obtain ⟨rfl, rfl⟩ := ih hrest
      exact ⟨rfl, rfl⟩

theorem renderString_toList (s : String) :
    (renderString s).toList = '"' :: (s.toList.flatMap escapeChar ++ ['"']) := by
  simp [renderString, String.toList_append, String.toList_ofList]

/-- A string literal is determined by any text that starts with it. -/
theorem renderString_append_inj {s t : String} {xs ys : List Char}
    (h : (renderString s).toList ++ xs = (renderString t).toList ++ ys) : s = t ∧ xs = ys := by
  simp only [renderString_toList, List.cons_append, List.append_assoc, List.cons.injEq,
    true_and] at h
  obtain ⟨hst, rfl⟩ := literal_append_inj h
  exact ⟨String.toList_inj.mp hst, rfl⟩

/-! ### Numbers -/

/-- An integer is written with digits and a minus. -/
theorem forall_mem_repr {P : Char → Prop} (hminus : P '-')
    (hdigit : ∀ c : Char, c.isDigit = true → P c) (n : Int) : ∀ c ∈ n.repr.toList, P c := by
  have hnat : ∀ m : Nat, ∀ c ∈ m.repr.toList, P c := by
    intro m c hc
    rw [Nat.repr_eq_ofList_toDigits, String.toList_ofList] at hc
    exact hdigit c (Nat.isDigit_of_mem_toDigits (by decide) (by decide) hc)
  intro c hc
  rw [Int.repr_eq_if] at hc
  split at hc
  · exact hnat _ c hc
  · rw [String.toList_append] at hc
    rcases List.mem_append.mp hc with hc | hc
    · obtain rfl : c = '-' := by simpa using hc
      exact hminus
    · exact hnat _ c hc

theorem isNumberChar_repr (n : Int) : ∀ c ∈ n.repr.toList, isNumberChar c = true :=
  forall_mem_repr (P := (isNumberChar · = true)) rfl (fun c hc => by simp [isNumberChar, hc]) n

theorem not_isFloatMark_repr (n : Int) : ∀ c ∈ n.repr.toList, isFloatMark c = false := by
  refine forall_mem_repr (P := (isFloatMark · = false)) rfl (fun c hdigit => ?_) n
  simp only [isFloatMark, Bool.or_eq_false_iff, beq_eq_false_iff_ne, ne_eq]
  refine ⟨⟨?_, ?_⟩, ?_⟩ <;> rintro rfl <;> cases hdigit

theorem natRepr_inj {m n : Nat} (h : m.repr = n.repr) : m = n := by
  rw [Nat.repr_eq_ofList_toDigits, Nat.repr_eq_ofList_toDigits, String.ofList_inj] at h
  simpa using congrArg (fun ds => Nat.ofDigitChars 10 ds 0) h

theorem natRepr_ne_minus {m : Nat} {s : String} : m.repr ≠ "-" ++ s := by
  intro h
  have hmem : '-' ∈ m.repr.toList := by simp [h, String.toList_append]
  rw [Nat.repr_eq_ofList_toDigits, String.toList_ofList] at hmem
  cases Nat.isDigit_of_mem_toDigits (by decide) (by decide) hmem

theorem intRepr_inj {a b : Int} (h : a.repr = b.repr) : a = b := by
  rw [Int.repr_eq_if, Int.repr_eq_if] at h
  split at h <;> split at h
  · have := natRepr_inj h
    omega
  · exact (natRepr_ne_minus h).elim
  · exact (natRepr_ne_minus h.symm).elim
  · have hlist := congrArg String.toList h
    rw [String.toList_append, String.toList_append] at hlist
    have := natRepr_inj (String.toList_inj.mp (List.append_cancel_left hlist))
    omega

theorem isNumberChar_renderNumber (n : JsonNumber) :
    ∀ c ∈ (renderNumber n).toList, isNumberChar c = true := by
  cases n with
  | int value => exact isNumberChar_repr value
  | float form =>
    have := form.wf
    simp only [Bool.and_eq_true, List.all_eq_true] at this
    exact this.1

theorem renderNumber_ne_nil (n : JsonNumber) : (renderNumber n).toList ≠ [] := by
  cases n with
  | int value =>
    intro h
    have hempty : value.repr = "" := String.toList_inj.mp h
    rw [Int.repr_eq_if] at hempty
    split at hempty
    · exact Nat.repr_ne_empty hempty
    · simp at hempty
  | float form =>
    intro h
    have := form.wf
    simp only [renderNumber] at h
    simp [h] at this

theorem renderNumber_inj {m n : JsonNumber} (h : renderNumber m = renderNumber n) : m = n := by
  have hmark : ∀ (value : Int) (form : FloatText), value.repr ≠ form.text := by
    intro value form heq
    have := form.wf
    simp only [Bool.and_eq_true, List.any_eq_true] at this
    obtain ⟨-, c, hc, hmark⟩ := this
    rw [← heq] at hc
    rw [not_isFloatMark_repr value c hc] at hmark
    cases hmark
  cases m with
  | int a =>
    cases n with
    | int b => exact congrArg JsonNumber.int (intRepr_inj h)
    | float form => exact (hmark a form h).elim
  | float form =>
    cases n with
    | int b => exact (hmark b form h.symm).elim
    | float form' =>
      cases form
      cases form'
      cases h
      rfl

/-- What may follow a value inside a larger one. -/
def Ends (xs : List Char) : Prop := ∀ c ∈ xs.head?, isNumberChar c = false

theorem takeWhile_number {cs xs : List Char} (hcs : ∀ c ∈ cs, isNumberChar c = true)
    (hxs : Ends xs) : (cs ++ xs).takeWhile isNumberChar = cs := by
  rw [List.takeWhile_append_of_pos hcs]
  cases xs with
  | nil => simp
  | cons x xs => simp [hxs x rfl]

theorem renderNumber_append_inj {m n : JsonNumber} {xs ys : List Char} (hxs : Ends xs)
    (hys : Ends ys) (h : (renderNumber m).toList ++ xs = (renderNumber n).toList ++ ys) :
    m = n ∧ xs = ys := by
  have htake := congrArg (List.takeWhile isNumberChar) h
  rw [takeWhile_number (isNumberChar_renderNumber m) hxs,
    takeWhile_number (isNumberChar_renderNumber n) hys] at htake
  refine ⟨renderNumber_inj (String.toList_inj.mp htake), ?_⟩
  rw [htake] at h
  exact List.append_cancel_left h

/-! ### Values -/

mutual

/-- The characters of a printed value. -/
def chars : Json → List Char
  | .null => "null".toList
  | .bool true => "true".toList
  | .bool false => "false".toList
  | .number n => (renderNumber n).toList
  | .string s => (renderString s).toList
  | .array elems => '[' :: charsArray elems
  | .object members => '\x7b' :: charsObject members

def charsArray : List Json → List Char
  | [] => [']']
  | v :: vs => chars v ++ charsElems vs

def charsObject : List (String × Json) → List Char
  | [] => ['\x7d']
  | (name, v) :: rest => (renderString name).toList ++ ':' :: (chars v ++ charsMembers rest)

/-- The elements after the first, and the closing bracket. -/
def charsElems : List Json → List Char
  | [] => [']']
  | v :: vs => ',' :: (chars v ++ charsElems vs)

/-- The members after the first, and the closing brace. -/
def charsMembers : List (String × Json) → List Char
  | [] => ['\x7d']
  | (name, v) :: rest =>
      ',' :: ((renderString name).toList ++ ':' :: (chars v ++ charsMembers rest))

end

mutual

theorem render_toList : ∀ v : Json, (render v).toList = chars v
  | .null | .bool true | .bool false | .number _ | .string _ => by simp [render, chars]
  | .array elems => by
      rw [chars, ← renderElems_toList elems]
      simp [render, String.toList_append, String.toList_intercalate]
  | .object members => by
      rw [chars, ← renderMembers_toList members]
      simp [render, String.toList_append, String.toList_intercalate]

theorem renderElems_toList : ∀ elems : List Json,
    [','].intercalate ((renderElems elems).map String.toList) ++ [']'] = charsArray elems
  | [] => by simp [renderElems, charsArray, List.intercalate]
  | [v] => by simp [renderElems, charsArray, charsElems, render_toList v, List.intercalate]
  | v :: w :: vs => by
      have hrest := renderElems_toList (w :: vs)
      simp only [renderElems, List.map_cons, charsArray] at hrest ⊢
      rw [List.intercalate_cons_cons, List.append_assoc, hrest, render_toList v, charsElems]
      simp

theorem renderMembers_toList : ∀ members : List (String × Json),
    [','].intercalate ((renderMembers members).map String.toList) ++ ['\x7d']
      = charsObject members
  | [] => by simp [renderMembers, charsObject, List.intercalate]
  | [(name, v)] => by
      simp [renderMembers, charsObject, charsMembers, render_toList v, List.intercalate,
        String.toList_append]
  | (name, v) :: (name', w) :: rest => by
      have hrest := renderMembers_toList ((name', w) :: rest)
      simp only [renderMembers, List.map_cons, charsObject] at hrest ⊢
      rw [List.intercalate_cons_cons, List.append_assoc, hrest, charsMembers]
      simp [String.toList_append, render_toList v]

end

/-! ### A text determines its value -/

theorem renderNumber_append_ne {n : JsonNumber} {c : Char} {xs ys : List Char}
    (hc : isNumberChar c = false) : (renderNumber n).toList ++ xs ≠ c :: ys := by
  intro h
  obtain ⟨d, ds, hd⟩ := List.exists_cons_of_ne_nil (renderNumber_ne_nil n)
  rw [hd, List.cons_append, List.cons.injEq] at h
  have := isNumberChar_renderNumber n d (by simp [hd])
  rw [h.1, hc] at this
  cases this

/-- The kinds of value a printed form can start. -/
inductive Kind where
  | null | yes | no | number | string | array | object
  deriving DecidableEq

def kind : Json → Kind
  | .null => .null
  | .bool true => .yes
  | .bool false => .no
  | .number _ => .number
  | .string _ => .string
  | .array _ => .array
  | .object _ => .object

/-- The first character of a printed value; every number counts as `0`. -/
def Kind.head : Kind → Char
  | .null => 'n'
  | .yes => 't'
  | .no => 'f'
  | .number => '0'
  | .string => '"'
  | .array => '['
  | .object => '\x7b'

theorem Kind.head_inj {k l : Kind} (h : k.head = l.head) : k = l := by
  revert h
  cases k <;> cases l <;> decide

theorem chars_cons (v : Json) : (∃ n, v = .number n) ∨
    isNumberChar v.kind.head = false ∧ ∃ cs, chars v = v.kind.head :: cs := by
  match v with
  | .number n => exact .inl ⟨n, rfl⟩
  | .null | .bool true | .bool false => exact .inr ⟨rfl, _, rfl⟩
  | .string s => exact .inr ⟨rfl, _, by rw [chars, renderString_toList, kind, Kind.head]⟩
  | .array _ | .object _ => exact .inr ⟨rfl, _, by rw [chars, kind, Kind.head]⟩

/-- Texts that start alike start with values of one kind. -/
theorem kind_eq {v w : Json} {xs ys : List Char} (h : chars v ++ xs = chars w ++ ys) :
    w.kind = v.kind := by
  rcases chars_cons v with ⟨m, rfl⟩ | ⟨hv, cs, hcs⟩ <;>
    rcases chars_cons w with ⟨n, rfl⟩ | ⟨hw, ds, hds⟩
  · rfl
  · rw [hds, chars, List.cons_append] at h
    exact (renderNumber_append_ne hw h).elim
  · rw [hcs, chars, List.cons_append] at h
    exact (renderNumber_append_ne hv h.symm).elim
  · rw [hcs, hds, List.cons_append, List.cons_append, List.cons.injEq] at h
    exact (Kind.head_inj h.1).symm

/-- No value starts like the end of an array. -/
theorem chars_append_ne {v : Json} {xs ys : List Char} : chars v ++ xs ≠ ']' :: ys := by
  intro h
  rcases chars_cons v with ⟨n, rfl⟩ | ⟨-, cs, hcs⟩
  · rw [chars] at h
    exact renderNumber_append_ne rfl h
  · rw [hcs, List.cons_append, List.cons.injEq] at h
    have hne : v.kind.head ≠ ']' := by cases v.kind <;> decide
    exact hne h.1

/-- A value of a kind has its form. -/
def Kind.Holds (w : Json) : Kind → Prop
  | .null => w = .null
  | .yes => w = .bool true
  | .no => w = .bool false
  | .number => ∃ n, w = .number n
  | .string => ∃ s, w = .string s
  | .array => ∃ vs, w = .array vs
  | .object => ∃ ms, w = .object ms

theorem kind_holds (w : Json) : w.kind.Holds w := by
  match w with
  | .null | .bool true | .bool false => rfl
  | .number n => exact ⟨n, rfl⟩
  | .string s => exact ⟨s, rfl⟩
  | .array vs => exact ⟨vs, rfl⟩
  | .object ms => exact ⟨ms, rfl⟩

/-- Texts that start alike: the second value has the form of the first. -/
theorem holds_of_append_eq {v w : Json} {xs ys : List Char} (h : chars v ++ xs = chars w ++ ys) :
    v.kind.Holds w :=
  kind_eq h ▸ kind_holds w

theorem ends_elems (vs : List Json) (xs : List Char) : Ends (charsElems vs ++ xs) := by
  cases vs <;> simp [charsElems, Ends] <;> rfl

theorem ends_members (members : List (String × Json)) (xs : List Char) :
    Ends (charsMembers members ++ xs) := by
  cases members <;> simp [charsMembers, Ends] <;> rfl

/-- After the first, all elements are written alike. -/
theorem charsElems_of_array {vs ws : List Json} {xs ys : List Char}
    (h : charsArray vs ++ xs = charsArray ws ++ ys) :
    charsElems vs ++ xs = charsElems ws ++ ys := by
  cases vs <;> cases ws
  case nil.nil => exact h
  case cons.cons => exact congrArg (',' :: ·) h
  all_goals
    simp only [charsArray, List.append_assoc, List.singleton_append] at h
  · exact (chars_append_ne h.symm).elim
  · exact (chars_append_ne h).elim

theorem charsMembers_of_object {ms ns : List (String × Json)} {xs ys : List Char}
    (h : charsObject ms ++ xs = charsObject ns ++ ys) :
    charsMembers ms ++ xs = charsMembers ns ++ ys := by
  cases ms <;> cases ns
  case nil.nil => exact h
  case cons.cons => exact congrArg (',' :: ·) h
  all_goals simp [charsObject, renderString_toList] at h

mutual

/-- A value is determined by any text that starts with it and goes on with no number. -/
theorem chars_append_inj : ∀ (v : Json) ⦃w : Json⦄ ⦃xs ys : List Char⦄, Ends xs → Ends ys →
    chars v ++ xs = chars w ++ ys → v = w ∧ xs = ys
  | .null => by
      intro w xs ys _ _ h
      obtain rfl : w = _ := holds_of_append_eq h
      exact ⟨rfl, List.append_cancel_left h⟩
  | .bool b => by
      intro w xs ys _ _ h
      have hw := holds_of_append_eq h
      cases b <;> obtain rfl : w = _ := hw <;> exact ⟨rfl, List.append_cancel_left h⟩
  | .number m => by
      intro w xs ys hxs hys h
      obtain ⟨n, rfl⟩ := holds_of_append_eq h
      simp only [chars] at h
      obtain ⟨rfl, rfl⟩ := renderNumber_append_inj hxs hys h
      exact ⟨rfl, rfl⟩
  | .string s => by
      intro w xs ys _ _ h
      obtain ⟨t, rfl⟩ := holds_of_append_eq h
      simp only [chars] at h
      obtain ⟨rfl, rfl⟩ := renderString_append_inj h
      exact ⟨rfl, rfl⟩
  | .array vs => by
      intro w xs ys _ _ h
      obtain ⟨ws, rfl⟩ := holds_of_append_eq h
      simp only [chars, List.cons_append, List.cons.injEq, true_and] at h
      obtain ⟨rfl, rfl⟩ := charsElems_append_inj vs (charsElems_of_array h)
      exact ⟨rfl, rfl⟩
  | .object ms => by
      intro w xs ys _ _ h
      obtain ⟨ns, rfl⟩ := holds_of_append_eq h
      simp only [chars, List.cons_append, List.cons.injEq, true_and] at h
      obtain ⟨rfl, rfl⟩ := charsMembers_append_inj ms (charsMembers_of_object h)
      exact ⟨rfl, rfl⟩

theorem charsElems_append_inj : ∀ (vs : List Json) ⦃ws : List Json⦄ ⦃xs ys : List Char⦄,
    charsElems vs ++ xs = charsElems ws ++ ys → vs = ws ∧ xs = ys
  | [] => by
      intro ws xs ys h
      cases ws with
      | nil => exact ⟨rfl, List.append_cancel_left h⟩
      | cons w ws => simp [charsElems] at h
  | v :: vs => by
      intro ws xs ys h
      cases ws with
      | nil => simp [charsElems] at h
      | cons w ws =>
        simp only [charsElems, List.cons_append, List.append_assoc, List.cons.injEq, true_and] at h
        obtain ⟨rfl, hrest⟩ := chars_append_inj v (ends_elems vs xs) (ends_elems ws ys) h
        obtain ⟨rfl, rfl⟩ := charsElems_append_inj vs hrest
        exact ⟨rfl, rfl⟩

theorem charsMembers_append_inj : ∀ (ms : List (String × Json)) ⦃ns : List (String × Json)⦄
    ⦃xs ys : List Char⦄, charsMembers ms ++ xs = charsMembers ns ++ ys → ms = ns ∧ xs = ys
  | [] => by
      intro ns xs ys h
      cases ns with
      | nil => exact ⟨rfl, List.append_cancel_left h⟩
      | cons n ns => simp [charsMembers] at h
  | (name, v) :: ms => by
      intro ns xs ys h
      cases ns with
      | nil => simp [charsMembers] at h
      | cons n ns =>
        simp only [charsMembers, List.cons_append, List.append_assoc, List.cons.injEq,
          true_and] at h
        obtain ⟨hname, hcolon⟩ := renderString_append_inj h
        rw [List.cons.injEq] at hcolon
        obtain ⟨hv, hrest⟩ := chars_append_inj v (ends_members ms xs) (ends_members ns ys) hcolon.2
        obtain ⟨rfl, rfl⟩ := charsMembers_append_inj ms hrest
        exact ⟨by rw [hname, hv], rfl⟩

end

/-- Values that print alike are the same. -/
theorem render_injective : Function.Injective render := by
  intro v w h
  have hchars : chars v ++ [] = chars w ++ [] := by rw [← render_toList, ← render_toList, h]
  exact (chars_append_inj v (by simp [Ends]) (by simp [Ends]) hchars).1

/-! ### No NUL -/

theorem nul_not_mem_escapeChar (c : Char) : '\x00' ∉ escapeChar c := by
  by_cases hc : c.toNat < 32
  · obtain ⟨n, hn⟩ : ∃ n, c.toNat = n := ⟨_, rfl⟩
    obtain rfl : c = Char.ofNat n := by rw [← hn, Char.ofNat_toNat]
    rw [hn] at hc
    interval_cases n <;> decide
  · have hne : '\x00' ≠ c := by
      rintro rfl
      exact hc (by decide)
    have hge : ¬ c.val < 32 := fun hlt => hc (UInt32.lt_iff_toNat_lt.mp hlt)
    unfold escapeChar
    split_ifs <;> simp_all

theorem nul_not_mem_renderString (s : String) : '\x00' ∉ (renderString s).toList := by
  simp only [renderString_toList, List.mem_cons, List.mem_append, List.mem_flatMap,
    List.not_mem_nil, or_false, not_or, not_exists, not_and]
  exact ⟨by decide, fun c _ => nul_not_mem_escapeChar c, by decide⟩

theorem nul_not_mem_renderNumber (n : JsonNumber) : '\x00' ∉ (renderNumber n).toList :=
  fun h => Bool.false_ne_true (isNumberChar_renderNumber n _ h)

mutual

theorem nul_not_mem_chars : ∀ v : Json, '\x00' ∉ chars v
  | .null | .bool true | .bool false => by decide
  | .number n => by rw [chars]; exact nul_not_mem_renderNumber n
  | .string s => by rw [chars]; exact nul_not_mem_renderString s
  | .array [] | .object [] => by simp [chars, charsArray, charsObject]
  | .array (v :: vs) => by
      simp [chars, charsArray, nul_not_mem_chars v, nul_not_mem_charsElems vs]
  | .object ((name, v) :: rest) => by
      simp [chars, charsObject, nul_not_mem_renderString name, nul_not_mem_chars v,
        nul_not_mem_charsMembers rest]

theorem nul_not_mem_charsElems : ∀ vs : List Json, '\x00' ∉ charsElems vs
  | [] => by simp [charsElems]
  | v :: vs => by simp [charsElems, nul_not_mem_chars v, nul_not_mem_charsElems vs]

theorem nul_not_mem_charsMembers : ∀ ms : List (String × Json), '\x00' ∉ charsMembers ms
  | [] => by simp [charsMembers]
  | (name, v) :: rest => by
      simp [charsMembers, nul_not_mem_renderString name, nul_not_mem_chars v,
        nul_not_mem_charsMembers rest]

end

theorem nul_not_mem_render (v : Json) : '\x00' ∉ (render v).toList :=
  render_toList v ▸ nul_not_mem_chars v

end Json

end SchemaRegistry

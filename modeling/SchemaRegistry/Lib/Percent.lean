import SchemaRegistry.Lib.Bytes
import Mathlib.Data.List.Forall2

/-!
Percent-coding of text, byte by byte: escapes read back, with or without the form
convention in which a bare `+` stands for another byte, and the text that a writer which
escapes everything outside a set of bytes produces.
-/

namespace SchemaRegistry.Lib

/-! ### Reading escapes back -/

/-- `(b as char).to_digit(16)`. -/
def toDigit (b : UInt8) : Option UInt8 :=
  if 0x30 ≤ b && b ≤ 0x39 then some (b - 0x30)
  else if 0x61 ≤ b && b ≤ 0x66 then some (b - 0x57)
  else if 0x41 ≤ b && b ≤ 0x46 then some (b - 0x37)
  else none

/-- The byte that two digits after a `%` spell. -/
def escaped (h l : UInt8) : Option UInt8 := do
  let h ← toDigit h
  let l ← toDigit l
  some (h <<< 4 ||| l)

/-- A byte outside an escape: `plus` is what a `+` stands for. -/
def bare (plus b : UInt8) : UInt8 := if b = 0x2B then plus else b

/-- Read escapes back; a `%` that starts none stands for itself. -/
def unescape (plus : UInt8) : Bytes → Bytes
  | [] => []
  | [b] => [bare plus b]
  | [b, c] => [bare plus b, bare plus c]
  | b :: h :: l :: rest =>
      match if b = 0x25 then escaped h l else none with
      | some x => x :: unescape plus rest
      | none => bare plus b :: unescape plus (h :: l :: rest)

theorem unescape_cons {plus b : UInt8} (hb : b ≠ 0x25) (rest : Bytes) :
    unescape plus (b :: rest) = bare plus b :: unescape plus rest := by
  match rest with
  | [] => rfl
  | [_] => rfl
  | _ :: _ :: _ => simp [unescape, hb]

theorem unescape_escaped {plus h l x : UInt8} (hx : escaped h l = some x) (rest : Bytes) :
    unescape plus (0x25 :: h :: l :: rest) = x :: unescape plus rest := by
  simp [unescape, hx]

/-- A `+` is no hexadecimal digit, so it never stands inside an escape. -/
theorem plus_ne_of_escaped {h l x : UInt8} (hx : escaped h l = some x) : h ≠ 0x2B ∧ l ≠ 0x2B := by
  have hplus : toDigit 0x2B = none := by decide
  constructor
  · rintro rfl
    simp [escaped, hplus] at hx
  · rintro rfl
    simp [escaped, hplus] at hx

theorem eq_percent_of_escaped {b h l x : UInt8}
    (hx : (if b = 0x25 then escaped h l else none) = some x) : b = 0x25 ∧ escaped h l = some x := by
  split at hx
  · next hb => exact ⟨hb, hx⟩
  · cases hx

theorem bare_plus (b : UInt8) : bare 0x2B b = b := by
  unfold bare
  split
  · next hb => exact hb.symm
  · rfl

/-- How a byte read with one meaning of `+` stands to the byte read with `+` as itself. -/
def PlusRead (plus a b : UInt8) : Prop := a = b ∨ a = plus ∧ b = 0x2B

theorem plusRead_bare (plus b : UInt8) : PlusRead plus (bare plus b) (bare 0x2B b) := by
  unfold PlusRead bare
  split <;> simp

/-- The two readings of one text go byte by byte. -/
theorem unescape_forall₂ (plus : UInt8) (bs : Bytes) :
    List.Forall₂ (PlusRead plus) (unescape plus bs) (unescape 0x2B bs) := by
  fun_induction unescape plus bs with
  | case1 => exact .nil
  | case2 b => exact .cons (plusRead_bare plus b) .nil
  | case3 b c => exact .cons (plusRead_bare plus b) (.cons (plusRead_bare plus c) .nil)
  | case4 b h l rest x hx ih =>
    rw [unescape, hx]
    exact .cons (.inl rfl) ih
  | case5 b h l rest hx ih =>
    rw [unescape, hx]
    exact .cons (plusRead_bare plus b) ih

/-- The two readings agree exactly on texts without a `+`. -/
theorem unescape_eq_iff {plus : UInt8} (hplus : plus ≠ 0x2B) (bs : Bytes) :
    unescape plus bs = unescape 0x2B bs ↔ 0x2B ∉ bs := by
  have hbare : ∀ b, bare plus b = bare 0x2B b ↔ b ≠ 0x2B := by
    intro b
    unfold bare
    split
    · next hb => simp [hb, hplus]
    · next hb => simp [hb]
  have hne :
      ∀ {b : UInt8}, b ≠ 0x2B ↔ ¬ 0x2B = b := fun {b} => ⟨fun h e => h e.symm, fun h e => h e.symm⟩
  fun_induction unescape plus bs with
  | case1 => simp [unescape]
  | case2 b => simp [unescape, hbare, hne]
  | case3 b c => simp [unescape, hbare, hne]
  | case4 b h l rest x hx ih =>
    obtain ⟨rfl, hx'⟩ := eq_percent_of_escaped hx
    obtain ⟨hh, hl⟩ := plus_ne_of_escaped hx'
    rw [unescape, hx]
    simp [ih, hne.mp hh, hne.mp hl]
  | case5 b h l rest hx ih =>
    rw [unescape, hx]
    simp only [List.cons.injEq, hbare, ih, hne]
    simp

/-- A `+` of the text that stands for itself is there after reading. -/
theorem plus_mem_unescape {bs : Bytes} (h : 0x2B ∈ bs) : 0x2B ∈ unescape 0x2B bs := by
  fun_induction unescape 0x2B bs with
  | case1 => exact h
  | case2 b => simpa [bare_plus] using h
  | case3 b c => simpa [bare_plus] using h
  | case4 b h' l rest x hx ih =>
    obtain ⟨rfl, hx'⟩ := eq_percent_of_escaped hx
    obtain ⟨hh, hl⟩ := plus_ne_of_escaped hx'
    simp only [List.mem_cons, hh.symm, hl.symm, false_or] at h
    exact List.mem_cons_of_mem x (ih (h.resolve_left (by decide)))
  | case5 b h' l rest hx ih =>
    rw [bare_plus]
    exact List.mem_cons.mpr ((List.mem_cons.mp h).imp_right ih)

/-! ### From bytes to text -/

/-- How a character read with one meaning of `+` stands to the one read with `+` as itself. -/
def PlusReadChar (plus a b : Char) : Prop := a = b ∨ a = plus ∧ b = '+'

/-- An ASCII character is its own byte; every byte of a longer encoding is beyond ASCII. -/
theorem utf8EncodeChar_cases (c : Char) :
    (∃ b : UInt8, c.val.toNat = b.toNat ∧ String.utf8EncodeChar c = [b]) ∨
      ∀ b ∈ String.utf8EncodeChar c, 128 ≤ b.toNat := by
  by_cases hascii : ∃ b ∈ String.utf8EncodeChar c, b.toNat < 128
  · obtain ⟨b, hmem, hb⟩ := hascii
    have hval := val_of_mem_utf8EncodeChar hb hmem
    have hsize : c.utf8Size = 1 := by
      rw [Char.utf8Size_eq_one_iff, UInt32.le_iff_toNat_le, hval]
      exact Nat.le_of_lt_succ hb
    rw [String.utf8EncodeChar_eq_singleton hsize] at hmem ⊢
    exact .inl ⟨b, hval, by rw [List.mem_singleton.mp hmem]⟩
  · exact .inr fun b hmem => Nat.le_of_not_lt fun hb => hascii ⟨b, hmem, hb⟩

theorem char_of_val {c d : Char} (h : c.val.toNat = d.val.toNat) : c = d :=
  Char.ext (UInt32.toNat_inj.mp h)

/-- Bytes that read like a text but for the meaning of `+` are the bytes of such a text. -/
theorem exists_chars_of_plusRead {plus : Char} {p : UInt8}
    (hp : String.utf8EncodeChar plus = [p]) {l : List Char} {bs : Bytes}
    (h : List.Forall₂ (PlusRead p) bs (l.flatMap String.utf8EncodeChar)) :
    ∃ l', bs = l'.flatMap String.utf8EncodeChar ∧ List.Forall₂ (PlusReadChar plus) l' l := by
  induction l generalizing bs with
  | nil =>
    cases h
    exact ⟨[], rfl, .nil⟩
  | cons c l ih =>
    rw [List.flatMap_cons] at h
    obtain ⟨l', hrest, hl'⟩ := ih (List.forall₂_drop_append _ _ _ h)
    have hhead := List.forall₂_take_append _ _ _ h
    suffices ∃ c', bs.take (String.utf8EncodeChar c).length = String.utf8EncodeChar c' ∧
        PlusReadChar plus c' c by
      obtain ⟨c', hc', hread⟩ := this
      refine ⟨c' :: l', ?_, .cons hread hl'⟩
      rw [List.flatMap_cons, ← hc', ← hrest, List.take_append_drop]
    generalize bs.take (String.utf8EncodeChar c).length = front at hhead
    rcases utf8EncodeChar_cases c with ⟨b, hval, hone⟩ | hbeyond
    · rw [hone] at hhead
      obtain ⟨a, tail, hread, hnil, rfl⟩ := List.forall₂_cons_right_iff.mp hhead
      cases hnil
      rcases hread with rfl | ⟨rfl, rfl⟩
      · exact ⟨c, hone.symm, .inl rfl⟩
      · exact ⟨plus, hp.symm, .inr ⟨rfl, char_of_val hval⟩⟩
    · refine ⟨c, ?_, .inl rfl⟩
      generalize String.utf8EncodeChar c = enc at hhead hbeyond
      induction hhead with
      | nil => rfl
      | cons hread hrest ih =>
        rcases hread with rfl | ⟨-, rfl⟩
        · rw [ih fun b hb => hbeyond b (List.mem_cons_of_mem _ hb)]
        · exact absurd (hbeyond 0x2B List.mem_cons_self) (by decide)

theorem exists_text_of_plusRead {plus : Char} {p : UInt8}
    (hp : String.utf8EncodeChar plus = [p]) {t : String} {bs : Bytes}
    (h : List.Forall₂ (PlusRead p) bs (utf8 t)) :
    ∃ t' : String, bs = utf8 t' ∧ List.Forall₂ (PlusReadChar plus) t'.toList t.toList := by
  rw [← String.ofList_toList (s := t), utf8_ofList] at h
  obtain ⟨l', rfl, hl'⟩ := exists_chars_of_plusRead hp h
  exact ⟨String.ofList l', (utf8_ofList l').symm, by simpa using hl'⟩

/-! ### Writing escapes -/

/-- `u8::is_ascii_alphanumeric`. -/
def alphanumeric (b : UInt8) : Bool :=
  (0x30 ≤ b && b ≤ 0x39) || (0x41 ≤ b && b ≤ 0x5A) || (0x61 ≤ b && b ≤ 0x7A)

def hexUpper (n : Nat) : Char := "0123456789ABCDEF".toList.getD (n % 16) '0'

/-- A byte as written: itself when it may stand bare, else `%XX`. -/
def escapeByte (keep : UInt8 → Bool) (b : UInt8) : List Char :=
  if keep b then [Char.ofNat b.toNat] else ['%', hexUpper (b.toNat / 16), hexUpper b.toNat]

def escapeText (keep : UInt8 → Bool) (s : String) : String :=
  String.ofList ((utf8 s).flatMap (escapeByte keep))

theorem utf8EncodeChar_hexUpper (n : Nat) :
    String.utf8EncodeChar (hexUpper n) = [(hexUpper n).val.toUInt8] := by
  have hsize : ∀ k < 16, ("0123456789ABCDEF".toList.getD k '0').utf8Size = 1 := by decide
  exact String.utf8EncodeChar_eq_singleton (hsize _ (Nat.mod_lt _ (by decide)))

theorem escaped_hexUpper (b : UInt8) :
    escaped (hexUpper (b.toNat / 16)).val.toUInt8 (hexUpper b.toNat).val.toUInt8 = some b := by
  have hall : ∀ n < 256, escaped (hexUpper (n / 16)).val.toUInt8 (hexUpper n).val.toUInt8
      = some (UInt8.ofNat n) := by
    decide +kernel
  simpa using hall b.toNat b.toNat_lt

theorem utf8EncodeChar_ofNat {b : UInt8} (hb : b.toNat < 128) :
    String.utf8EncodeChar (Char.ofNat b.toNat) = [b] := by
  have hall : ∀ n < 128, String.utf8EncodeChar (Char.ofNat n) = [UInt8.ofNat n] := by
    decide
  simpa using hall b.toNat hb

section ReadBack

variable {keep : UInt8 → Bool} {plus : UInt8}
  (hkeep : ∀ b, keep b = true → b.toNat < 128 ∧ b ≠ 0x25 ∧ bare plus b = b)
include hkeep

/-- One written byte reads back, whatever follows. -/
theorem unescape_escapeByte (b : UInt8) (rest : Bytes) :
    unescape plus ((escapeByte keep b).flatMap String.utf8EncodeChar ++ rest)
      = b :: unescape plus rest := by
  unfold escapeByte
  split
  · next hb =>
      obtain ⟨hascii, hpercent, hbare⟩ := hkeep b hb
      rw [List.flatMap_singleton, utf8EncodeChar_ofNat hascii, List.singleton_append,
        unescape_cons hpercent, hbare]
  · have hpercent : String.utf8EncodeChar '%' = [0x25] := by decide
    simp only [List.flatMap_cons, List.flatMap_nil, hpercent, utf8EncodeChar_hexUpper,
      List.append_nil, List.cons_append]
    exact unescape_escaped (escaped_hexUpper b) rest

/-- What is written reads back when the bytes left bare stand for themselves. -/
theorem unescape_escapeText_of_bare (s : String) : unescape plus (utf8 (escapeText keep s))
    = utf8 s := by
  rw [escapeText, utf8_ofList]
  induction utf8 s with
  | nil => rfl
  | cons b bs ih =>
    rw [List.flatMap_cons, List.flatMap_append, unescape_escapeByte hkeep, ih]

end ReadBack

/-- What is written reads back, whatever a bare `+` means. -/
theorem unescape_escapeText {keep : UInt8 → Bool} {plus : UInt8}
    (hkeep : ∀ b, keep b = true → b.toNat < 128 ∧ b ≠ 0x25 ∧ b ≠ 0x2B) (s : String) :
    unescape plus (utf8 (escapeText keep s)) = utf8 s := by
  refine unescape_escapeText_of_bare (fun b hb => ?_) s
  obtain ⟨hascii, hpercent, hplus⟩ := hkeep b hb
  exact ⟨hascii, hpercent, if_neg hplus⟩

theorem hexUpper_mem (n : Nat) : hexUpper n ∈ "0123456789ABCDEF".toList := by
  have hlt : n % 16 < "0123456789ABCDEF".toList.length := Nat.mod_lt n (by decide)
  rw [hexUpper, List.getD_eq_getElem?_getD, List.getElem?_eq_getElem hlt]
  exact List.getElem_mem hlt

/-- An ASCII character that no escape is written with stands where it stood, if it is kept. -/
theorem mem_escapeText {keep : UInt8 → Bool} {c : Char} {b : UInt8} (hb : b.toNat < 128)
    (hc : c.val.toNat = b.toNat) (hhex : c ∉ '%' :: "0123456789ABCDEF".toList) {s : String} :
    c ∈ (escapeText keep s).toList ↔ keep b = true ∧ c ∈ s.toList := by
  have hbyte : ∀ b' : UInt8, c ∈ escapeByte keep b' ↔ keep b' = true ∧ b' = b := by
    intro b'
    rw [List.mem_cons, not_or] at hhex
    have hval : c = Char.ofNat b'.toNat ↔ b' = b := by
      have hvalid : b'.toNat.isValidChar := .inl (by have := b'.toNat_lt; omega)
      have hchar : (Char.ofNat b'.toNat).val.toNat = b'.toNat := by
        rw [Char.ofNat, dif_pos hvalid]
        rfl
      rw [Char.ext_iff, ← UInt32.toNat_inj, hchar, hc, UInt8.toNat_inj]
      exact eq_comm
    unfold escapeByte
    split
    · next hkeep => simp [hkeep, hval]
    · next hkeep =>
        have hne : ∀ n, c ≠ hexUpper n := fun n h => hhex.2 (h ▸ hexUpper_mem n)
        simp [hkeep, hhex.1, hne]
  rw [escapeText, String.toList_ofList, List.mem_flatMap, ← mem_utf8 hb hc]
  simp only [hbyte]
  constructor
  · rintro ⟨b', hmem, hkeep, rfl⟩
    exact ⟨hkeep, hmem⟩
  · rintro ⟨hkeep, hmem⟩
    exact ⟨b, hmem, hkeep, rfl⟩

theorem not_mem_escapeText {keep : UInt8 → Bool} {c : Char} {b : UInt8} (hb : b.toNat < 128)
    (hc : c.val.toNat = b.toNat) (hhex : c ∉ '%' :: "0123456789ABCDEF".toList)
    (hkeep : keep b = false) (s : String) : c ∉ (escapeText keep s).toList := by
  rw [mem_escapeText hb hc hhex, hkeep]
  simp

/-- Letters and digits have no meaning of their own. -/
theorem bare_of_alphanumeric {b : UInt8} (h : alphanumeric b = true) :
    b.toNat < 128 ∧ b ≠ 0x25 ∧ b ≠ 0x2B := by
  simp only [alphanumeric, Bool.or_eq_true, Bool.and_eq_true, decide_eq_true_eq,
    UInt8.le_iff_toNat_le, ne_eq, ← UInt8.toNat_inj, UInt8.toNat_ofNat] at h ⊢
  omega

/-- A text of characters that may all stand bare is written as it is. -/
theorem escapeText_eq_self {keep : UInt8 → Bool} {s : String}
    (h : ∀ c ∈ s.toList, c.val.toNat < 128 ∧ keep c.val.toUInt8 = true) :
    escapeText keep s = s := by
  have hbyte : ∀ c ∈ s.toList, (String.utf8EncodeChar c).flatMap (escapeByte keep) = [c] := by
    intro c hc
    obtain ⟨hascii, hkeep⟩ := h c hc
    have hsize : c.utf8Size = 1 := by
      rw [Char.utf8Size_eq_one_iff, UInt32.le_iff_toNat_le]
      exact Nat.le_of_lt_succ hascii
    have hval : c.val.toUInt8.toNat = c.val.toNat := by
      rw [UInt32.toNat_toUInt8, Nat.mod_eq_of_lt (by omega)]
    rw [String.utf8EncodeChar_eq_singleton hsize, List.flatMap_singleton, escapeByte, if_pos hkeep,
      hval]
    exact congrArg (fun c => [c]) (Char.ofNat_toNat c)
  rw [escapeText, ← String.toList_inj, String.toList_ofList]
  conv_lhs => rw [← String.ofList_toList (s := s), utf8_ofList]
  rw [List.flatMap_assoc, List.flatMap_congr hbyte, List.flatMap_singleton']

end SchemaRegistry.Lib

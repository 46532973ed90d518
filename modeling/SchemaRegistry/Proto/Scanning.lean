import SchemaRegistry.Schema.Proto.Tokens
import Mathlib.Data.Bool.AllAny

/-!
Dropping the formatting of a source keeps its tokens. The two scanners go over the text side by
side: what the one skips the other skips too, what a token takes is copied as it is, and where
whitespace goes the next character could not have continued the token before it.
-/

namespace SchemaRegistry.Proto

open Lib

variable {u : CharTable} {c : Char} {rest : List Char} {s : Formatting}

/-! ### Characters -/

/-- A character of the formatted text that ends every token before it. -/
def Parts (c : Char) : Prop := c ∈ ' ' :: "\x7b\x7d();=,<>[]".toList

/-- A character that is copied as it is, and closes no gap. -/
structure Plain (c : Char) : Prop where
  white : isWhitespace c = false
  slash : c ≠ '/'
  quote : isQuote c = false
  punct : isPunct c = false

theorem Parts.spec (h : Parts c) : c.val < 128 ∧ c.isAlphanum = false ∧
    c.isDigit = false ∧ c.isAlpha = false ∧ c ∉ ['.', '-', '+', '_', '/', '*'] := by
  have hall : ∀ c ∈ ' ' :: "\x7b\x7d();=,<>[]".toList, c.val < 128 ∧ c.isAlphanum = false ∧
      c.isDigit = false ∧ c.isAlpha = false ∧ c ∉ ['.', '-', '+', '_', '/', '*'] :=
    List.all_iff_forall_prop.mp (by decide)
  exact hall c h

theorem parts_of_isPunct (h : isPunct c = true) : Parts c :=
  List.mem_cons_of_mem _ (by simpa [isPunct] using h)

theorem CharTable.isAlphanumeric_of_ascii (h : c.val < 128) :
    u.isAlphanumeric c = c.isAlphanum := by
  rw [CharTable.isAlphanumeric, (u.ascii c h).1, (u.ascii c h).2]
  rfl

theorem Parts.not_inNumber (h : Parts c) (prev : Char) : inNumber prev c = false := by
  obtain ⟨-, halnum, -, -, hnot⟩ := h.spec
  simp only [List.mem_cons, List.not_mem_nil, or_false, not_or] at hnot
  simp [inNumber, halnum, hnot]

theorem Parts.not_inIdent (h : Parts c) : inIdent u c = false := by
  obtain ⟨hascii, halnum, -, -, hnot⟩ := h.spec
  simp only [List.mem_cons, List.not_mem_nil, or_false, not_or] at hnot
  simp [inIdent, u.isAlphanumeric_of_ascii hascii, halnum, hnot]

theorem Parts.not_startsIdent (h : Parts c) : startsIdent u c = false := by
  obtain ⟨hascii, -, -, halpha, hnot⟩ := h.spec
  simp only [List.mem_cons, List.not_mem_nil, or_false, not_or] at hnot
  simp [startsIdent, (u.ascii c hascii).1, halpha, hnot]

/-- Characters that no number and no identifier holds. -/
theorem plain_of_not_special (hwhite : isWhitespace c = false)
    (h : c ∉ ['/', '"', '\''] ++ "\x7b\x7d();=,<>[]".toList) : Plain c := by
  simp only [List.mem_append, List.mem_cons, List.not_mem_nil, or_false, not_or] at h
  obtain ⟨⟨hslash, hdouble, hsingle⟩, hpunct⟩ := h
  exact ⟨hwhite, hslash, by simp [isQuote, hdouble, hsingle], by simpa [isPunct] using hpunct⟩

theorem ascii_spec (hascii : c.val < 128)
    (h : c.isAlphanum = true ∨ c ∈ ['.', '-', '+', '_']) : isWhitespace c = false ∧
      c ∉ ['/', '"', '\''] ++ "\x7b\x7d();=,<>[]".toList := by
  have hall : ∀ n < 128, ((Char.ofNat n).isAlphanum = true ∨ Char.ofNat n ∈ ['.', '-', '+', '_']) →
      isWhitespace (Char.ofNat n) = false ∧
        Char.ofNat n ∉ ['/', '"', '\''] ++ "\x7b\x7d();=,<>[]".toList := by
    decide
  have hc := hall c.toNat (UInt32.lt_iff_toNat_lt.mp hascii)
  rw [Char.ofNat_toNat] at hc
  exact hc h

theorem isAlphanum_ascii (h : c.isAlphanum = true) : c.val < 128 := by
  change ((decide (c.val ≥ 'A'.val ∧ c.val ≤ 'Z'.val)
    || decide (c.val ≥ 'a'.val) && decide (c.val ≤ 'z'.val))
    || decide (c.val ≥ '0'.val) && decide (c.val ≤ '9'.val)) = true at h
  simp only [Bool.or_eq_true, Bool.and_eq_true, decide_eq_true_eq, ge_iff_le,
    UInt32.le_iff_toNat_le] at h
  rw [UInt32.lt_iff_toNat_lt]
  have hbound : c.val.toNat ≤ 122 := by
    rcases h with (h | h) | h
    · exact Nat.le_trans h.2 (by decide)
    · exact Nat.le_trans h.2 (by decide)
    · exact Nat.le_trans h.2 (by decide)
  exact Nat.lt_of_le_of_lt hbound (by decide)

theorem plain_of_inNumber {prev c : Char} (h : inNumber prev c = true) : Plain c := by
  have hcases : c.isAlphanum = true ∨ c ∈ ['.', '-', '+', '_'] := by
    simp only [inNumber, Bool.or_eq_true, Bool.and_eq_true, beq_iff_eq] at h
    rcases h with (h | rfl) | ⟨rfl | rfl, -⟩
    · exact .inl h
    · exact .inr (by decide)
    · exact .inr (by decide)
    · exact .inr (by decide)
  have hascii : c.val < 128 := by
    rcases hcases with h | h
    · exact isAlphanum_ascii h
    · have hall : ∀ c ∈ ['.', '-', '+', '_'], c.val < 128 :=
        List.all_iff_forall_prop.mp (by decide)
      exact hall c h
  obtain ⟨hwhite, hnot⟩ := ascii_spec hascii hcases
  exact plain_of_not_special hwhite hnot

theorem plain_of_inIdent (h : inIdent u c = true) : Plain c := by
  have hascii : ∀ c ∈ ['/', '"', '\''] ++ "\x7b\x7d();=,<>[]".toList,
      c.val < 128 ∧ c.isAlphanum = false ∧ c ≠ '_' ∧ c ≠ '.' :=
    List.all_iff_forall_prop.mp (by decide)
  have hwhite : isWhitespace c = false := by
    by_contra hc
    rw [Bool.not_eq_false] at hc
    have hne : c ≠ '_' ∧ c ≠ '.' := by
      constructor <;> (rintro rfl; exact absurd hc (by decide))
    simp [inIdent, CharTable.isAlphanumeric, u.whitespace c hc, hne] at h
  refine plain_of_not_special hwhite fun hmem => ?_
  obtain ⟨hlt, halnum, hne⟩ := hascii c hmem
  simp [inIdent, u.isAlphanumeric_of_ascii hlt, halnum, hne] at h

/-! ### Turns shorten the text -/

theorem skipBlock_suffix (cs : List Char) : skipBlock cs <:+ cs := by
  fun_induction skipBlock cs with
  | case1 a b rest h => exact ⟨[a, b], rfl⟩
  | case2 a b rest h ih => exact ih.trans (List.suffix_cons a _)
  | case3 cs => exact List.nil_suffix

theorem takeString_suffix (q : Char) (cs : List Char) : (takeString q cs).2 <:+ cs := by
  fun_induction takeString q cs with
  | case1 => exact List.nil_suffix
  | case2 rest => exact List.suffix_cons q rest
  | case3 d rest h ih => exact ih.trans ⟨['\\', d], rfl⟩
  | case4 h => exact List.nil_suffix
  | case5 c rest hq hesc ih => exact ih.trans (List.suffix_cons c rest)

theorem takeNumber_append (prev : Char) (cs : List Char) :
    (takeNumber prev cs).1 ++ (takeNumber prev cs).2 = cs := by
  fun_induction takeNumber prev cs with
  | case1 => rfl
  | case2 prev c rest h ih => rw [List.cons_append, ih]
  | case3 prev c rest h => rfl

theorem afterLine_suffix (cs : List Char) : afterLine cs <:+ cs := by
  fun_induction afterLine cs with
  | case1 => exact List.nil_suffix
  | case2 rest => exact List.suffix_cons _ rest
  | case3 c rest h ih => exact ih.trans (List.suffix_cons c rest)

theorem afterBlock_suffix (prev : Char) (cs : List Char) : afterBlock prev cs <:+ cs := by
  fun_induction afterBlock prev cs with
  | case1 => exact List.nil_suffix
  | case2 prev c rest h => exact List.suffix_cons c rest
  | case3 prev c rest h ih => exact ih.trans (List.suffix_cons c rest)

theorem lexeme_suffix {rest left : List Char} {t : Option Tok}
    (h : lexeme u c rest = some (t, left)) : left <:+ rest := by
  unfold lexeme at h
  split at h
  · cases h
    exact List.suffix_rfl
  split at h
  · next hline =>
      cases h
      have hc : c = '/' := by
        simp only [Bool.and_eq_true, beq_iff_eq] at hline
        exact hline.1
      rw [List.dropWhile_cons_of_pos (by rw [hc]; decide)]
      exact List.dropWhile_suffix _
  split at h
  · cases h
    exact (skipBlock_suffix _).trans (List.tail_suffix rest)
  split at h
  · cases h
    exact takeString_suffix c rest
  split at h
  · cases h
    exact ⟨_, takeNumber_append c rest⟩
  split at h
  · cases h
    exact List.dropWhile_suffix _
  split at h
  · cases h
    exact List.suffix_rfl
  · cases h

theorem shrinks_tokenTurn : Shrinks (tokenTurn u) := by
  intro st c rest
  rw [tokenTurn]
  cases h : lexeme u c rest with
  | none => exact Nat.zero_le _
  | some p => exact (lexeme_suffix h).length_le

theorem shrinks_formatTurn : Shrinks formatTurn := by
  intro s c rest
  unfold formatTurn
  split
  · split
    · split
      · exact Nat.le_succ _
      · exact Nat.le.refl
    split
    · exact Nat.le.refl
    · exact Nat.le.refl
  · split
    · exact (afterLine_suffix rest).length_le
    split
    · exact ((afterBlock_suffix _ _).trans (List.tail_suffix rest)).length_le
    split
    · exact Nat.le.refl
    · exact Nat.le.refl

/-! ### Texts with the same tokens -/

/-- Two texts that are read as the same tokens, whatever was read before them. -/
def SameTokens (u : CharTable) (cs ns : List Char) : Prop :=
  ∀ st, scan (tokenTurn u) st cs = scan (tokenTurn u) st ns

theorem SameTokens.trans {as bs cs : List Char} (h : SameTokens u as bs) (h' : SameTokens u bs cs) :
    SameTokens u as cs := fun st => (h st).trans (h' st)

theorem scan_tokenTurn_some {st : Option (List Tok)} {rest left : List Char}
    {t : Option Tok} (h : lexeme u c rest = some (t, left)) : scan (tokenTurn u) st (c :: rest)
      = scan (tokenTurn u) (st.map fun out => t.elim out (pushTok out)) left := by
  rw [scan_cons shrinks_tokenTurn, tokenTurn, h]
  rfl

theorem scan_tokenTurn_fail {st : Option (List Tok)}
    (h : lexeme u c rest = none) : scan (tokenTurn u) st (c :: rest) = none := by
  rw [scan_cons shrinks_tokenTurn, tokenTurn, h]
  rfl

/-- A text that starts with what is skipped. -/
theorem sameTokens_skip {rest left : List Char} (h : lexeme u c rest = some (none, left)) :
    SameTokens u (c :: rest) left := by
  intro st
  rw [scan_tokenTurn_some h]
  cases st <;> rfl

theorem sameTokens_cons {rest rest' left left' : List Char} {t : Option Tok}
    (h : lexeme u c rest = some (t, left)) (h' : lexeme u c rest' = some (t, left'))
    (hleft : SameTokens u left left') : SameTokens u (c :: rest) (c :: rest') := by
  intro st
  rw [scan_tokenTurn_some h, scan_tokenTurn_some h']
  exact hleft _

theorem sameTokens_fail {rest rest' : List Char} (h : lexeme u c rest = none)
    (h' : lexeme u c rest' = none) : SameTokens u (c :: rest) (c :: rest') := by
  intro st
  rw [scan_tokenTurn_fail h, scan_tokenTurn_fail h']

theorem lexeme_white (h : isWhitespace c = true) (rest : List Char) :
    lexeme u c rest = some (none, rest) := by
  rw [lexeme, if_pos h]

/-- A line comment is skipped with the end of its line. -/
theorem sameTokens_afterLine (cs : List Char) :
    SameTokens u (cs.dropWhile (· != '\n')) (afterLine cs) := by
  induction cs with
  | nil => exact fun _ => rfl
  | cons c rest ih =>
    by_cases hc : c = '\n'
    · rw [hc, List.dropWhile_cons_of_neg (by decide), afterLine, if_pos rfl]
      exact sameTokens_skip (lexeme_white (by decide) rest)
    · rw [List.dropWhile_cons_of_pos (by simpa using hc), afterLine, if_neg hc]
      exact ih

/-- The two ways to find the end of a block comment. -/
theorem afterBlock_eq_skipBlock (c : Char) (cs : List Char) :
    afterBlock c cs = skipBlock (c :: cs) := by
  induction cs generalizing c with
  | nil => rfl
  | cons d rest ih => rw [afterBlock, skipBlock, ih]

/-! ### What is copied -/

theorem formatTurn_push (hs : s.inStr = none) (hline : (c == '/' && rest.head? == some '/') = false)
    (hblock : (c == '/' && rest.head? == some '*') = false) (hwhite : isWhitespace c = false) :
    formatTurn s c rest = (s.push c, rest) := by
  simp only [formatTurn, hs, hline, hblock, hwhite, Bool.false_eq_true, if_false]

/-- A run of plain characters is copied. -/
theorem scan_formatTurn_run {run left : List Char} (h : ∀ c ∈ run, Plain c)
    (hs : s.inStr = none) (hspace : s.pendingSpace = false) :
    scan formatTurn s (run ++ left) = scan formatTurn { s with out := s.out ++ run } left := by
  induction run generalizing s with
  | nil => rw [List.nil_append, List.append_nil]
  | cons c run ih =>
    have hc := h c List.mem_cons_self
    have hpush : s.push c = { s with out := s.out ++ [c] } := by
      simp [Formatting.push, hs, hspace, hc.quote]
    rw [List.cons_append, scan_cons shrinks_formatTurn, formatTurn_push hs (by simp [hc.slash])
      (by simp [hc.slash]) hc.white, hpush]
    refine (ih (fun d hd => h d (List.mem_cons_of_mem c hd))
      (s := { s with out := s.out ++ [c] }) hs hspace).trans ?_
    simp only [List.append_assoc, List.singleton_append]

theorem takeString_quote (q : Char) (rest : List Char) : takeString q (q :: rest) = ([], rest) := by
  rw [takeString.eq_def]
  exact if_pos rfl

theorem takeString_escape {q : Char} (hq : q ≠ '\\') (d : Char) (rest : List Char) :
    takeString q ('\\' :: d :: rest)
      = ('\\' :: d :: (takeString q rest).1, (takeString q rest).2) := by
  conv_lhs => rw [takeString.eq_def]
  simp [hq.symm]

theorem takeString_cons {q c : Char} (hc : c ≠ q) (hesc : c ≠ '\\') (rest : List Char) :
    takeString q (c :: rest) = (c :: (takeString q rest).1, (takeString q rest).2) := by
  conv_lhs => rw [takeString.eq_def]
  simp [hc, hesc]

/-- A string literal is copied, with its closing quote if it has one. -/
theorem scan_formatTurn_string {q : Char} (hq : q ≠ '\\') (cs : List Char) (o : List Char) :
    (cs = (takeString q cs).1 ++ q :: (takeString q cs).2
      ∧ (∀ ns, takeString q ((takeString q cs).1 ++ q :: ns) = ((takeString q cs).1, ns))
      ∧ scan formatTurn ⟨o, some q, false⟩ cs
        = scan formatTurn ⟨o ++ (takeString q cs).1 ++ [q], none, false⟩ (takeString q cs).2)
    ∨ (cs = (takeString q cs).1 ∧ (takeString q cs).2 = []
      ∧ (scan formatTurn ⟨o, some q, false⟩ cs).out = o ++ (takeString q cs).1) := by
  fun_induction takeString q cs generalizing o with
  | case1 => exact .inr ⟨rfl, rfl, (List.append_nil o).symm⟩
  | case2 rest =>
    refine .inl ⟨rfl, fun ns => takeString_quote q ns, ?_⟩
    rw [scan_cons shrinks_formatTurn]
    simp [formatTurn, hq]
  | case3 d rest hne ih =>
    have hscan : scan formatTurn ⟨o, some q, false⟩ ('\\' :: d :: rest)
        = scan formatTurn ⟨o ++ ['\\', d], some q, false⟩ rest := by
      rw [scan_cons shrinks_formatTurn]
      simp [formatTurn]
    rcases ih (o ++ ['\\', d]) with ⟨hcs, hns, hrest⟩ | ⟨hcs, hnil, hout⟩
    · refine .inl ⟨by rw [List.cons_append, List.cons_append, ← hcs], fun ns => ?_, ?_⟩
      · rw [List.cons_append, List.cons_append, takeString_escape hq, hns]
      · rw [hscan, hrest]
        simp only [List.append_assoc, List.cons_append, List.nil_append]
    · refine .inr ⟨by rw [← hcs], hnil, ?_⟩
      rw [hscan, hout]
      simp only [List.append_assoc, List.cons_append, List.nil_append]
  | case4 h =>
    refine .inr ⟨rfl, rfl, ?_⟩
    rw [scan_cons shrinks_formatTurn]
    simp [formatTurn]
  | case5 c rest hc hesc ih =>
    have hscan : scan formatTurn ⟨o, some q, false⟩ (c :: rest)
        = scan formatTurn ⟨o ++ [c], some q, false⟩ rest := by
      rw [scan_cons shrinks_formatTurn]
      simp [formatTurn, hc, hesc]
    rcases ih (o ++ [c]) with ⟨hcs, hns, hrest⟩ | ⟨hcs, hnil, hout⟩
    · refine .inl ⟨by rw [List.cons_append, ← hcs], fun ns => ?_, ?_⟩
      · rw [List.cons_append, takeString_cons hc hesc, hns]
      · rw [hscan, hrest]
        simp only [List.append_assoc, List.cons_append, List.nil_append]
    · refine .inr ⟨by rw [← hcs], hnil, ?_⟩
      rw [hscan, hout]
      simp only [List.append_assoc, List.cons_append, List.nil_append]

/-! ### What a token sees of what follows -/

/-- Nothing follows, or something that continues no token. -/
def Gap (ns : List Char) : Prop := ∀ d, ns.head? = some d → Parts d

/-- The formatted text goes on as the text itself does, or after a gap. -/
def Fronts (cs ns : List Char) : Prop := ns.head? = cs.head? ∨ Gap ns

/-- A test of the next character that no gap passes has the same result on both. -/
theorem Fronts.any_eq {cs ns : List Char} (h : Fronts cs ns) {p : Char → Bool}
    (hp : ∀ d, Parts d → p d = false) (hcs : cs.head?.any p = false) : ns.head?.any p = false := by
  rcases h with h | h
  · rw [h, hcs]
  · cases hd : ns.head? with
    | none => rfl
    | some d => exact hp d (h d hd)

theorem takeNumber_fronts {cs ns : List Char} {prev : Char} (h : Fronts (takeNumber prev cs).2 ns) :
    takeNumber prev ((takeNumber prev cs).1 ++ ns) = ((takeNumber prev cs).1, ns) := by
  -- Where the number ends, the next character does not continue it.
  have hend : ∀ prev (ns : List Char), ns.head?.any (inNumber prev) = false →
      takeNumber prev ns = ([], ns) := by
    intro prev ns hns
    cases ns with
    | nil => rfl
    | cons d ns =>
      have hd : inNumber prev d = false := by simpa using hns
      simp [takeNumber, hd]
  fun_induction takeNumber prev cs with
  | case1 prev => exact hend prev ns (h.any_eq (fun d hd => hd.not_inNumber prev) rfl)
  | case2 prev c rest hc ih => rw [List.cons_append, takeNumber, if_pos hc, ih h]
  | case3 prev c rest hc =>
    exact hend prev ns (h.any_eq (fun d hd => hd.not_inNumber prev) (by simpa using hc))

theorem takeWhile_fronts {cs ns : List Char} {p : Char → Bool} (hp : ∀ d, Parts d → p d = false)
    (h : Fronts (cs.dropWhile p) ns) :
    (cs.takeWhile p ++ ns).takeWhile p = cs.takeWhile p ∧
      (cs.takeWhile p ++ ns).dropWhile p = ns := by
  have hall : ∀ c ∈ cs.takeWhile p, p c = true := fun c hc => List.mem_takeWhile_imp hc
  have hcs : (cs.dropWhile p).head?.any p = false := by
    have hnot := List.head?_dropWhile_not p cs
    cases hd : (cs.dropWhile p).head? with
    | none => rfl
    | some d =>
      rw [hd] at hnot
      exact hnot
  have hend : ns.takeWhile p = [] ∧ ns.dropWhile p = ns := by
    have hns := h.any_eq hp hcs
    cases ns with
    | nil => exact ⟨rfl, rfl⟩
    | cons d ns =>
      have hd : p d = false := by simpa using hns
      simp [hd]
  rw [List.takeWhile_append_of_pos hall, List.dropWhile_append_of_pos hall, hend.1, hend.2,
    List.append_nil]
  exact ⟨rfl, rfl⟩

/-! ### Side by side -/

/-- The formatted text `ns` of what is left, from a state outside strings. -/
structure Formatted (u : CharTable) (s : Formatting) (cs ns : List Char) : Prop where
  out : (scan formatTurn s cs).out = s.out ++ ns
  tokens : SameTokens u cs ns
  /-- Behind a token that could go on, the text goes on as it did, or after a gap. -/
  front : s.out.getLast?.any (fun l => !isPunct l) = true →
    (s.pendingSpace = false ∧ ns.head? = cs.head?) ∨ Gap ns

theorem Formatted.fronts {cs ns : List Char} (h : Formatted u s cs ns)
    (hlast : s.out.getLast?.any (fun l => !isPunct l) = true) : Fronts cs ns :=
  (h.front hlast).imp_left And.right

/-- Something is skipped. -/
theorem Formatted.skip {rest left ns : List Char}
    (hturn : formatTurn s c rest = ({ s with pendingSpace := true }, left))
    (hsame : SameTokens u (c :: rest) left)
    (h : Formatted u { s with pendingSpace := true } left ns) : Formatted u s (c :: rest) ns where
  out := by
    rw [scan_cons shrinks_formatTurn, hturn]
    exact h.out
  tokens := hsame.trans h.tokens
  front hlast := .inr ((h.front hlast).resolve_left fun hspace => Bool.noConfusion hspace.1)

/-- A character is copied, after a space if one is due. -/
theorem Formatted.push {rest e : List Char} (hturn : formatTurn s c rest = (s.push c, rest))
    (hout : (scan formatTurn (s.push c) rest).out = (s.push c).out ++ e)
    (hsame : SameTokens u (c :: rest) (c :: e)) : ∃ ns, Formatted u s (c :: rest) ns := by
  have hscan : scan formatTurn s (c :: rest) = scan formatTurn (s.push c) rest := by
    rw [scan_cons shrinks_formatTurn, hturn]
  by_cases hspace : (s.pendingSpace && !s.out.isEmpty && !isPunct c
      && !s.out.getLast?.any isPunct) = true
  · refine ⟨' ' :: c :: e, ?_, ?_, fun _ => .inr ?_⟩
    · rw [hscan, hout, Formatting.push, if_pos hspace]
      simp only [List.append_assoc, List.cons_append, List.nil_append]
    · have hskip : SameTokens u (' ' :: c :: e) (c :: e) :=
        sameTokens_skip (lexeme_white (by decide) _)
      exact hsame.trans fun st => (hskip st).symm
    · intro d hd
      cases hd
      exact List.mem_cons_self
  · refine ⟨c :: e, ?_, hsame, fun hlast => ?_⟩
    · rw [hscan, hout, Formatting.push, if_neg hspace]
      simp only [List.append_assoc, List.cons_append, List.nil_append]
    · -- Without a space either none was pending or the character is punctuation.
      cases hpending : s.pendingSpace with
      | false => exact .inl ⟨rfl, rfl⟩
      | true =>
        refine .inr fun d hd => ?_
        cases hd
        refine parts_of_isPunct ?_
        obtain ⟨l, hl, hpunct⟩ : ∃ l, s.out.getLast? = some l ∧ isPunct l = false := by
          cases hl : s.out.getLast? with
          | none => simp [hl] at hlast
          | some l => exact ⟨l, rfl, by simpa [hl] using hlast⟩
        have hne : s.out ≠ [] := fun hnil => by simp [hnil] at hl
        simpa [hpending, hne, hl, hpunct] using hspace

theorem getLast?_append_cons_any {p : Char → Bool} (o : List Char) (c : Char) {run : List Char}
    (hc : p c = true) (hrun : ∀ d ∈ run, p d = true) : (o ++ [c] ++ run).getLast?.any p = true := by
  cases hlast : run.getLast? with
  | none =>
    rw [List.getLast?_eq_none_iff] at hlast
    simp [hlast, hc]
  | some d =>
    rw [List.getLast?_append, hlast]
    exact hrun d (List.mem_of_getLast? hlast)

/-! ### Token by token -/

/-- Whether a number starts here. -/
def startsNumber (c : Char) (rest : List Char) : Bool :=
  c.isDigit || (c == '-' && rest.head?.any fun d => d.isDigit || d == '.')

/-- Whether an identifier starts here. -/
def identAhead (u : CharTable) (c : Char) (rest : List Char) : Bool :=
  startsIdent u c || (c == '.' && rest.head?.any (startsIdent u))

/-- Whether a comment starts here. -/
def commentAhead (c : Char) (rest : List Char) : Bool :=
  c == '/' && rest.head?.any fun d => d == '/' || d == '*'

section Lexemes

theorem commentAhead_eq_false (h : commentAhead c rest = false) :
    (c == '/' && rest.head? == some '/') = false ∧
      (c == '/' && rest.head? == some '*') = false := by
  cases rest with
  | nil => simp
  | cons d rest =>
    simp only [commentAhead, List.head?_cons, Option.any_some, Bool.and_eq_false_iff,
      Bool.or_eq_false_iff] at h ⊢
    rcases h with h | h
    · exact ⟨.inl h, .inl h⟩
    · exact ⟨.inr (by simpa using h.1), .inr (by simpa using h.2)⟩

variable (hwhite : isWhitespace c = false) (hcomment : commentAhead c rest = false)
  (hquote : isQuote c = false)

include hwhite hcomment

theorem lexeme_string (h : isQuote c = true) : lexeme u c rest
    = some (some (.str (String.ofList (takeString c rest).1)), (takeString c rest).2) := by
  obtain ⟨hline, hblock⟩ := commentAhead_eq_false hcomment
  simp only [lexeme, hwhite, hline, hblock, h, Bool.false_eq_true, if_false, if_true]

include hquote

theorem lexeme_number (h : startsNumber c rest = true) : lexeme u c rest
    = some (some (.num (String.ofList (c :: (takeNumber c rest).1))), (takeNumber c rest).2) := by
  obtain ⟨hline, hblock⟩ := commentAhead_eq_false hcomment
  rw [startsNumber] at h
  simp only [lexeme, hwhite, hline, hblock, hquote, h, Bool.false_eq_true, if_false, if_true]

theorem lexeme_ident (hnum : startsNumber c rest = false) (h : identAhead u c rest = true) :
    lexeme u c rest = some (some (.ident (String.ofList (c :: rest.takeWhile (inIdent u)))),
      rest.dropWhile (inIdent u)) := by
  obtain ⟨hline, hblock⟩ := commentAhead_eq_false hcomment
  rw [startsNumber] at hnum
  rw [identAhead] at h
  simp only [lexeme, hwhite, hline, hblock, hquote, hnum, h, Bool.false_eq_true, if_false, if_true]

theorem lexeme_other (hnum : startsNumber c rest = false) (hident : identAhead u c rest = false) :
    lexeme u c rest = if isSymbol c then some (some (.sym c), rest) else none := by
  obtain ⟨hline, hblock⟩ := commentAhead_eq_false hcomment
  rw [startsNumber] at hnum
  rw [identAhead] at hident
  simp only [lexeme, hwhite, hline, hblock, hquote, hnum, hident, Bool.false_eq_true, if_false]

end Lexemes

theorem afterBlock_space (cs : List Char) : afterBlock ' ' cs = skipBlock cs := by
  rw [afterBlock_eq_skipBlock]
  cases cs <;> rfl

/-- A comment is skipped by both. -/
theorem formatTurn_comment (hs : s.inStr = none)
    (h : commentAhead c rest = true) : ∃ left, left <:+ rest
      ∧ formatTurn s c rest = ({ s with pendingSpace := true }, left)
      ∧ SameTokens u (c :: rest) left := by
  simp only [commentAhead, Bool.and_eq_true, beq_iff_eq] at h
  obtain ⟨rfl, h⟩ := h
  have hwhite : isWhitespace '/' = false := by decide
  cases rest with
  | nil => cases h
  | cons d rest =>
    simp only [List.head?_cons, Option.any_some, Bool.or_eq_true, beq_iff_eq] at h
    rcases h with rfl | rfl
    · refine ⟨afterLine ('/' :: rest), afterLine_suffix _, by simp [formatTurn, hs], ?_⟩
      have hskip : lexeme u '/' ('/' :: rest)
          = some (none, ('/' :: '/' :: rest).dropWhile (· != '\n')) := by
        simp [lexeme, hwhite]
      exact (sameTokens_skip hskip).trans (sameTokens_afterLine _)
    · refine ⟨skipBlock rest, (skipBlock_suffix rest).trans (List.suffix_cons _ _), ?_, ?_⟩
      · simp [formatTurn, hs, afterBlock_space]
      · exact sameTokens_skip (by simp [lexeme, hwhite])

theorem plain_of_mem_takeNumber (prev : Char) (cs : List Char) :
    ∀ d ∈ (takeNumber prev cs).1, Plain d := by
  fun_induction takeNumber prev cs with
  | case1 => exact fun d hd => nomatch hd
  | case2 prev c rest hc ih => exact List.forall_mem_cons.mpr ⟨plain_of_inNumber hc, ih⟩
  | case3 => exact fun d hd => nomatch hd

theorem plain_of_startsNumber (h : startsNumber c rest = true) :
    Plain c := by
  simp only [startsNumber, Bool.or_eq_true, Bool.and_eq_true, beq_iff_eq] at h
  rcases h with h | ⟨rfl, -⟩
  · exact @plain_of_inNumber c c (by simp [inNumber, Char.isAlphanum, h])
  · exact @plain_of_inNumber 'e' '-' (by decide)

/-- A minus sign before a number stays before it. -/
theorem startsNumber_takeNumber (h : startsNumber c rest = true)
    (ns : List Char) : startsNumber c ((takeNumber c rest).1 ++ ns) = true := by
  simp only [startsNumber, Bool.or_eq_true, Bool.and_eq_true, beq_iff_eq] at h ⊢
  refine h.imp_right fun hminus => ⟨hminus.1, ?_⟩
  cases rest with
  | nil => simp at hminus
  | cons d rest =>
    have hd : d.isDigit = true ∨ d = '.' := by simpa using hminus.2
    have hin : inNumber c d = true := by
      rcases hd with hd | rfl
      · simp [inNumber, Char.isAlphanum, hd]
      · simp [inNumber]
    simpa [takeNumber, hin] using hd

theorem inIdent_of_startsIdent (h : startsIdent u c = true) : inIdent u c = true := by
  simp only [startsIdent, Bool.or_eq_true, beq_iff_eq] at h
  rcases h with h | rfl
  · simp [inIdent, CharTable.isAlphanumeric, h]
  · simp [inIdent]

theorem inIdent_of_identAhead (h : identAhead u c rest = true) :
    inIdent u c = true := by
  simp only [identAhead, Bool.or_eq_true, Bool.and_eq_true, beq_iff_eq] at h
  rcases h with h | ⟨rfl, -⟩
  · exact inIdent_of_startsIdent h
  · simp [inIdent]

/-- A dot before an identifier stays before it. -/
theorem identAhead_takeWhile (h : identAhead u c rest = true)
    (ns : List Char) : identAhead u c (rest.takeWhile (inIdent u) ++ ns) = true := by
  simp only [identAhead, Bool.or_eq_true, Bool.and_eq_true, beq_iff_eq] at h ⊢
  refine h.imp_right fun hdot => ⟨hdot.1, ?_⟩
  cases rest with
  | nil => simp at hdot
  | cons d rest =>
    have hd : startsIdent u d = true := by simpa using hdot.2
    simpa [inIdent_of_startsIdent hd] using hd

section Tokens

variable (hwhite : isWhitespace c = false)
  (hcomment : commentAhead c rest = false)
  (ih : ∀ left, left <:+ rest → ∀ s : Formatting, s.inStr = none → ∃ ns, Formatted u s left ns)

/-- What follows the character that is pushed: the rest of its token as it is, then the rest of
the text, formatted. -/
structure Copied (u : CharTable) (s : Formatting) (c : Char) (rest run left ns : List Char) :
    Prop where
  out : (scan formatTurn (s.push c) rest).out = (s.push c).out ++ (run ++ ns)
  tokens : SameTokens u left ns
  fronts : isPunct c = false → Fronts left ns

include ih in
theorem exists_copied {run left : List Char} (hrest : rest = run ++ left)
    (hquote : isQuote c = false) (hrun : ∀ d ∈ run, Plain d) :
    ∃ ns, Copied u s c rest run left ns := by
  have hin : (s.push c).inStr = none := by simp [Formatting.push, hquote]
  obtain ⟨ns, hns⟩ := ih left ⟨run, hrest.symm⟩
    { s.push c with out := (s.push c).out ++ run } hin
  refine ⟨ns, ?_, hns.tokens, fun hpunct => hns.fronts ?_⟩
  · rw [hrest, scan_formatTurn_run hrun hin rfl, hns.out, List.append_assoc]
  · exact getLast?_append_cons_any _ c (by simp [hpunct]) fun d hd => by simp [(hrun d hd).punct]

include hwhite hcomment ih

theorem exists_formatted_string (hs : s.inStr = none) (hquote : isQuote c = true) :
    ∃ ns, Formatted u s (c :: rest) ns := by
  obtain ⟨hline, hblock⟩ := commentAhead_eq_false hcomment
  have hturn := formatTurn_push hs hline hblock hwhite
  have hpush : s.push c = ⟨(s.push c).out, some c, false⟩ := by simp [Formatting.push, hquote]
  have hne : c ≠ '\\' ∧ c ≠ '/' := by
    constructor <;> (rintro rfl; exact absurd hquote (by decide))
  have hcomment' : ∀ rest, commentAhead c rest = false := fun rest => by simp [commentAhead, hne.2]
  rcases scan_formatTurn_string hne.1 rest (s.push c).out with ⟨hcs, hclose, hscan⟩ | ⟨hcs, -, hout⟩
  · obtain ⟨ns, hns⟩ := ih _ (takeString_suffix c rest)
      ⟨(s.push c).out ++ (takeString c rest).1 ++ [c], none, false⟩ rfl
    refine Formatted.push (e := (takeString c rest).1 ++ c :: ns) hturn ?_ ?_
    · rw [hpush, hscan, hns.out]
      simp only [List.append_assoc, List.cons_append, List.nil_append]
    · refine sameTokens_cons (lexeme_string hwhite hcomment hquote) ?_ hns.tokens
      rw [lexeme_string hwhite (hcomment' _) hquote, hclose]
  · refine Formatted.push (e := rest) hturn ?_ fun _ => rfl
    rw [hpush, hout, ← hcs]

theorem exists_formatted_number (hs : s.inStr = none) (hquote : isQuote c = false)
    (hnum : startsNumber c rest = true) : ∃ ns, Formatted u s (c :: rest) ns := by
  obtain ⟨hline, hblock⟩ := commentAhead_eq_false hcomment
  have hturn := formatTurn_push hs hline hblock hwhite
  have hplain := plain_of_startsNumber hnum
  obtain ⟨ns, hns⟩ := exists_copied ih (s := s) (c := c) (takeNumber_append c rest).symm hquote
    (plain_of_mem_takeNumber c rest)
  have hfronts := takeNumber_fronts (hns.fronts hplain.punct)
  refine Formatted.push hturn hns.out
    (sameTokens_cons (lexeme_number hwhite hcomment hquote hnum) ?_ hns.tokens)
  rw [lexeme_number hwhite (by simp [commentAhead, hplain.slash]) hquote
    (startsNumber_takeNumber hnum ns), hfronts]

theorem exists_formatted_ident (hs : s.inStr = none) (hquote : isQuote c = false)
    (hnum : startsNumber c rest = false) (hident : identAhead u c rest = true) :
    ∃ ns, Formatted u s (c :: rest) ns := by
  obtain ⟨hline, hblock⟩ := commentAhead_eq_false hcomment
  have hturn := formatTurn_push hs hline hblock hwhite
  have hin := inIdent_of_identAhead hident
  have hplain := plain_of_inIdent hin
  obtain ⟨ns, hns⟩ := exists_copied ih (s := s) (c := c) List.takeWhile_append_dropWhile.symm hquote
    fun d hd => plain_of_inIdent (List.mem_takeWhile_imp hd)
  obtain ⟨htake, hdrop⟩ := takeWhile_fronts (p := inIdent u) (fun d hd => hd.not_inIdent)
    (hns.fronts hplain.punct)
  have hminus : c ≠ '-' := by
    rintro rfl
    have hascii : ('-' : Char).val < 128 := by decide
    simp [inIdent, u.isAlphanumeric_of_ascii hascii] at hin
  have hdigit : c.isDigit = false := by
    simp only [startsNumber, Bool.or_eq_false_iff] at hnum
    exact hnum.1
  refine Formatted.push hturn hns.out
    (sameTokens_cons (lexeme_ident hwhite hcomment hquote hnum hident) ?_ hns.tokens)
  rw [lexeme_ident hwhite (by simp [commentAhead, hplain.slash]) hquote
    (by simp [startsNumber, hdigit, hminus]) (identAhead_takeWhile hident ns), htake, hdrop]

theorem exists_formatted_other (hs : s.inStr = none) (hquote : isQuote c = false)
    (hnum : startsNumber c rest = false) (hident : identAhead u c rest = false) :
    ∃ ns, Formatted u s (c :: rest) ns := by
  obtain ⟨hline, hblock⟩ := commentAhead_eq_false hcomment
  have hturn := formatTurn_push hs hline hblock hwhite
  obtain ⟨ns, hns⟩ := exists_copied ih (s := s) (c := c) (List.nil_append rest).symm hquote
    fun d hd => nomatch hd
  -- A look ahead answers the same on both texts; behind punctuation there is none.
  have hahead : ∀ {x : Char} {p : Char → Bool}, isPunct x = false → (∀ d, Parts d → p d = false) →
      (c == x && rest.head?.any p) = false → (c == x && ns.head?.any p) = false := by
    intro x p hx hp h
    rw [Bool.and_eq_false_iff] at h ⊢
    by_cases hc : c = x
    · subst hc
      exact .inr ((hns.fronts hx).any_eq hp (h.resolve_left (by simp)))
    · exact .inl (by simpa using hc)
  have hcomment' : commentAhead c ns = false := by
    refine hahead (by decide) (fun d hd => ?_) hcomment
    obtain ⟨-, -, -, -, hnot⟩ := hd.spec
    simp only [List.mem_cons, List.not_mem_nil, or_false, not_or] at hnot
    simp [hnot]
  have hnum' : startsNumber c ns = false := by
    simp only [startsNumber, Bool.or_eq_false_iff] at hnum ⊢
    refine ⟨hnum.1, hahead (by decide) (fun d hd => ?_) hnum.2⟩
    obtain ⟨-, -, hdigit, -, hnot⟩ := hd.spec
    simp only [List.mem_cons, List.not_mem_nil, or_false, not_or] at hnot
    simp [hdigit, hnot]
  have hident' : identAhead u c ns = false := by
    simp only [identAhead, Bool.or_eq_false_iff] at hident ⊢
    exact ⟨hident.1, hahead (by decide) (fun d hd => hd.not_startsIdent) hident.2⟩
  have hraw := lexeme_other (u := u) hwhite hcomment hquote hnum hident
  have hformatted := lexeme_other (u := u) hwhite hcomment' hquote hnum' hident'
  refine Formatted.push hturn hns.out ?_
  by_cases hsym : isSymbol c = true
  · rw [if_pos hsym] at hraw hformatted
    exact sameTokens_cons hraw hformatted hns.tokens
  · rw [if_neg hsym] at hraw hformatted
    exact sameTokens_fail hraw hformatted

end Tokens

/-- Dropping the formatting of a text keeps what it is read as. -/
theorem exists_formatted (cs : List Char) (hs : s.inStr = none) :
    ∃ ns, Formatted u s cs ns := by
  -- the induction is on the text that is left, with any state outside strings: a token is taken
  -- whole, and what follows it is formatted on its own
  induction hn : cs.length using Nat.strong_induction_on generalizing cs s with
  | _ n ih =>
  subst hn
  cases cs with
  | nil => exact ⟨[], (List.append_nil _).symm, fun _ => rfl, fun _ => .inr fun d hd => nomatch hd⟩
  | cons c rest =>
    have hshort : ∀ {left : List Char}, left <:+ rest → left.length < (c :: rest).length :=
      fun hleft => Nat.lt_succ_of_le hleft.length_le
    by_cases hwhite : isWhitespace c = true
    · have hslash : c ≠ '/' := by
        rintro rfl
        exact absurd hwhite (by decide)
      obtain ⟨ns, hns⟩ := ih _ (hshort List.suffix_rfl) rest
        (s := { s with pendingSpace := true }) hs rfl
      exact ⟨ns, hns.skip (by simp [formatTurn, hs, hwhite, hslash])
        (sameTokens_skip (lexeme_white hwhite rest))⟩
    rw [Bool.not_eq_true] at hwhite
    by_cases hcomment : commentAhead c rest = true
    · obtain ⟨left, hleft, hturn, hsame⟩ := formatTurn_comment (u := u) hs hcomment
      obtain ⟨ns, hns⟩ := ih _ (hshort hleft) left (s := { s with pendingSpace := true }) hs rfl
      exact ⟨ns, hns.skip hturn hsame⟩
    rw [Bool.not_eq_true] at hcomment
    have hrest : ∀ left, left <:+ rest → ∀ s : Formatting, s.inStr = none →
        ∃ ns, Formatted u s left ns := fun left hleft s hs => ih _ (hshort hleft) left hs rfl
    by_cases hquote : isQuote c = true
    · exact exists_formatted_string hwhite hcomment hrest hs hquote
    rw [Bool.not_eq_true] at hquote
    by_cases hnum : startsNumber c rest = true
    · exact exists_formatted_number hwhite hcomment hrest hs hquote hnum
    rw [Bool.not_eq_true] at hnum
    by_cases hident : identAhead u c rest = true
    · exact exists_formatted_ident hwhite hcomment hrest hs hquote hnum hident
    rw [Bool.not_eq_true] at hident
    exact exists_formatted_other hwhite hcomment hrest hs hquote hnum hident

/-- The tokens of a source are those of its text without formatting; where the one has none, the
other has none. -/
theorem tokenize_normalizeText (u : CharTable) (src : String) :
    tokenize u (normalizeText src) = tokenize u src := by
  obtain ⟨ns, hns⟩ := exists_formatted (u := u) src.toList (s := {}) rfl
  rw [tokenize, tokenize, normalizeText, String.toList_ofList, hns.out]
  exact (hns.tokens (some [])).symm

/-- Comments go, and what stands between quotes stays. -/
theorem tokenize_normalizeText_comment :
    normalizeText "a /* b */ = \"c  d\" ; // e" = "a=\"c  d\";"
      ∧ tokenize asciiTable (normalizeText "a /* b */ = \"c  d\" ; // e")
        = some [.ident "a", .sym '=', .str "c  d", .sym ';'] := by
  refine ⟨by decide +kernel, ?_⟩
  rw [tokenize_normalizeText]
  decide +kernel

end SchemaRegistry.Proto

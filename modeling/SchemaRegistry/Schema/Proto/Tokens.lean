import SchemaRegistry.Lib.Scan
import SchemaRegistry.Registry.Views

/-!
The tokens of a `.proto` source, and the text with its comments dropped and its whitespace
collapsed. Both go over the characters once; where a character belongs is decided by the ones
before it, and never read again.
-/

namespace SchemaRegistry.Proto

open Lib

/-- The Unicode tables behind `is_alphabetic` and `is_numeric`, with what is known of them. -/
structure CharTable where
  isAlphabetic : Char → Bool
  isNumeric : Char → Bool
  ascii : ∀ c : Char, c.val < 128 → isAlphabetic c = c.isAlpha ∧ isNumeric c = c.isDigit
  whitespace : ∀ c : Char, isWhitespace c = true → isAlphabetic c = false ∧ isNumeric c = false

def CharTable.isAlphanumeric (u : CharTable) (c : Char) : Bool := u.isAlphabetic c || u.isNumeric c

/-- The table that knows the ASCII letters and digits only. -/
def asciiTable : CharTable where
  isAlphabetic := Char.isAlpha
  isNumeric := Char.isDigit
  ascii _ _ := ⟨rfl, rfl⟩
  whitespace c h := by
    have hfar : c.val.toNat ≤ 32 ∨ 0x85 ≤ c.val.toNat := by
      simp only [isWhitespace, Bool.or_eq_true, Bool.and_eq_true, decide_eq_true_eq, beq_iff_eq,
        UInt32.le_iff_toNat_le, ← UInt32.toNat_inj, UInt32.reduceToNat] at h
      omega
    change (decide (c.val ≥ 'A'.val ∧ c.val ≤ 'Z'.val)
      || decide (c.val ≥ 'a'.val) && decide (c.val ≤ 'z'.val)) = false
      ∧ (decide (c.val ≥ '0'.val) && decide (c.val ≤ '9'.val)) = false
    simp only [Bool.or_eq_false_iff, Bool.and_eq_false_iff, decide_eq_false_iff_not,
      UInt32.le_iff_toNat_le, ge_iff_le, Char.reduceVal, UInt32.reduceToNat]
    omega

inductive Tok where
  | ident (s : String)
  /-- Raw contents between quotes, escapes preserved. -/
  | str (s : String)
  | num (s : String)
  | sym (c : Char)
  deriving DecidableEq, Repr

/-! ### Pieces of the text -/

def isQuote (c : Char) : Bool := c == '"' || c == '\''

/-- What follows a block comment, from behind its opening; one without an end takes everything. -/
def skipBlock : List Char → List Char
  | a :: b :: rest => if a == '*' && b == '/' then rest else skipBlock (b :: rest)
  | _ => []

/-- The contents of a string literal, from behind its quote, and what follows it. -/
def takeString (q : Char) : List Char → List Char × List Char
  | [] => ([], [])
  | c :: rest =>
      if c = q then ([], rest)
      else if c = '\\' then
        match rest with
        | d :: rest => (c :: d :: (takeString q rest).1, (takeString q rest).2)
        | [] => ([c], [])
      else (c :: (takeString q rest).1, (takeString q rest).2)

/-- Whether a character continues a number, given the one before it. -/
def inNumber (prev c : Char) : Bool :=
  c.isAlphanum || c == '.' || ((c == '-' || c == '+') && (prev == 'e' || prev == 'E'))

/-- The rest of a number whose last character so far is `prev`, and what follows it. -/
def takeNumber (prev : Char) : List Char → List Char × List Char
  | [] => ([], [])
  | c :: rest =>
      if inNumber prev c then (c :: (takeNumber c rest).1, (takeNumber c rest).2)
        else ([], c :: rest)

variable (u : CharTable)

def inIdent (c : Char) : Bool := u.isAlphanumeric c || c == '_' || c == '.'

/-- What starts an identifier. -/
def startsIdent (c : Char) : Bool := u.isAlphabetic c || c == '_'

def isSymbol (c : Char) : Bool := "\x7b\x7d[]()<>;,=:-".toList.contains c

/-! ### Tokens -/

/-- One turn of `tokenize`: the token at the front, if it is not whitespace or a comment, and what
follows it. -/
def lexeme (c : Char) (rest : List Char) : Option (Option Tok × List Char) :=
  if isWhitespace c then some (none, rest)
  else if c == '/' && rest.head? == some '/' then some (none, (c :: rest).dropWhile (· != '\n'))
  else if c == '/' && rest.head? == some '*' then some (none, skipBlock rest.tail)
  else if isQuote c then
    let (s, rest) := takeString c rest
    some (some (.str (String.ofList s)), rest)
  else if c.isDigit || (c == '-' && rest.head?.any fun d => d.isDigit || d == '.') then
    let (s, rest) := takeNumber c rest
    some (some (.num (String.ofList (c :: s))), rest)
  else if startsIdent u c || (c == '.' && rest.head?.any (startsIdent u)) then
    some (some (.ident (String.ofList (c :: rest.takeWhile (inIdent u)))),
      rest.dropWhile (inIdent u))
  else if isSymbol c then some (some (.sym c), rest)
  else none

/-- A token joins the others; adjacent string literals concatenate. -/
def pushTok (out : List Tok) (t : Tok) : List Tok :=
  match t, out.getLast? with
  | .str s, some (.str prev) => out.dropLast ++ [.str (prev ++ s)]
  | t, _ => out ++ [t]

/-- One turn over the tokens so far; a character that starts none ends it all. -/
def tokenTurn : Turn (Option (List Tok)) Char := fun st c rest =>
  (lexeme u c rest).elim (none, []) fun p => (st.map fun out => p.1.elim out (pushTok out), p.2)

def tokenize (src : String) : Option (List Tok) := scan (tokenTurn u) (some []) src.toList

/-! ### Formatting dropped -/

/-- What follows a line comment, its end of line included. -/
def afterLine : List Char → List Char
  | [] => []
  | c :: rest => if c = '\n' then rest else afterLine rest

/-- What follows a block comment, given the character before. -/
def afterBlock (prev : Char) : List Char → List Char
  | [] => []
  | c :: rest => if prev == '*' && c == '/' then rest else afterBlock c rest

/-- The punctuation no whitespace is kept around. -/
def isPunct (c : Char) : Bool := "\x7b\x7d();=,<>[]".toList.contains c

/-- `normalize_text` under way. -/
structure Formatting where
  out : List Char := []
  inStr : Option Char := none
  pendingSpace : Bool := false

/-- A character outside strings and comments, after a space if one is due. -/
def Formatting.push (s : Formatting) (c : Char) : Formatting where
  out := (if s.pendingSpace && !s.out.isEmpty && !isPunct c && !s.out.getLast?.any isPunct then
    s.out ++ [' '] else s.out) ++ [c]
  inStr := if isQuote c then some c else none
  pendingSpace := false

def formatTurn : Turn Formatting Char := fun s c rest =>
  match s.inStr with
  | some q =>
      if c = '\\' then
        match rest with
        | n :: rest => ({ s with out := s.out ++ [c, n] }, rest)
        | [] => ({ s with out := s.out ++ [c] }, [])
      else if c = q then ({ s with out := s.out ++ [c], inStr := none }, rest)
      else ({ s with out := s.out ++ [c] }, rest)
  | none =>
      if c == '/' && rest.head? == some '/' then ({ s with pendingSpace := true }, afterLine rest)
      else if c == '/' && rest.head? == some '*' then
        ({ s with pendingSpace := true }, afterBlock ' ' rest.tail)
      else if isWhitespace c then ({ s with pendingSpace := true }, rest)
      else (s.push c, rest)

/-- `normalize_text`: comments stripped, whitespace collapsed. -/
def normalizeText (text : String) : String := String.ofList (scan formatTurn {} text.toList).out

end SchemaRegistry.Proto

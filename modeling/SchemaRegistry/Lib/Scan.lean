import Mathlib.Data.List.Basic

/-!
Scanners: loops that look at the element at the front of a list and decide how much of the rest
to take with it. Every turn takes the element itself, so the length of the list bounds the number
of turns, and a scan is determined by what one turn does.
-/

namespace SchemaRegistry.Lib

/-- One turn of a scanner: the new state and what is left, given the state, the next element and
what follows it. -/
abbrev Turn (σ α : Type) := σ → α → List α → σ × List α

variable {σ τ α β : Type} {turn : Turn σ α} {turn' : Turn τ β}

/-- At most `n` turns. -/
def turns (turn : Turn σ α) : Nat → σ → List α → σ
  | _, s, [] => s
  | 0, s, _ :: _ => s
  | n + 1, s, a :: as => turns turn n (turn s a as).1 (turn s a as).2

/-- Turns until nothing is left. -/
def scan (turn : Turn σ α) (s : σ) (as : List α) : σ := turns turn as.length s as

/-- A turn leaves no more than what follows the element it looks at. -/
def Shrinks (turn : Turn σ α) : Prop := ∀ s a as, (turn s a as).2.length ≤ as.length

/-- Turns that are not needed change nothing. -/
theorem turns_eq_scan (h : Shrinks turn) {n : Nat} {s : σ} {as : List α} (hn : as.length ≤ n) :
    turns turn n s as = scan turn s as := by
  have hmany : ∀ m n s (as : List α), as.length ≤ m → as.length ≤ n →
      turns turn m s as = turns turn n s as := by
    intro m
    induction m with
    | zero =>
      intro n s as hm hn
      obtain rfl := List.length_eq_zero_iff.mp (Nat.le_zero.mp hm)
      cases n <;> rfl
    | succ m ih =>
      intro n s as hm hn
      match as, n with
      | [], 0 | [], _ + 1 => rfl
      | a :: as, n + 1 =>
          have hle := h s a as
          rw [List.length_cons] at hm hn
          exact ih n _ _ (by omega) (by omega)
  exact hmany n as.length s as hn Nat.le.refl

@[simp] theorem scan_nil (s : σ) : scan turn s [] = s := rfl

theorem scan_cons (h : Shrinks turn) (s : σ) (a : α) (as : List α) :
    scan turn s (a :: as) = scan turn (turn s a as).1 (turn s a as).2 :=
  turns_eq_scan h (h s a as)

end SchemaRegistry.Lib

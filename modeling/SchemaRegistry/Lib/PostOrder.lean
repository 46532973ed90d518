import Mathlib.Data.List.Basic
import Mathlib.Data.List.Nodup
import Mathlib.Logic.Relation

/-!
Depth-first walks with a set of seen elements. What was seen is under way or done; what is done
stands in the order in which it was finished, newest first, and then all that an element leads
to stands behind it. An element that is met again while it is under way would close a cycle, and
a bound on how far the walk goes down excludes that.
-/

namespace SchemaRegistry.Lib

open Relation

variable {α : Type} {E : α → α → Prop} {S good : α → Prop}

/-! ### Lists in which all an element leads to comes first -/

/-- All that an element leads to stands behind it. -/
def DepsFirst (E : α → α → Prop) : List α → Prop
  | [] => True
  | x :: xs => (∀ y, E x y → y ∈ xs) ∧ DepsFirst E xs

theorem DepsFirst.mem_of_edge {xs : List α} (h : DepsFirst E xs) {x y : α} (hx : x ∈ xs)
    (hxy : E x y) : y ∈ xs := by
  induction xs with
  | nil => cases hx
  | cons z xs ih =>
    rcases List.mem_cons.mp hx with rfl | hx
    · exact List.mem_cons_of_mem _ (h.1 y hxy)
    · exact List.mem_cons_of_mem _ (ih h.2 hx)

theorem DepsFirst.mem_of_reach {xs : List α} (h : DepsFirst E xs) {x y : α} (hx : x ∈ xs)
    (hxy : ReflTransGen E x y) : y ∈ xs := by
  induction hxy with
  | refl => exact hx
  | tail _ hedge ih => exact h.mem_of_edge ih hedge

theorem DepsFirst.of_append {xs ys : List α} (h : DepsFirst E (xs ++ ys)) : DepsFirst E ys := by
  induction xs with
  | nil => exact h
  | cons x xs ih => exact ih h.2

/-- Read from the oldest on, each element comes after all it leads to. -/
theorem DepsFirst.mem_before {xs : List α} (h : DepsFirst E xs) {before after : List α} {x y : α}
    (hsplit : xs.reverse = before ++ x :: after) (hxy : TransGen E x y) : y ∈ before := by
  have hxs : xs = after.reverse ++ x :: before.reverse := by
    rw [← List.reverse_reverse xs, hsplit]
    simp
  have htail : DepsFirst E (x :: before.reverse) := (hxs ▸ h).of_append
  obtain ⟨z, hedge, hreach⟩ := TransGen.head'_iff.mp hxy
  exact List.mem_reverse.mp (htail.2.mem_of_reach (htail.1 z hedge) hreach)

/-! ### How far down -/

/-- Within `n` steps down everything is good, or is in a set that needs no walk. -/
def WithinSteps (E : α → α → Prop) (S good : α → Prop) : Nat → α → Prop
  | 0, x => S x
  | n + 1, x => S x ∨ good x ∧ ∀ y, E x y → WithinSteps E S good n y

/-- A bounded element leads back to itself only through the set. -/
theorem WithinSteps.mem_of_cycle {n : Nat} {x : α} (h : WithinSteps E S good n x)
    (hclosed : ∀ a b, S a → E a b → S b) (hcycle : TransGen E x x) : S x := by
  have hreach : ∀ a b, S a → ReflTransGen E a b → S b := by
    intro a b ha hab
    induction hab with
    | refl => exact ha
    | tail _ hedge ih => exact hclosed _ _ ih hedge
  induction n generalizing x with
  | zero => exact h
  | succ n ih =>
    rcases h with h | ⟨-, hnext⟩
    · exact h
    · obtain ⟨y, hedge, hback⟩ := TransGen.head'_iff.mp hcycle
      exact hreach y x (ih (hnext y hedge) (.tail' hback hedge)) hback

/-! ### The state of a walk -/

/-- What was seen is under way or done, and what is done was finished in order. -/
structure Walking (E : α → α → Prop) (seen under done : List α) : Prop where
  seen : ∀ x, x ∈ seen ↔ x ∈ under ∨ x ∈ done
  apart : ∀ x ∈ under, x ∉ done
  nodup : done.Nodup
  order : DepsFirst E done

theorem walking_nil : Walking E [] [] [] :=
  ⟨by simp, by simp, List.nodup_nil, trivial⟩

namespace Walking

variable {seen under done : List α} {x : α}

/-- An element that was not seen is taken up. -/
theorem enter (h : Walking E seen under done) (hx : x ∉ seen) :
    Walking E (x :: seen) (x :: under) done where
  seen y := by rw [List.mem_cons, List.mem_cons, h.seen, or_assoc]
  apart := by
    rintro y hy hdone
    rcases List.mem_cons.mp hy with rfl | hy
    · exact hx ((h.seen y).mpr (.inr hdone))
    · exact h.apart y hy hdone
  nodup := h.nodup
  order := h.order

/-- An element is finished once all it leads to is. -/
theorem leave (h : Walking E seen (x :: under) done) (hx : x ∉ under)
    (hnext : ∀ y, E x y → y ∈ done) : Walking E seen under (x :: done) where
  seen y := by rw [h.seen, List.mem_cons, List.mem_cons, or_assoc, or_left_comm]
  apart := by
    intro y hy hmem
    rcases List.mem_cons.mp hmem with rfl | hmem
    · exact hx hy
    · exact h.apart y (List.mem_cons_of_mem _ hy) hmem
  nodup := List.nodup_cons.mpr ⟨h.apart x List.mem_cons_self, h.nodup⟩
  order := ⟨hnext, h.order⟩

/-- What leads to a bounded element is not met below it. -/
theorem not_under (h : Walking E seen under done) {n : Nat} (hbound : WithinSteps E S good n x)
    (hclosed : ∀ a b, S a → E a b → S b) (hdone : ∀ y, S y → y ∈ done)
    (hunder : ∀ u ∈ under, TransGen E u x) : x ∉ under := fun hmem =>
  h.apart x hmem (hdone x (hbound.mem_of_cycle hclosed (hunder x hmem)))

/-- An element that was seen is done, if it is bounded and all that is under way leads to it. -/
theorem done_of_seen (h : Walking E seen under done) {n : Nat} (hbound : WithinSteps E S good n x)
    (hclosed : ∀ a b, S a → E a b → S b) (hdone : ∀ y, S y → y ∈ done)
    (hunder : ∀ u ∈ under, TransGen E u x) (hx : x ∈ seen) : x ∈ done :=
  ((h.seen x).mp hx).resolve_left (h.not_under hbound hclosed hdone hunder)

end Walking

end SchemaRegistry.Lib

import Mathlib.Data.List.Basic
import Mathlib.Data.List.Infix

/-!
Names looked up scope by scope, the innermost first. The first part of a name decides in which
scope it is looked up; the rest is not tried further out.
-/

namespace SchemaRegistry.Lib

variable {N : Type}

/-- What is declared, by full names. -/
structure Scopes (N : Type) where
  isType : List N → Bool
  /-- Names can be declared inside it. -/
  isScope : List N → Bool

namespace Scopes

variable (t : Scopes N)

/-- A scope declares what a name starts with: the type itself, or for a longer name a scope. -/
def captures (scope : List N) : List N → Bool
  | [] => false
  | [c] => t.isType (scope ++ [c])
  | c :: _ :: _ => t.isScope (scope ++ [c])

/-- A name among the types. -/
def typeAt (name : List N) : Option (List N) := if t.isType name then some name else none

/-- `resolve`, with the scope from the inside to the outside. -/
def resolveFrom (name : List N) : List N → Option (List N)
  | [] => t.typeAt name
  | c :: outer =>
      if t.captures (c :: outer).reverse name then t.typeAt ((c :: outer).reverse ++ name)
      else resolveFrom name outer

/-- The type a name stands for in a scope. -/
def resolve (scope name : List N) : Option (List N) := t.resolveFrom name scope.reverse

variable {t}

theorem typeAt_eq_some {name path : List N} :
    t.typeAt name = some path ↔ name = path ∧ t.isType path = true := by
  rw [typeAt]
  constructor
  · intro h
    split at h
    · cases h
      exact ⟨rfl, by assumption⟩
    · cases h
  · rintro ⟨rfl, h⟩
    rw [if_pos h]

theorem resolveFrom_eq_self {name : List N} (hname : t.isType name = true) (scope : List N) :
    t.resolveFrom name scope = some name ↔
      ∀ outer, outer ≠ [] → outer <:+ scope → t.captures outer.reverse name = false := by
  induction scope with
  | nil =>
    constructor
    · intro _ outer hne hs
      exact absurd (List.suffix_nil.mp hs) hne
    · intro _
      exact typeAt_eq_some.mpr ⟨rfl, hname⟩
  | cons c outer ih =>
    rw [resolveFrom]
    constructor
    · intro h scope' hne hs
      split at h
      · -- the name found starts with the scope, so it is a longer one
        have heq := congrArg List.length (typeAt_eq_some.mp h).1
        simp only [List.length_append, List.length_reverse, List.length_cons] at heq
        omega
      · rename_i hnot
        rcases List.suffix_cons_iff.mp hs with rfl | hs
        · exact Bool.eq_false_iff.mpr hnot
        · exact ih.mp h scope' hne hs
    · intro h
      rw [if_neg (Bool.eq_false_iff.mp (h _ (List.cons_ne_nil _ _) (List.suffix_refl _)))]
      exact ih.mpr fun scope' hne hs => h scope' hne (hs.trans (List.suffix_cons _ _))

/-- A full name stands for itself in a scope when nothing around declares its first part. -/
theorem resolve_eq_self {scope name : List N} (hname : t.isType name = true) :
    t.resolve scope name = some name ↔
      ∀ outer, outer ≠ [] → outer <+: scope → t.captures outer name = false := by
  rw [resolve, resolveFrom_eq_self hname]
  constructor
  · intro h outer hne hp
    have := h outer.reverse (by simpa using hne) (List.reverse_suffix.mpr hp)
    rwa [List.reverse_reverse] at this
  · intro h outer hne hs
    exact h outer.reverse (by simpa using hne)
      (by rwa [← List.reverse_suffix, List.reverse_reverse])

end Scopes

end SchemaRegistry.Lib

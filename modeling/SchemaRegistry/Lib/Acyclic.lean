import Mathlib.Logic.Relation

/-!
Acyclic graphs under change. A graph that loses edges stays acyclic, and so does one in which
a single node gets new successors, as long as none of them leads back to it.
-/

namespace SchemaRegistry.Lib

open Relation

variable {α : Type} {E E' : α → α → Prop} {r : α}

/-- No node leads back to itself. -/
def Acyclic (E : α → α → Prop) : Prop := ∀ a, ¬ TransGen E a a

theorem Acyclic.mono (h : Acyclic E) (hsub : ∀ a b, E' a b → E a b) : Acyclic E' :=
  fun a hcycle => h a (TransGen.mono hsub _ _ hcycle)

/-- A path to the changed node is an old path up to the first time it gets there. -/
theorem reach_of_reach_changed (hold : ∀ a b, E' a b → a ≠ r → E a b) {a : α}
    (h : ReflTransGen E' a r) : ReflTransGen E a r := by
  induction h using ReflTransGen.head_induction_on with
  | refl => exact .refl
  | @head a b hedge _ ih =>
    by_cases ha : a = r
    · rw [ha]
    · exact .head (hold a b hedge ha) ih

/-- A path is an old path, or goes through the changed node. -/
theorem path_old_or_through (hold : ∀ a b, E' a b → a ≠ r → E a b) {a c : α}
    (h : TransGen E' a c) : TransGen E a c ∨ ReflTransGen E' a r ∧ TransGen E' r c := by
  induction h with
  | single hedge =>
    by_cases ha : a = r
    · subst ha
      exact .inr ⟨.refl, .single hedge⟩
    · exact .inl (.single (hold _ _ hedge ha))
  | @tail b c hpath hedge ih =>
    rcases ih with hleft | ⟨hto, hfrom⟩
    · by_cases hb : b = r
      · subst hb
        exact .inr ⟨hpath.to_reflTransGen, .single hedge⟩
      · exact .inl (hleft.tail (hold b c hedge hb))
    · exact .inr ⟨hto, hfrom.tail hedge⟩

/-- Giving one node new successors, none of which leads back to it, makes no cycle. -/
theorem Acyclic.redirect (h : Acyclic E) (hold : ∀ a b, E' a b → a ≠ r → E a b)
    (hnew : ∀ b, E' r b → ¬ ReflTransGen E b r) : Acyclic E' := by
  intro a hcycle
  rcases path_old_or_through hold hcycle with hcycle | ⟨hto, hfrom⟩
  · exact h a hcycle
  · obtain ⟨b, hedge, hback⟩ := TransGen.head'_iff.mp (hfrom.trans_left hto)
    exact hnew b hedge (reach_of_reach_changed hold hback)

end SchemaRegistry.Lib

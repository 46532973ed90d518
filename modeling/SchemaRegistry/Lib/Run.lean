import Mathlib.Data.List.Basic

/-!
Runs of a deterministic machine. `Along ok s as` says that every step of the run
meets a condition on the state it starts from and the input it takes; what every
such step preserves holds in every state the run passes through.
-/

namespace SchemaRegistry.Lib

section Run

variable {S A : Type} {step : S → A → S} {ok : S → A → Prop} {inv : S → Prop} {s : S}
  {a : A} {as bs : List A}

/-- Every step of the run from `s` meets `ok`. -/
def Along (step : S → A → S) (ok : S → A → Prop) : S → List A → Prop
  | _, [] => True
  | s, a :: as => ok s a ∧ Along step ok (step s a) as

@[simp] theorem along_nil : Along step ok s [] ↔ True := Iff.rfl

@[simp] theorem along_cons :
    Along step ok s (a :: as) ↔ ok s a ∧ Along step ok (step s a) as := Iff.rfl

instance Along.decidable [∀ s a, Decidable (ok s a)] :
    (s : S) → (as : List A) → Decidable (Along step ok s as)
  | _, [] => isTrue trivial
  | s, a :: as => @instDecidableAnd _ _ _ (Along.decidable (step s a) as)

theorem along_append :
    Along step ok s (as ++ bs) ↔ Along step ok s as ∧ Along step ok (as.foldl step s) bs := by
  induction as generalizing s with
  | nil => simp
  | cons a as ih => simp [ih, and_assoc]

/-- A condition on the inputs alone. -/
theorem along_of_forall {ok : A → Prop} (h : ∀ a ∈ as, ok a) :
    Along step (fun _ => ok) s as := by
  induction as generalizing s with
  | nil => trivial
  | cons a as ih =>
    exact ⟨h a List.mem_cons_self, ih fun b hb => h b (List.mem_cons_of_mem a hb)⟩

/-- A condition on every prefix of a run is one on every step. -/
theorem along_of_isPrefix (h : ∀ pre a, pre ++ [a] <+: as → ok (pre.foldl step s) a) :
    Along step ok s as := by
  induction as generalizing s with
  | nil => trivial
  | cons a as ih =>
    refine ⟨h [] a (by simp), ih fun pre b hpre => ?_⟩
    exact h (a :: pre) b (by simpa using hpre)

/-- The invariant rule: initially, and kept by every step that meets the condition. -/
theorem inv_of_along (h : Along step ok s as) (h0 : inv s)
    (hstep : ∀ s a, inv s → ok s a → inv (step s a)) : inv (as.foldl step s) := by
  induction as generalizing s with
  | nil => exact h0
  | cons a as ih => exact ih h.2 (hstep s a h0 h.1)

/-- The invariant rule without a condition. -/
theorem inv_of_run (h0 : inv s) (hstep : ∀ s a, inv s → inv (step s a)) :
    inv (as.foldl step s) := by
  induction as generalizing s with
  | nil => exact h0
  | cons a as ih => exact ih (hstep s a h0)

end Run

end SchemaRegistry.Lib

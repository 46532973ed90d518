import Mathlib.Data.List.Basic

/-!
Peeling a fallible computation apart: a sequence succeeds when each of its steps
does, and loops over lists go step by step.
-/

namespace SchemaRegistry.Lib

variable {ε α β : Type} {x : Except ε α} {f : α → Except ε β} {b : β}

theorem bind_eq_ok : x >>= f = .ok b ↔ ∃ a, x = .ok a ∧ f a = .ok b := by
  cases x <;> simp [bind, Except.bind]

theorem map_eq_ok {g : α → β} : x.map g = .ok b ↔ ∃ a, x = .ok a ∧ g a = b := by
  cases x <;> simp [Except.map]

@[simp] theorem ok_bind {a : α} : (.ok a : Except ε α) >>= f = f a := rfl

@[simp] theorem error_bind {e : ε} : (.error e : Except ε α) >>= f = .error e := rfl

@[simp] theorem ite_error_eq_ok {c : Prop} [Decidable c] {e : ε} {y : Except ε β} :
    (if c then .error e else y) = .ok b ↔ ¬ c ∧ y = .ok b := by
  by_cases hc : c <;> simp [hc]

theorem forM_eq_ok {f : α → Except ε Unit} {xs : List α} {u : Unit} :
    xs.forM f = .ok u ↔ ∀ a ∈ xs, f a = .ok () := by
  induction xs with
  | nil => simp [pure, Except.pure]
  | cons a xs ih =>
    have hstep : (a :: xs).forM f = f a >>= fun _ => xs.forM f := rfl
    rw [hstep, bind_eq_ok, List.forall_mem_cons, ← ih]
    exact ⟨fun ⟨_, ha, hxs⟩ => ⟨ha, hxs⟩, fun ⟨ha, hxs⟩ => ⟨(), ha, hxs⟩⟩

theorem foldlM_congr {f g : β → α → Except ε β} {xs : List α}
    (h : ∀ a ∈ xs, ∀ acc, f acc a = g acc a) (acc : β) : xs.foldlM f acc = xs.foldlM g acc := by
  induction xs generalizing acc with
  | nil => rfl
  | cons a xs ih =>
    rw [List.foldlM_cons, List.foldlM_cons, h a List.mem_cons_self]
    exact congrArg _ (funext fun acc => ih (fun b hb => h b (List.mem_cons_of_mem a hb)) acc)

/-- What every step of a fold keeps. -/
theorem foldlM_inv {f : β → α → Except ε β} {xs : List α} {inv : β → Prop}
    (hstep : ∀ a ∈ xs, ∀ acc acc', inv acc → f acc a = .ok acc' → inv acc') {acc acc' : β}
    (h0 : inv acc) (h : xs.foldlM f acc = .ok acc') : inv acc' := by
  induction xs generalizing acc with
  | nil =>
    cases h
    exact h0
  | cons a xs ih =>
    rw [List.foldlM_cons] at h
    obtain ⟨acc₁, hfirst, h⟩ := bind_eq_ok.mp h
    exact ih (fun b hb => hstep b (List.mem_cons_of_mem a hb))
      (hstep a List.mem_cons_self acc acc₁ h0 hfirst) h

theorem forM_congr {f g : α → Except ε Unit} {xs : List α} (h : ∀ a ∈ xs, f a = g a) :
    xs.forM f = xs.forM g := by
  induction xs with
  | nil => rfl
  | cons a xs ih =>
    have hstep : ∀ f : α → Except ε Unit, (a :: xs).forM f = f a >>= fun _ => xs.forM f :=
      fun _ => rfl
    rw [hstep, hstep, h a List.mem_cons_self, ih fun b hb => h b (List.mem_cons_of_mem a hb)]

theorem mapM_congr {f g : α → Except ε β} {xs : List α} (h : ∀ a ∈ xs, f a = g a) :
    xs.mapM f = xs.mapM g := by
  induction xs with
  | nil => rfl
  | cons a xs ih =>
    rw [List.mapM_cons, List.mapM_cons, h a List.mem_cons_self,
      ih fun b hb => h b (List.mem_cons_of_mem a hb)]

theorem mem_of_mapM {f : α → Except ε β} {xs : List α} {ys : List β}
    (h : xs.mapM f = .ok ys) {y : β} : y ∈ ys ↔ ∃ x ∈ xs, f x = .ok y := by
  induction xs generalizing ys with
  | nil =>
    cases h
    simp
  | cons x xs ih =>
    rw [List.mapM_cons] at h
    obtain ⟨y', hy', h⟩ := bind_eq_ok.mp h
    obtain ⟨ys', hys', h⟩ := bind_eq_ok.mp h
    cases h
    rw [List.mem_cons, ih hys', List.exists_mem_cons_iff, hy', Except.ok.injEq, eq_comm]

theorem exists_of_mem_mapM {f : α → Except ε β} {xs : List α} {ys : List β}
    (h : xs.mapM f = .ok ys) : ∀ y ∈ ys, ∃ x ∈ xs, f x = .ok y :=
  fun _ hy => (mem_of_mapM h).mp hy

theorem length_of_mapM {f : α → Except ε β} {xs : List α} {ys : List β}
    (h : xs.mapM f = .ok ys) : ys.length = xs.length := by
  induction xs generalizing ys with
  | nil =>
    cases h
    rfl
  | cons x xs ih =>
    rw [List.mapM_cons] at h
    obtain ⟨y, -, h⟩ := bind_eq_ok.mp h
    obtain ⟨ys', hys', h⟩ := bind_eq_ok.mp h
    cases h
    rw [List.length_cons, List.length_cons, ih hys']

/-- A loop succeeds with results that are all good when each of its steps does. -/
theorem exists_mapM_and_forall {f : α → Except ε β} {xs : List α} {P : β → Prop} :
    (∃ ys, xs.mapM f = .ok ys ∧ ∀ y ∈ ys, P y) ↔ ∀ x ∈ xs, ∃ y, f x = .ok y ∧ P y := by
  constructor
  · rintro ⟨ys, hys, hall⟩
    induction xs generalizing ys with
    | nil => simp
    | cons x xs ih =>
      rw [List.mapM_cons] at hys
      obtain ⟨y, hy, hys⟩ := bind_eq_ok.mp hys
      obtain ⟨ys', hys', hcons⟩ := bind_eq_ok.mp hys
      cases hcons
      rw [List.forall_mem_cons] at hall ⊢
      exact ⟨⟨y, hy, hall.1⟩, ih ys' hys' hall.2⟩
  · intro h
    induction xs with
    | nil => exact ⟨[], rfl, by simp⟩
    | cons x xs ih =>
      rw [List.forall_mem_cons] at h
      obtain ⟨⟨y, hy, hgood⟩, hrest⟩ := h
      obtain ⟨ys, hys, hall⟩ := ih hrest
      refine ⟨y :: ys, ?_, List.forall_mem_cons.mpr ⟨hgood, hall⟩⟩
      rw [List.mapM_cons, hy, hys]
      rfl

end SchemaRegistry.Lib

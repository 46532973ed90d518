import Mathlib.Data.List.Basic

/-!
Tables and writes. A table gives every key a value, possibly of a type that depends
on the key; a write says for every key whether it stores a value there. What a list
of writes leaves under a key is decided by the last of them that touches it, so
everything about a batch reduces to who touches what.
-/

namespace SchemaRegistry.Lib

section Table

variable {W K : Type} {V : K → Type} {touch : W → (k : K) → Option (V k)} {t u : (k : K) → V k}
  {w : W} {ws us : List W} {k : K} {x : V k}

@[simp] theorem getD_ite_some_none {α : Type} {p : Prop} [Decidable p] (x y : α) :
    (if p then some x else none).getD y = if p then x else y := by
  split <;> rfl

/-- The table after one write. -/
def write (touch : W → (k : K) → Option (V k)) (t : (k : K) → V k) (w : W) : (k : K) → V k :=
  fun k => (touch w k).getD (t k)

/-- The table after a list of writes, first one first. -/
def writeAll (touch : W → (k : K) → Option (V k)) (t : (k : K) → V k) (ws : List W) :
    (k : K) → V k :=
  ws.foldl (write touch) t

@[simp] theorem writeAll_nil : writeAll touch t [] = t := rfl

@[simp] theorem writeAll_cons : writeAll touch t (w :: ws) = writeAll touch (write touch t w) ws :=
  rfl

theorem writeAll_append : writeAll touch t (ws ++ us) = writeAll touch (writeAll touch t ws) us :=
  List.foldl_append

theorem write_of_touch (h : touch w k = some x) : write touch t w k = x := by
  simp [write, h]

theorem write_of_untouched (h : touch w k = none) : write touch t w k = t k := by
  simp [write, h]

theorem writeAll_of_untouched (h : ∀ w ∈ ws, touch w k = none) : writeAll touch t ws k = t k := by
  induction ws generalizing t with
  | nil => rfl
  | cons w ws ih =>
    rw [writeAll_cons, ih fun v hv => h v (List.mem_cons_of_mem w hv),
      write_of_untouched (h w List.mem_cons_self)]

/-- Either no write touched the key, or some write left there what is there now. -/
theorem writeAll_cases (touch : W → (k : K) → Option (V k)) (t : (k : K) → V k)
    (ws : List W) (k : K) :
    (writeAll touch t ws k = t k ∧ ∀ w ∈ ws, touch w k = none) ∨
    ∃ w ∈ ws, touch w k = some (writeAll touch t ws k) := by
  induction ws generalizing t with
  | nil => exact .inl ⟨rfl, by simp⟩
  | cons w ws ih =>
    rw [writeAll_cons]
    rcases ih (write touch t w) with ⟨hrest, hun⟩ | ⟨v, hv, hx⟩
    · cases hw : touch w k with
      | none =>
        refine .inl ⟨hrest.trans (write_of_untouched hw), fun v hv => ?_⟩
        rcases List.mem_cons.mp hv with rfl | hv
        · exact hw
        · exact hun v hv
      | some x =>
        exact .inr ⟨w, List.mem_cons_self, by rw [hw, hrest, write_of_touch hw]⟩
    · exact .inr ⟨v, List.mem_cons_of_mem w hv, hx⟩

/-- When all writes that touch a key agree on its value, and one does, that is its value. -/
theorem writeAll_of_agree (h : ∃ w ∈ ws, touch w k = some x)
    (hall : ∀ w ∈ ws, ∀ y, touch w k = some y → y = x) : writeAll touch t ws k = x := by
  rcases writeAll_cases touch t ws k with ⟨-, hun⟩ | ⟨w, hw, hx⟩
  · obtain ⟨w, hw, hx⟩ := h
    simp [hun w hw] at hx
  · exact hall w hw _ hx

/-- What a batch leaves under a key depends on the table only through that key. -/
theorem writeAll_congr (h : t k = u k) : writeAll touch t ws k = writeAll touch u ws k := by
  induction ws generalizing t u with
  | nil => exact h
  | cons w ws ih =>
    rw [writeAll_cons, writeAll_cons]
    refine ih ?_
    simp [write, h]

/-- Two batches may swap, as far as a key shows, when both store the same there. -/
theorem writeAll_comm (h : ∀ w ∈ ws, ∀ v ∈ us, ∀ x y, touch w k = some x → touch v k = some y →
    x = y) : writeAll touch t (ws ++ us) k = writeAll touch t (us ++ ws) k := by
  by_cases hws : ∀ w ∈ ws, touch w k = none
  · rw [writeAll_append, writeAll_append, writeAll_of_untouched hws]
    exact writeAll_congr (writeAll_of_untouched hws)
  by_cases hus : ∀ v ∈ us, touch v k = none
  · rw [writeAll_append, writeAll_append, writeAll_of_untouched hus]
    exact (writeAll_congr (writeAll_of_untouched hus)).symm
  push Not at hws hus
  obtain ⟨w, hw, hwk⟩ := hws
  obtain ⟨v, hv, hvk⟩ := hus
  obtain ⟨x, hx⟩ := Option.ne_none_iff_exists'.mp hwk
  obtain ⟨y, hy⟩ := Option.ne_none_iff_exists'.mp hvk
  have hall : ∀ w' ∈ ws ++ us, ∀ z, touch w' k = some z → z = x := by
    intro w' hw' z hz
    rcases List.mem_append.mp hw' with hw' | hw'
    · exact (h w' hw' v hv z y hz hy).trans (h w hw v hv x y hx hy).symm
    · exact (h w hw w' hw' x z hx hz).symm
  rw [writeAll_of_agree ⟨w, List.mem_append_left us hw, hx⟩ hall,
    writeAll_of_agree ⟨w, List.mem_append_right us hw, hx⟩ fun w' hw' =>
      hall w' (List.mem_append.mpr (List.mem_append.mp hw').symm)]

/-- A batch in the middle may come first, when it agrees with what it overtakes. -/
theorem writeAll_front {vs : List W} (h : ∀ w ∈ us, ∀ v ∈ ws, ∀ x y, touch w k = some x →
    touch v k = some y → x = y) :
    writeAll touch t (us ++ (ws ++ vs)) k = writeAll touch (writeAll touch t ws) (us ++ vs) k := by
  calc writeAll touch t (us ++ (ws ++ vs)) k
      = writeAll touch (writeAll touch t (us ++ ws)) vs k := by
        rw [← List.append_assoc, writeAll_append]
    _ = writeAll touch (writeAll touch t (ws ++ us)) vs k := writeAll_congr (writeAll_comm h)
    _ = writeAll touch (writeAll touch t ws) (us ++ vs) k := by simp only [writeAll_append]

end Table

end SchemaRegistry.Lib

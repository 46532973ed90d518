import Mathlib.Data.List.Basic

/-!
Computations given a bound on the depth of their calls. `none` means that the
bound was too small. A program terminates on an input when every large enough
bound gives one and the same result; the rules below compose such results without
comparing bounds.
-/

namespace SchemaRegistry.Lib

variable {α β : Type}

/-- From some bound on, `f` gives `a`. -/
def Settles (f : Nat → Option α) (a : α) : Prop :=
  ∃ n, ∀ m, n ≤ m → f m = some a

/-- Every large enough bound gives one and the same result. -/
def Halts (f : Nat → Option α) : Prop := ∃ a, Settles f a

theorem Settles.halts {f : Nat → Option α} {a : α} (h : Settles f a) : Halts f := ⟨a, h⟩

/-- Two results would have to agree at a large bound. -/
theorem Settles.unique {f : Nat → Option α} {a b : α} (ha : Settles f a) (hb : Settles f b) :
    a = b := by
  obtain ⟨n, hn⟩ := ha
  obtain ⟨k, hk⟩ := hb
  exact Option.some.inj
    ((hn (max n k) (Nat.le_max_left n k)).symm.trans (hk _ (Nat.le_max_right n k)))

theorem settles_const (a : α) : Settles (fun _ => some a) a := ⟨0, fun _ _ => rfl⟩

/-- One call deeper. -/
theorem Settles.of_succ {f : Nat → Option α} {a : α} (h : Settles (fun n => f (n + 1)) a) :
    Settles f a := by
  obtain ⟨n, hn⟩ := h
  refine ⟨n + 1, fun m hm => ?_⟩
  obtain ⟨k, rfl⟩ := Nat.exists_eq_add_of_le' (show 1 ≤ m by omega)
  exact hn k (by omega)

theorem Halts.of_succ {f : Nat → Option α} (h : Halts fun n => f (n + 1)) : Halts f := by
  obtain ⟨a, ha⟩ := h
  exact ⟨a, ha.of_succ⟩

theorem halts_const (a : α) : Halts fun _ => some a := (settles_const a).halts

theorem Settles.bind {f : Nat → Option α} {g : Nat → α → Option β} {a : α} {b : β}
    (hf : Settles f a) (hg : Settles (fun n => g n a) b) :
    Settles (fun n => f n >>= g n) b := by
  obtain ⟨n, hn⟩ := hf
  obtain ⟨k, hk⟩ := hg
  refine ⟨max n k, fun m hm => ?_⟩
  have hfm := hn m (Nat.le_trans (Nat.le_max_left n k) hm)
  have hgm := hk m (Nat.le_trans (Nat.le_max_right n k) hm)
  show (f m >>= g m) = some b
  rw [hfm]
  exact hgm

theorem Halts.bind {f : Nat → Option α} {g : Nat → α → Option β} (hf : Halts f)
    (hg : ∀ a, Settles f a → Halts fun n => g n a) : Halts fun n => f n >>= g n := by
  obtain ⟨a, ha⟩ := hf
  obtain ⟨b, hb⟩ := hg a ha
  exact ⟨b, ha.bind hb⟩

theorem Halts.map {f : Nat → Option α} {g : α → β} (hf : Halts f) : Halts fun n => (f n).map g := by
  obtain ⟨a, n, hn⟩ := hf
  exact ⟨g a, n, fun m hm => congrArg (Option.map g) (hn m hm)⟩

/-! ### Loops -/

theorem length_eq_of_mapM {f : α → Option β} {as : List α} {bs : List β} (h : as.mapM f = some bs) :
    as.length = bs.length := by
  induction as generalizing bs with
  | nil =>
    cases h
    rfl
  | cons a as ih =>
    rw [List.mapM_cons] at h
    obtain ⟨b, -, h⟩ := Option.bind_eq_some_iff.mp h
    obtain ⟨rest, hrest, h⟩ := Option.bind_eq_some_iff.mp h
    cases h
    rw [List.length_cons, List.length_cons, ih hrest]

/-- A loop ends if each of its rounds does. -/
theorem exists_mapM {f : α → Option β} {as : List α} (h : ∀ a ∈ as, ∃ b, f a = some b) :
    ∃ bs, as.mapM f = some bs := by
  induction as with
  | nil => exact ⟨[], rfl⟩
  | cons a as ih =>
    obtain ⟨⟨b, hb⟩, has⟩ := List.forall_mem_cons.mp h
    obtain ⟨bs, hbs⟩ := ih has
    refine ⟨b :: bs, ?_⟩
    rw [List.mapM_cons, hb, hbs]
    rfl

theorem getElem?_mapM {f : α → Option β} {as : List α} {bs : List β} (h : as.mapM f = some bs)
    (i : Nat) : bs[i]? = as[i]?.bind f := by
  induction as generalizing bs i with
  | nil =>
    cases h
    rfl
  | cons a as ih =>
    rw [List.mapM_cons] at h
    obtain ⟨b, hb, h⟩ := Option.bind_eq_some_iff.mp h
    obtain ⟨rest, hrest, h⟩ := Option.bind_eq_some_iff.mp h
    cases h
    cases i with
    | zero => exact hb.symm
    | succ i => exact ih hrest i

/-- What is found for each element, first one first. -/
def collect (xs : List α) (f : α → Option (List β)) : Option (List β) :=
  (xs.mapM f).map List.flatten

theorem halts_collect {xs : List α} {f : Nat → α → Option (List β)}
    (h : ∀ x ∈ xs, Halts fun n => f n x) : Halts fun n => collect xs (f n) := by
  refine Halts.map ?_
  induction xs with
  | nil => exact halts_const []
  | cons x xs ih =>
    simp only [List.mapM_cons]
    refine Halts.bind (h x List.mem_cons_self) fun d _ => ?_
    refine Halts.bind (ih fun y hy => h y (List.mem_cons_of_mem x hy)) fun ds _ => ?_
    exact halts_const _

theorem collect_eq_none {xs : List α} {f : α → Option (List β)} {x : α} (hx : x ∈ xs)
    (h : f x = none) : collect xs f = none := by
  rw [collect, Option.map_eq_none_iff]
  induction xs with
  | nil => cases hx
  | cons y ys ih =>
    rw [List.mapM_cons]
    rcases List.mem_cons.mp hx with rfl | hmem
    · rw [h]
      rfl
    · rw [ih hmem]
      cases f y <;> rfl

theorem collect_cons (x : α) (xs : List α) (f : α → Option (List β)) :
    collect (x :: xs) f = (do let a ← f x; let b ← collect xs f; some (a ++ b)) := by
  simp only [collect, List.mapM_cons]
  cases f x with
  | none => rfl
  | some a => cases xs.mapM f <;> simp

end SchemaRegistry.Lib

import Mathlib.Data.List.Basic

/-!
A source that is read piece by piece. Each read gives what the source has ready, cut to the size of
the buffer, and nothing only at the end. What a loop of reads makes of the source is then a function
of its content, whatever the pieces.
-/

namespace SchemaRegistry.Lib

/-- What a source has yet to give, in the pieces it comes in. -/
structure Source (α : Type) where
  chunks : List (List α)
  nonempty : ∀ c ∈ chunks, c ≠ []

namespace Source

variable {α : Type}

def content (s : Source α) : List α := s.chunks.flatten

/-- One read into a buffer of `k` places. -/
def read (s : Source α) (k : Nat) : List α × Source α :=
  match s with
  | ⟨[], h⟩ => ([], ⟨[], h⟩)
  | ⟨c :: cs, h⟩ =>
      if hk : c.length ≤ k then (c, ⟨cs, fun d hd => h d (List.mem_cons_of_mem c hd)⟩)
      else
        (c.take k, ⟨c.drop k :: cs, List.forall_mem_cons.mpr
          ⟨by rw [ne_eq, List.drop_eq_nil_iff]; exact hk, fun d hd => h d
            (List.mem_cons_of_mem c hd)⟩⟩)

theorem content_read (s : Source α) (k : Nat) :
    (s.read k).1 ++ (s.read k).2.content = s.content := by
  obtain ⟨_ | ⟨c, cs⟩, h⟩ := s
  · rfl
  · unfold read
    by_cases hk : c.length ≤ k
    · simp [hk, content]
    · simp only [hk, dite_false, content, List.flatten_cons]
      rw [← List.append_assoc, List.take_append_drop]

theorem length_read_le (s : Source α) (k : Nat) : (s.read k).1.length ≤ k := by
  obtain ⟨_ | ⟨c, cs⟩, h⟩ := s
  · exact Nat.zero_le k
  · unfold read
    by_cases hk : c.length ≤ k
    · simp [hk]
    · simp only [hk, dite_false]
      exact List.length_take_le k c

/-- A read gives nothing at the end only. -/
theorem read_eq_nil_iff (s : Source α) {k : Nat} (hk : 0 < k) :
    (s.read k).1 = [] ↔ s.content = [] := by
  obtain ⟨_ | ⟨c, cs⟩, h⟩ := s
  · exact iff_of_true rfl rfl
  · have hc : c ≠ [] := h c List.mem_cons_self
    have hlen := List.length_pos_iff.mpr hc
    refine iff_of_false ?_ (by simp [content, hc])
    unfold read
    by_cases hle : c.length ≤ k
    · simpa [hle] using hc
    · simp only [hle, dite_false, List.take_eq_nil_iff, hc, or_false]
      omega

/-- Reads until there are `n` elements, or the source ends. -/
def fill (n : Nat) (buf : List α) (s : Source α) : List α × Source α :=
  if buf.length < n then
    match s.read (n - buf.length) with
    | ([], s) => (buf, s)
    | (a :: as, s) => fill n (buf ++ a :: as) s
  else (buf, s)
termination_by n - buf.length
decreasing_by
  simp only [List.length_append, List.length_cons]
  omega

theorem fill_spec (n : Nat) (buf : List α) (s : Source α) :
    (s.fill n buf).1 = buf ++ s.content.take (n - buf.length)
      ∧ (s.fill n buf).2.content = s.content.drop (n - buf.length) := by
  induction buf, s using fill.induct n with
  | case1 buf s hlt s' hread =>
    have hcontent := content_read s (n - buf.length)
    have hend : s.content = [] := by
      rw [← read_eq_nil_iff s (k := n - buf.length) (by omega), hread]
    rw [hread, List.nil_append] at hcontent
    rw [fill, if_pos hlt, hread]
    simp [hcontent, hend]
  | case2 buf s hlt a as s' hread ih =>
    have hcontent := content_read s (n - buf.length)
    have hlen := length_read_le s (n - buf.length)
    rw [hread] at hcontent hlen
    have hleft : n - (buf ++ a :: as).length = n - buf.length - (a :: as).length := by
      rw [List.length_append]
      omega
    rw [hleft] at ih
    rw [fill, if_pos hlt, hread, ← hcontent, List.take_append, List.drop_append,
      List.take_of_length_le hlen, List.drop_of_length_le hlen,
        List.nil_append, ← List.append_assoc]
    exact ih
  | case3 buf s hge =>
    have hzero : n - buf.length = 0 := by omega
    rw [fill, if_neg hge, hzero]
    simp

/-- The buffer takes the first `n` elements of all there is, and the rest stays. -/
theorem fill_of_length_le {n : Nat} {buf : List α} (hbuf : buf.length ≤ n) (s : Source α) :
    (s.fill n buf).1 = (buf ++ s.content).take n
      ∧ (s.fill n buf).2.content = (buf ++ s.content).drop n := by
  rw [List.take_append, List.drop_append, List.take_of_length_le hbuf, List.drop_of_length_le hbuf,
    List.nil_append]
  exact fill_spec n buf s

theorem fill_nil (n : Nat) (s : Source α) :
    (s.fill n []).1 = s.content.take n ∧ (s.fill n []).2.content = s.content.drop n :=
  fill_of_length_le n.zero_le s

end Source

end SchemaRegistry.Lib

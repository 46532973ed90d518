import SchemaRegistry.Lib.Lists
import SchemaRegistry.Api.Router

/-!
Paths made of segments, and the segments the router sees of them.
-/

namespace SchemaRegistry.Authz

open Lib

/-- Segments as the text of a path. -/
def slashed (xs : List String) : String := xs.foldl (fun out x => out ++ "/" ++ x) ""

theorem foldl_slashed (out : String) (xs : List String) :
    xs.foldl (fun out x => out ++ "/" ++ x) out = out ++ slashed xs := by
  induction xs generalizing out with
  | nil => simp [slashed]
  | cons x xs ih =>
    rw [slashed, List.foldl_cons, List.foldl_cons, ih, ih]; simp [String.append_assoc]

theorem slashed_cons (x : String) (xs : List String) :
    slashed (x :: xs) = "/" ++ x ++ slashed xs := by
  rw [slashed, List.foldl_cons, foldl_slashed]
  simp

theorem toList_slashed (xs : List String) :
    (slashed xs).toList = xs.flatMap fun x => '/' :: x.toList := by
  induction xs with
  | nil => rfl
  | cons x xs ih => simp [slashed_cons, ih]

/-- The segments the router sees of a path: an empty one, then those it was made of. -/
theorem rawSegments_slashed {segs : List String} (h : ∀ s ∈ segs, '/' ∉ s.toList) :
    rawSegments (slashed segs) = "" :: segs := by
  have htext : (slashed segs).toList = ['/'].intercalate ([] :: segs.map String.toList) := by
    rw [intercalate_cons, toList_slashed, List.nil_append, List.flatMap_map]
  have hslash : ∀ l ∈ [] :: segs.map String.toList, '/' ∉ l := by
    refine List.forall_mem_cons.mpr ⟨List.not_mem_nil, ?_⟩
    intro l hl
    obtain ⟨s, hs, rfl⟩ := List.mem_map.mp hl
    exact h s hs
  rw [rawSegments, htext, List.splitOn_intercalate '/' hslash (by simp), List.map_cons,
    List.map_map]
  simp

/-- Segments without a slash are read back from the text. -/
theorem slashed_inj {xs ys : List String} (hx : ∀ x ∈ xs, '/' ∉ x.toList)
    (hy : ∀ y ∈ ys, '/' ∉ y.toList) (h : slashed xs = slashed ys) : xs = ys := by
  have hraw := congrArg rawSegments h
  rw [rawSegments_slashed hx, rawSegments_slashed hy] at hraw
  exact (List.cons.inj hraw).2

end SchemaRegistry.Authz

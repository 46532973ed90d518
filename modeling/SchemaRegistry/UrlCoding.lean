import SchemaRegistry.Api.Rewrite
import SchemaRegistry.Authorization

/-!
The three encoders of URLs against the one decoder. The decoder takes a bare `+` for a space; the
encoder of alias targets is the one that leaves it bare.
-/

namespace SchemaRegistry.Rewrite

open Lib SchemaRegistry.Authz

theorem plainInQuery_spec (b : UInt8) (h : plainInQuery b = true) :
    b.toNat < 128 ∧ b ≠ 0x25 ∧ b ≠ 0x2B := by
  rcases Bool.or_eq_true_iff.mp h with h | h
  · exact bare_of_alphanumeric h
  · have hmarks : ∀ m ∈ utf8 "-._~:*", m.toNat < 128 ∧ m ≠ 0x25 ∧ m ≠ 0x2B :=
      List.all_iff_forall_prop.mp (by decide)
    exact hmarks b (List.contains_iff_mem.mp h)

theorem plainInPath_spec (b : UInt8) (h : plainInPath b = true) : b.toNat < 128 ∧ b ≠ 0x25 := by
  rcases Bool.or_eq_true_iff.mp h with h | h
  · exact ⟨(bare_of_alphanumeric h).1, (bare_of_alphanumeric h).2.1⟩
  · have hmarks : ∀ m ∈ utf8 "-._~:*@!$&'()+,;=", m.toNat < 128 ∧ m ≠ 0x25 :=
      List.all_iff_forall_prop.mp (by decide)
    exact hmarks b (List.contains_iff_mem.mp h)

/-! ### Path segments -/

/-- The router reads an encoded segment back as it was. -/
theorem capturedText_encodeSegment (s : String) : capturedText (encodeSegment s) = some s := by
  rw [capturedText_eq_some, encodeSegment]
  refine unescape_escapeText_of_bare (fun b hb => ?_) s
  obtain ⟨hascii, hpercent⟩ := plainInPath_spec b hb
  exact ⟨hascii, hpercent, bare_plus b⟩

theorem plus_mem_encodeSegment (s : String) : '+' ∈ (encodeSegment s).toList ↔ '+' ∈ s.toList := by
  rw [encodeSegment, mem_escapeText (b := 0x2B) (by decide) rfl (by decide)]
  exact and_iff_right (by decide)

theorem percentDecode_encodeSegment (s : String) :
    percentDecode (encodeSegment s) = s ↔ '+' ∉ s.toList := by
  rw [(percentDecode_spec (capturedText_encodeSegment s)).2, plus_mem_encodeSegment]

/-! ### Queries -/

theorem percentDecode_encodeQueryValue (s : String) : percentDecode (encodeQueryValue s) = s := by
  rw [percentDecode, encodeQueryValue, unescape_escapeText plainInQuery_spec, fromUtf8Lossy_utf8]

theorem not_mem_encodeQueryValue {c : Char} (hc : c = '&' ∨ c = '=') (s : String) :
    c ∉ (encodeQueryValue s).toList := by
  rcases hc with rfl | rfl
  · exact not_mem_escapeText (b := 0x26) (by decide) rfl (by decide) (by decide) s
  · exact not_mem_escapeText (b := 0x3D) (by decide) rfl (by decide) (by decide) s

/-- One parameter as it stands in a query string. -/
def writtenPair (p : String × String) : List Char :=
  (encodeQueryValue p.1).toList ++ '=' :: (encodeQueryValue p.2).toList

theorem ampersand_not_mem_writtenPair (p : String × String) : '&' ∉ writtenPair p := by
  rw [writtenPair, List.mem_append, List.mem_cons]
  rintro (h | h | h)
  · exact not_mem_encodeQueryValue (.inl rfl) _ h
  · exact absurd h (by decide)
  · exact not_mem_encodeQueryValue (.inl rfl) _ h

/-- A written parameter splits at its only `=` and is read back, an empty name included. -/
theorem splitOnce_writtenPair (p : String × String) :
    splitOnce '=' (writtenPair p)
      = some ((encodeQueryValue p.1).toList, (encodeQueryValue p.2).toList) :=
  splitOnce_append (not_mem_encodeQueryValue (.inr rfl) p.1) _

theorem toList_intercalate_written (pairs : List (String × String)) :
    ("&".intercalate (pairs.map fun (k, v) =>
      encodeQueryValue k ++ "=" ++ encodeQueryValue v)).toList
        = ['&'].intercalate (pairs.map writtenPair) := by
  rw [String.toList_intercalate, List.map_map]
  congr 1
  refine List.map_congr_left fun p _ => ?_
  simp [writtenPair]

/-- The parameters of a query string that was rebuilt from them. -/
theorem queryPairs_rebuildQuery (pairs : List (String × String)) :
    ((rebuildQuery pairs).map queryPairs).getD [] = pairs := by
  by_cases hnil : pairs = []
  · subst hnil
    rfl
  have hsplit : (['&'].intercalate (pairs.map writtenPair)).splitOn '&'
      = pairs.map writtenPair := by
    apply List.splitOn_intercalate
    · intro l hl
      obtain ⟨p, -, rfl⟩ := List.mem_map.mp hl
      exact ampersand_not_mem_writtenPair p
    · simpa using hnil
  -- no part is empty, since each holds its `=`
  have hkept : (pairs.map writtenPair).filter (· ≠ []) = pairs.map writtenPair := by
    rw [List.filter_eq_self]
    intro l hl
    obtain ⟨p, -, rfl⟩ := List.mem_map.mp hl
    simp [writtenPair]
  have hsome : rebuildQuery pairs = some ("&".intercalate (pairs.map fun (k, v) =>
      encodeQueryValue k ++ "=" ++ encodeQueryValue v)) := if_neg (by simpa using hnil)
  rw [hsome, Option.map_some, Option.getD_some, queryPairs, toList_intercalate_written, hsplit,
    hkept, List.map_map]
  conv_rhs => rw [← List.map_id pairs]
  refine List.map_congr_left fun p _ => ?_
  simp [splitOnce_writtenPair, percentDecode_encodeQueryValue]

/-- The three encoders are inverted exactly on the texts without a `+`; the parameters of a query
always come back. -/
theorem encoders_inverse_iff (x : String) (pairs : List (String × String)) :
    (percentDecode (percentEncodeSegment x) = x ∧ percentDecode (encodeSegment x) = x ∧
      ((rebuildQuery pairs).map queryPairs).getD [] = pairs) ↔ '+' ∉ x.toList := by
  rw [percentDecode_encodeSegment, queryPairs_rebuildQuery]
  simp [percentDecode_percentEncodeSegment]

/-- A `+` in an alias becomes a space. -/
theorem encodeSegment_plus : percentDecode (encodeSegment "a+b") = "a b" := by decide

end SchemaRegistry.Rewrite

import SchemaRegistry.Lib.GlobLanguage
import SchemaRegistry.Exporter.Apart

/-!
Which subjects at the destination an exporter takes for its own. Instead of undoing the renaming,
the test puts the source pattern into the places of the rename format and matches the name
against the result. With one place that is the renaming of what the pattern stands for. With
several, each place may be matched by another text, and with none the pattern does not count any
more.
-/

namespace SchemaRegistry

open Lib

/-- The pattern that the names at the destination are matched against. `escape` turns a text into
a pattern that stands for it alone. -/
def renamedPattern (escape : String → String) (rename : Option String) (sourcePattern : String) :
    String :=
  match rename.filter fun f => !f.isEmpty with
  | some format =>
      String.ofList (sourcePattern.toList.intercalate
        ((pieces Exporter.subjectPlace.toList 0 format.toList).map fun p =>
          (escape (String.ofList p)).toList))
  | none => sourcePattern

def subjectMatchesRenamed (glob : String → String → Bool) (escape : String → String)
    (patterns : List String) (ctx : String) (rename : Option String) (subject : String) : Bool :=
  patterns.any fun raw =>
    let q := QualifiedSubject.parse raw
    if !q.isWildcard && q.context != ctx then false
    else
      let sourcePattern := if q.subject.isEmpty then "*" else q.subject
      glob (renamedPattern escape rename sourcePattern) subject

/-! ### What is assumed of the glob matcher -/

/-- A text without the recursive wildcard. -/
def NoDoubleStar (p : String) : Prop := ¬ ['*', '*'] <:+: p.toList

instance (p : String) : Decidable (NoDoubleStar p) := inferInstanceAs (Decidable (¬ _))

/-- A matcher of the glob language. -/
def MatchesGlobs (glob : String → String → Bool) : Prop :=
  ∀ p s, NoDoubleStar p → (glob p s = true ↔ GlobMatches p.toList s.toList)

/-- An escaped text stands for itself, wherever it stands in a pattern. -/
def EscapesLiterally (escape : String → String) : Prop :=
  ∀ (t : String) (rest s : List Char), GlobMatches ((escape t).toList ++ rest) s
    ↔ ∃ s', s = t.toList ++ s' ∧ GlobMatches rest s'

/-! ### Patterns and places -/

/-- The patterns that are about a context, without it. -/
def sourcePatterns (patterns : List String) (ctx : String) : List String :=
  (patterns.filter fun raw =>
    (QualifiedSubject.parse raw).isWildcard || (QualifiedSubject.parse raw).context == ctx).map
    fun raw =>
      if (QualifiedSubject.parse raw).subject.isEmpty then "*"
        else (QualifiedSubject.parse raw).subject

/-- How often the subject stands in a rename format; without one it stands for itself. -/
def subjectPlaces (rename : Option String) : Nat :=
  match rename.filter fun f => !f.isEmpty with
  | some format => (pieces Exporter.subjectPlace.toList 0 format.toList).length - 1
  | none => 1

/-- Patterns that can be read, and in which nothing recursive comes up. -/
def PlainPatterns (escape : String → String) (rename : Option String) (sources : List String) :
    Prop :=
  ∀ p ∈ sources, (globTokens p.toList).isSome = true ∧ NoDoubleStar p
    ∧ NoDoubleStar (renamedPattern escape rename p)

/-- The places of the format leave no room: there is one; or there is none, and a subject is
matched if any pattern is there; or there are several, and each pattern stands for one name at
most. -/
def NamesOnce (rename : Option String) (sources : List String) : Prop :=
  match subjectPlaces rename with
  | 0 => sources ≠ [] → ∃ p ∈ sources, ∃ s, GlobMatches p.toList s
  | 1 => True
  | _ => ∀ p ∈ sources, ∀ s t, GlobMatches p.toList s → GlobMatches p.toList t → s = t

section

variable {glob : String → String → Bool} {escape : String → String} {patterns : List String}
  {ctx : String} {rename : Option String}

theorem subjectMatches_iff {s : String} :
    subjectMatches glob patterns ctx s = true ↔
      ∃ p ∈ sourcePatterns patterns ctx, glob p s = true := by
  simp only [subjectMatches, sourcePatterns, List.any_eq_true, List.mem_map, List.mem_filter,
    Bool.and_eq_true]
  constructor
  · rintro ⟨raw, hraw, hctx, hglob⟩
    exact ⟨_, ⟨raw, ⟨hraw, hctx⟩, rfl⟩, hglob⟩
  · rintro ⟨_, ⟨raw, ⟨hraw, hctx⟩, rfl⟩, hglob⟩
    exact ⟨raw, hraw, hctx, hglob⟩

theorem subjectMatchesRenamed_iff {d : String} :
    subjectMatchesRenamed glob escape patterns ctx rename d = true
      ↔ ∃ p ∈ sourcePatterns patterns ctx, glob (renamedPattern escape rename p) d = true := by
  have hother : ∀ q : QualifiedSubject, (!q.isWildcard && q.context != ctx) = true
      ↔ ¬ (q.isWildcard || q.context == ctx) = true := by
    intro q
    simp
  simp only [subjectMatchesRenamed, sourcePatterns, List.any_eq_true, List.mem_map, List.mem_filter]
  constructor
  · rintro ⟨raw, hraw, hglob⟩
    split at hglob
    · cases hglob
    · next hctx =>
        rw [hother, not_not] at hctx
        exact ⟨_, ⟨raw, ⟨hraw, hctx⟩, rfl⟩, hglob⟩
  · rintro ⟨_, ⟨raw, ⟨hraw, hctx⟩, rfl⟩, hglob⟩
    refine ⟨raw, hraw, ?_⟩
    rw [if_neg fun hnot => (hother _).mp hnot hctx]
    exact hglob

/-- What a pattern between escaped pieces stands for. -/
theorem globMatches_joined (hescape : EscapesLiterally escape) {p : List Char}
    (hp : (globTokens p).isSome = true) :
    ∀ (parts : List (List Char)) (d : List Char),
      GlobMatches (p.intercalate (parts.map fun q => (escape (String.ofList q)).toList)) d
        ↔ JoinsWith (GlobMatches p) parts d
  | [], d => by
      rw [List.map_nil, List.intercalate_nil, globMatches_nil]
      rfl
  | [q], d => by
      have hlit := hescape (String.ofList q) [] d
      rw [List.append_nil, String.toList_ofList] at hlit
      simp [JoinsWith, hlit, globMatches_nil]
  | q :: q' :: rest, d => by
      have ih := globMatches_joined hescape hp (q' :: rest)
      rw [List.map_cons] at ih
      rw [List.map_cons, List.map_cons, List.intercalate_cons_cons, List.append_assoc, hescape,
        String.toList_ofList]
      simp only [globMatches_append hp, JoinsWith, ih]
      constructor
      · rintro ⟨s', rfl, x, y, rfl, hx, hy⟩
        exact ⟨x, y, rfl, hx, hy⟩
      · rintro ⟨x, y, rfl, hx, hy⟩
        exact ⟨x ++ y, rfl, x, y, rfl, hx, hy⟩

/-- In terms of texts: the test joins pieces by texts of a pattern, the renaming by one text. -/
theorem managed_exact_iff_joins {format : String} {parts : List (List Char)}
    (hglob : MatchesGlobs glob) (hescape : EscapesLiterally escape) {info : ExporterInfo}
    (hformat : Exporter.renameFormat info = some format)
    (hparts : pieces Exporter.subjectPlace.toList 0 format.toList = parts)
    (hplain : PlainPatterns escape info.subjectRenameFormat (sourcePatterns patterns ctx)) :
    (∀ d, subjectMatchesRenamed glob escape patterns ctx info.subjectRenameFormat d = true
      ↔ ∃ s, subjectMatches glob patterns ctx s = true ∧ Exporter.renamed info s = d)
    ↔ ∀ d : List Char, (∃ p ∈ sourcePatterns patterns ctx, JoinsWith (GlobMatches p.toList) parts d)
      ↔ ∃ s : List Char, (∃ p ∈ sourcePatterns patterns ctx, GlobMatches p.toList s)
        ∧ s.intercalate parts = d := by
  have hrenamed : ∀ s, Exporter.renamed info s = String.ofList (s.toList.intercalate parts) := by
    intro s
    rw [Exporter.renamed_eq, hformat, ← hparts]
    rfl
  have hleft : ∀ d, subjectMatchesRenamed glob escape patterns ctx info.subjectRenameFormat d = true
      ↔ ∃ p ∈ sourcePatterns patterns ctx, JoinsWith (GlobMatches p.toList) parts d.toList := by
    intro d
    rw [subjectMatchesRenamed_iff]
    refine exists_congr fun p => and_congr_right fun hp => ?_
    obtain ⟨hread, -, hdouble⟩ := hplain p hp
    rw [Exporter.renameFormat] at hformat
    rw [hglob _ d hdouble, renamedPattern, hformat, String.toList_ofList, hparts]
    exact globMatches_joined hescape hread parts d.toList
  have hright : ∀ d, (∃ s, subjectMatches glob patterns ctx s = true ∧ Exporter.renamed info s = d)
      ↔ ∃ s : List Char, (∃ p ∈ sourcePatterns patterns ctx, GlobMatches p.toList s)
        ∧ s.intercalate parts = d.toList := by
    intro d
    constructor
    · rintro ⟨s, hs, rfl⟩
      obtain ⟨p, hp, hps⟩ := subjectMatches_iff.mp hs
      refine ⟨s.toList, ⟨p, hp, (hglob p s (hplain p hp).2.1).mp hps⟩, ?_⟩
      rw [hrenamed, String.toList_ofList]
    · rintro ⟨s, ⟨p, hp, hs⟩, hd⟩
      refine ⟨String.ofList s, subjectMatches_iff.mpr ⟨p, hp, (hglob p _ (hplain p hp).2.1).mpr ?_⟩,
        ?_⟩
      · rwa [String.toList_ofList]
      · rw [hrenamed, String.toList_ofList, hd, String.ofList_toList]
  constructor
  · intro h d
    have hd := h (String.ofList d)
    rw [hleft, hright, String.toList_ofList] at hd
    exact hd
  · intro h d
    rw [hleft, hright]
    exact h d.toList

end

/-! ### A format with two places -/

/-- The glob language by its own matcher. -/
def globText (p s : String) : Bool := (globTokens p.toList).any fun ts => accepts ts s.toList

def escapeText (t : String) : String := String.ofList (globEscape t.toList)

theorem matchesGlobs_globText : MatchesGlobs globText := by
  intro p s _
  simp only [globText, Option.any_eq_true, accepts_iff]
  rfl

theorem escapesLiterally_escapeText : EscapesLiterally escapeText := by
  intro t rest s
  rw [escapeText, String.toList_ofList]
  exact globMatches_globEscape

/-- The subject twice, with a dash between. -/
def twiceFormat : String := "$\x7bsubject\x7d-$\x7bsubject\x7d"

end SchemaRegistry

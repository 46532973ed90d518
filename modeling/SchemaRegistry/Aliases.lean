import SchemaRegistry.Api.Paths
import SchemaRegistry.Indexes
import SchemaRegistry.Names
import SchemaRegistry.UrlCoding

/-!
Aliases in two places. The filter in front of the router replaces a subject that is an alias in the
path; the listing of schemas names under each subject its aliases. Each has its own rule for the
context an alias is in.
-/

namespace SchemaRegistry

open Std SchemaRegistry.Lib SchemaRegistry.Authz

/-- `DELETE /contexts/{ctx}`. -/
def isDeleteContext (method : Method) (path : String) : Bool :=
  method == .delete && (segments path).length == 2
    && "contexts/".toList.isPrefixOf (path.toList.dropWhile (· == '/'))

/-- The alias configured for exactly this subject. -/
def Registry.aliasOf (reg : Registry) (subject : String) : Option String :=
  if reg.snapshot.hasAliases then
    (reg.reader.getConfig (scopeFor (QualifiedSubject.parse subject))).bind ConfigRecord.«alias»
  else none

/-! ### The filter, segment by segment -/

namespace Rewrite

section Segments

variable (aliasOf : String → Option String)

/-- The segment a segment that names a subject is replaced by. -/
def aliased (seg : String) : String :=
  ((replaceAlias aliasOf seg (percentDecode seg)).map encodeSegment).getD seg

/-- The segments of a path after the filter; `named` says whether the first names a subject. -/
def aliasSegments (named : Bool) : List String → List String
  | [] => []
  | seg :: segs =>
      (if named then aliased aliasOf seg else seg)
        :: aliasSegments (seg == "subjects" || seg == "deks") segs

variable {aliasOf}

theorem foldl_aliasSegment (out : String) (named : Bool) (segs : List String) :
    (segs.foldl (aliasSegment aliasOf) (out, named)).1
      = out ++ slashed (aliasSegments aliasOf named segs) := by
  induction segs generalizing out named with
  | nil => simp [aliasSegments, slashed]
  | cons seg segs ih =>
    rw [List.foldl_cons, aliasSegments, slashed_cons]
    refine (ih _ _).trans ?_
    simp only [aliased, String.append_assoc]

theorem aliasFilter_fst {path : String} {segs : List String} (hne : segs ≠ [])
    (hsegs : (rawSegments path).filter (fun s => !s.isEmpty) = segs)
    (pairs : List (String × String)) :
    (aliasFilter aliasOf path pairs).1 = slashed (aliasSegments aliasOf false segs) := by
  obtain ⟨seg, rest, rfl⟩ := List.exists_cons_of_ne_nil hne
  have hout : ((seg :: rest).foldl (aliasSegment aliasOf) ("", false)).1
      = slashed (aliasSegments aliasOf false (seg :: rest)) := by
    rw [foldl_aliasSegment, String.empty_append]
  have hempty : (slashed (aliasSegments aliasOf false (seg :: rest))).isEmpty = false := by
    rw [Bool.eq_false_iff, ne_eq, String.isEmpty_iff, ← String.toList_eq_nil_iff]
    simp [aliasSegments, toList_slashed]
  simp only [aliasFilter, hsegs, hout, hempty]
  rfl

theorem slash_not_mem_encodeSegment (s : String) : '/' ∉ (encodeSegment s).toList :=
  not_mem_escapeText (b := 0x2F) (by decide) rfl (by decide) (by decide) s

theorem slash_not_mem_aliased {seg : String} (h : '/' ∉ seg.toList) :
    '/' ∉ (aliased aliasOf seg).toList := by
  unfold aliased
  cases replaceAlias aliasOf seg (percentDecode seg) with
  | none => exact h
  | some target => exact slash_not_mem_encodeSegment target

theorem slash_not_mem_aliasSegments {named : Bool} {segs : List String}
    (h : ∀ s ∈ segs, '/' ∉ s.toList) : ∀ s ∈ aliasSegments aliasOf named segs, '/' ∉ s.toList := by
  induction segs generalizing named with
  | nil => simp [aliasSegments]
  | cons seg segs ih =>
    obtain ⟨hseg, hsegs⟩ := List.forall_mem_cons.mp h
    refine List.forall_mem_cons.mpr ⟨?_, ih hsegs⟩
    split
    · exact slash_not_mem_aliased hseg
    · exact hseg

end Segments

/-! ### Where a subject is redirected to -/

/-- The subject that `/subjects/{seg}` is about once the filter has run. -/
def redirect (aliasOf : String → Option String) (seg : String) : Option QualifiedSubject :=
  match rawSegments (aliasFilter aliasOf ("/subjects/" ++ seg) []).1 with
  | ["", "subjects", target] => (capturedText target).map QualifiedSubject.parse
  | _ => none

/-- The target of an alias whose subject is written in the context `parent`. -/
def redirectTarget (parent text : String) : QualifiedSubject :=
  let q := QualifiedSubject.parse text
  if q.context == defaultContext && parent != defaultContext then ⟨parent, text⟩ else q

variable {aliasOf : String → Option String} {seg : String}

theorem redirect_eq (hne : seg ≠ "") (hslash : '/' ∉ seg.toList) :
    redirect aliasOf seg = (capturedText (aliased aliasOf seg)).map QualifiedSubject.parse := by
  have hsegs : ∀ s ∈ ["subjects", seg], '/' ∉ s.toList :=
    List.forall_mem_cons.mpr ⟨by decide, List.forall_mem_singleton.mpr hslash⟩
  have hpath : "/subjects/" ++ seg = slashed ["subjects", seg] := by
    rw [← String.toList_inj, toList_slashed]
    simp
  have hkept : (rawSegments ("/subjects/" ++ seg)).filter (fun s => !s.isEmpty)
      = ["subjects", seg] := by
    rw [hpath, rawSegments_slashed hsegs]
    simp [hne]
  have hraw : rawSegments (aliasFilter aliasOf ("/subjects/" ++ seg) []).1
      = "" :: aliasSegments aliasOf false ["subjects", seg] := by
    rw [aliasFilter_fst (by simp) hkept]
    exact rawSegments_slashed (slash_not_mem_aliasSegments hsegs)
  unfold redirect
  rw [hraw]
  rfl

theorem redirect_of_alias (hne : seg ≠ "") (hslash : '/' ∉ seg.toList) {text : String}
    (htext : aliasOf (percentDecode seg) = some text) (hsome : text ≠ "") :
    redirect aliasOf seg = some (QualifiedSubject.parse
      (redirectTarget (QualifiedSubject.parse seg).context text).qualified) := by
  have hreplace : replaceAlias aliasOf seg (percentDecode seg)
      = some (redirectTarget (QualifiedSubject.parse seg).context text).qualified := by
    rw [replaceAlias, if_neg (by simpa using hne), htext]
    simp [hsome, redirectTarget]
  rw [redirect_eq hne hslash, aliased, hreplace, Option.map_some, Option.getD_some,
    capturedText_encodeSegment, Option.map_some]

end Rewrite

/-! ### The two rules -/

theorem length_subject_parse (raw : String) :
    (QualifiedSubject.parse raw).subject.toList.length ≤ raw.toList.length
      ∧ ((QualifiedSubject.parse raw).context ≠ defaultContext →
        (QualifiedSubject.parse raw).subject.toList.length < raw.toList.length) := by
  have hreads := reads_parse raw
  generalize QualifiedSubject.parse raw = q at hreads ⊢
  cases hreads with
  | bare hraw => exact ⟨Nat.le_refl _, fun h => absurd rfl h⟩
  | within hbefore hraw | contextOnly hrest hraw | wildcard hraw =>
    simp only [hraw, String.toList_ofList, String.toList_empty, List.length_append,
      List.length_cons, List.length_nil]
    exact ⟨by omega, fun _ => by omega⟩

/-- A name without a context, printed under one, is read back in it. -/
theorem parse_qualify_of_head?_ne {ctx text : String} (hctx : ContextName ctx)
    (h : text.toList.head? ≠ some ':') : QualifiedSubject.parse (qualify ctx text)
    = ⟨ctx, text⟩ := by
  by_cases hdefault : ctx = defaultContext
  · subst hdefault
    rw [qualify, if_pos rfl, parse_of_head?_ne h]
  · exact parse_qualify hctx hdefault

/-- When the two rules give one target: an alias that starts with a colon names a context of its
own, or stands for a subject that is written without one; any other belongs to a subject whose
context is written out. -/
def AliasAgrees (parent ctx text : String) : Prop :=
  if text.toList.head? = some ':' then
    (QualifiedSubject.parse text).context ≠ defaultContext ∨ parent = defaultContext
  else parent = ctx

instance (parent ctx text : String) : Decidable (AliasAgrees parent ctx text) :=
  inferInstanceAs (Decidable (ite ..))

theorem aliasTargets_agree_iff {parent ctx text : String} (hparent : ContextName parent)
    (hctx : ContextName ctx) :
    QualifiedSubject.parse (Rewrite.redirectTarget parent text).qualified
        = QualifiedSubject.parse (aliasTarget ctx text).qualified
      ↔ AliasAgrees parent ctx text := by
  by_cases hcolon : text.toList.head? = some ':'
  · rw [AliasAgrees, if_pos hcolon, aliasTarget, if_pos hcolon]
    by_cases hstay : (QualifiedSubject.parse text).context = defaultContext ∧
      parent ≠ defaultContext
    · -- the filter keeps the whole text under the parent, the listing has left it
      have htarget : Rewrite.redirectTarget parent text = ⟨parent, text⟩ := by
        simp [Rewrite.redirectTarget, hstay.1, hstay.2]
      rw [htarget, QualifiedSubject.qualified, parse_qualify hparent hstay.2]
      refine iff_of_false (fun heq => ?_) (by tauto)
      have hbare :
          (QualifiedSubject.parse text).qualified = (QualifiedSubject.parse text).subject := by
        rw [QualifiedSubject.qualified, qualify, if_pos hstay.1]
      rw [hbare] at heq
      have hlonger := (length_subject_parse (QualifiedSubject.parse text).subject).2
      rw [← heq] at hlonger
      have hbelow : text.toList.length < (QualifiedSubject.parse text).subject.toList.length :=
        hlonger hstay.2
      have hle := (length_subject_parse text).1
      omega
    · have htarget : Rewrite.redirectTarget parent text = QualifiedSubject.parse text := by
        rw [Rewrite.redirectTarget, if_neg (by simpa using hstay)]
      rw [htarget]
      exact iff_of_true rfl (by tauto)
  · have hparse := parse_of_head?_ne hcolon
    have htarget : Rewrite.redirectTarget parent text = ⟨parent, text⟩ := by
      rw [Rewrite.redirectTarget, hparse]
      by_cases hdefault : parent = defaultContext <;> simp [hdefault]
    rw [AliasAgrees, if_neg hcolon, aliasTarget, if_neg hcolon, hparse, htarget,
      QualifiedSubject.qualified, QualifiedSubject.qualified,
      parse_qualify_of_head?_ne hparent hcolon,
      parse_qualify_of_head?_ne hctx hcolon]
    simp

/-! ### The listing -/

section Listing

variable {r : Reader} {ctx subject text : String} {rec : ConfigRecord}

theorem Reader.mem_subjectConfigs :
    (ctx, subject, rec) ∈ r.subjectConfigs ↔ r.getConfig (.subject ctx subject) = some rec := by
  have hconfig : r.getConfig (.subject ctx subject) = some rec
      ↔ (Scope.subject ctx subject, rec) ∈ r.snap.config.toList :=
    ExtTreeMap.mem_toList_iff_getElem?_eq_some.symm
  rw [hconfig, Reader.subjectConfigs, List.mem_filterMap]
  constructor
  · rintro ⟨⟨scope, rec'⟩, hmem, hscope⟩
    cases scope with
    | subject ctx' subject' =>
      cases hscope
      exact hmem
    | global | context => cases hscope
  · intro hmem
    exact ⟨_, hmem, rfl⟩

/-- The index of aliases has a name under a key. -/
def Indexed (aliases : ExtTreeMap String (List String)) (key name : String) : Prop :=
  ∃ names, aliases[key]? = some names ∧ name ∈ names

theorem Indexed.insert {aliases : ExtTreeMap String (List String)} {key name : String}
    (h : Indexed aliases key name) (key' name' : String) :
    Indexed (aliases.insert key' (aliases.getD key' [] ++ [name'])) key name := by
  obtain ⟨names, hnames, hmem⟩ := h
  by_cases hkey : key' = key
  · subst hkey
    refine ⟨_, ExtTreeMap.getElem?_insert_self, List.mem_append_left _ ?_⟩
    rwa [ExtTreeMap.getD_eq_getD_getElem?, hnames]
  · refine ⟨names, ?_, hmem⟩
    rw [ExtTreeMap.getElem?_insert, if_neg (by simpa using hkey), hnames]

theorem Indexed.noteAlias {aliases : ExtTreeMap String (List String)} {key name : String}
    (h : Indexed aliases key name) (ctxs : List String) (start : String)
    (p : String × String × ConfigRecord) : Indexed (noteAlias ctxs start aliases p) key name := by
  unfold SchemaRegistry.noteAlias
  split
  · exact h
  · split
    · exact h.insert _ _
    · exact h

theorem indexed_noteAlias (htext : rec.«alias» = some text) (hne : text ≠ "") {ctxs : List String}
    {start : String} (hctx : ctx ∈ ctxs) (hstart : start.toList <+: subject.toList)
    (aliases : ExtTreeMap String (List String)) :
    Indexed (noteAlias ctxs start aliases (ctx, subject, rec)) (aliasTarget ctx text).qualified
      (qualify ctx subject) := by
  have hkept : rec.«alias».filter (fun a => !a.isEmpty) = some text := by simp [htext, hne]
  have hasked : (ctxs.contains ctx && start.toList.isPrefixOf subject.toList) = true := by
    simp [hctx, hstart]
  simp only [noteAlias, hkept, hasked, if_true]
  exact ⟨_, ExtTreeMap.getElem?_insert_self, List.mem_append_right _ (List.mem_singleton.mpr rfl)⟩

/-- A subject that is an alias is listed under its target, whatever else is. -/
theorem indexed_aliasIndex (hrec : r.getConfig (.subject ctx subject) = some rec)
    (htext : rec.«alias» = some text) (hne : text ≠ "") {ctxs : List String} {start : String}
    (hctx : ctx ∈ ctxs) (hstart : start.toList <+: subject.toList) :
    Indexed (aliasIndex r ctxs start) (aliasTarget ctx text).qualified (qualify ctx subject) := by
  -- what is in the index stays there, and the config itself puts the subject in
  have hfold : ∀ (configs : List (String × String × ConfigRecord))
      (aliases : ExtTreeMap String (List String)),
      Indexed aliases (aliasTarget ctx text).qualified (qualify ctx subject)
        ∨ (ctx, subject, rec) ∈ configs →
      Indexed (configs.foldl (noteAlias ctxs start) aliases) (aliasTarget ctx text).qualified
        (qualify ctx subject) := by
    intro configs
    induction configs with
    | nil => simp
    | cons p configs ih =>
      intro aliases h
      refine ih _ ?_
      rcases h with h | h
      · exact .inl (h.noteAlias ctxs start p)
      · obtain rfl | h := List.mem_cons.mp h
        · exact .inl (indexed_noteAlias htext hne hctx hstart aliases)
        · exact .inr h
  exact hfold _ _ (.inr (Reader.mem_subjectConfigs.mpr hrec))

end Listing

/-! ### Both together -/

/-- The alias that the filter reads is the one in the subject's config. -/
theorem Registry.aliasOf_of_getConfig {srv : Server} {reg : Registry} (h : reg.Reachable srv)
    {name ctx subject text : String} {rec : ConfigRecord}
    (hname : QualifiedSubject.parse name = ⟨ctx, subject⟩) (hsubject : subject ≠ "")
    (hrec : reg.reader.getConfig (.subject ctx subject) = some rec)
    (htext : rec.«alias» = some text) (hne : text ≠ "") : reg.aliasOf name = some text := by
  have hflag : reg.snapshot.hasAliases = true :=
    flagged_of_reachable h _ rec hrec (by simp [ConfigRecord.isAlias, htext, hne])
  have hscope : scopeFor ⟨ctx, subject⟩ = .subject ctx subject := by
    simp [scopeFor, QualifiedSubject.isContextOnly, hsubject]
  rw [Registry.aliasOf, if_pos hflag, hname, hscope, hrec]
  exact htext

/-- A subject outside the default context whose alias is in it. -/
def homeHistory : List Request :=
  [plainRequest (.setConfig (some ":.eu:orders") { «alias» := some ":.:orders" })]

/-- A subject whose alias names its context. -/
def abroadHistory : List Request :=
  [plainRequest (.setConfig (some "orders") { «alias» := some ":.eu:orders" })]

end SchemaRegistry

import SchemaRegistry.Api.Metrics
import SchemaRegistry.Api.Paths
import SchemaRegistry.Authorization
import SchemaRegistry.Printing
import Mathlib.Data.List.Dedup
import Mathlib.Data.List.ProdSigma
import Mathlib.Data.List.Sections

/-!
The labels clients can make. A route label should be `/other` or the shape of a route, each
segment a star or the route's own, so that the labels kept are bounded by the route table.
The shape hides the segments that stand where a name stands and shows the others as the client
wrote them; a label is of the table exactly when what is shown is (`routeShape_mem_iff`), and
only then is there a bound on what the requests keep in memory.
-/

namespace SchemaRegistry.Metrics

open Lib SchemaRegistry.Authz

/-! ### Shapes -/

/-- What may stand for a route's segment in a shape. -/
def segShapes : Seg → List String
  | .lit s => ["*", s]
  | .capture | .tail => ["*"]

/-- The labels the route table accounts for. -/
def servedShapes : List String :=
  "/other" :: routes.flatMap fun r => (r.path.map segShapes).sections.map slashed

theorem utf8ByteSize_slashed (xs : List String) :
    (slashed xs).utf8ByteSize = (xs.map fun x => 1 + x.utf8ByteSize).sum := by
  induction xs with
  | nil => rfl
  | cons x xs ih =>
    have hslash : "/".utf8ByteSize = 1 := rfl
    simp [slashed_cons, ih, String.utf8ByteSize_append, hslash]

/-! ### What a path shows -/

/-- The segments of a path, each with the one before it. -/
def withPrevious (after : Option String) (segs : List String) : List (Option String × String) :=
  (after :: segs.map some).zip segs

/-- A segment as the label shows it. -/
def shown (p : Option String × String) : String := if isName p.1 p.2 then "*" else p.2

theorem foldl_pushSegment (out : String) (after : Option String) (segs : List String) :
    (segs.foldl pushSegment (out, after)).1
      = out ++ slashed ((withPrevious after segs).map shown) := by
  induction segs generalizing out after with
  | nil => simp [withPrevious, slashed]
  | cons seg segs ih =>
    rw [List.foldl_cons, pushSegment, ih]
    simp [withPrevious, slashed_cons, shown, String.append_assoc]

/-- What a path shows, as a text. -/
def labelText (path : String) : String := slashed ((withPrevious none (segments path)).map shown)

/-- A path whose label says nothing of it: its first segment is no root of the table, or what
it shows is too long or holds a mark. -/
def Silent (path : String) : Prop :=
  (segments path).head?.getD "" ∉ knownRoots ∨
  64 < ((withPrevious none (segments path)).map
    fun p => if isName p.1 p.2 then 2 else 1 + p.2.utf8ByteSize).sum ∨
  ∃ p ∈ withPrevious none (segments path),
    isName p.1 p.2 = false ∧ ('"' ∈ p.2.toList ∨ '\\' ∈ p.2.toList)

/-- A path that shows what some route does: every segment stands where a name stands, is a star
or is the route's own. -/
def FitsRoute (path : String) : Prop :=
  ∃ r ∈ routes, List.Forall₂ (fun p s => isName p.1 p.2 = true ∨ p.2 = "*" ∨ s = .lit p.2)
    (withPrevious none (segments path)) r.path

theorem mem_slashed {c : Char} (hc : c ≠ '/') {xs : List String} :
    c ∈ (slashed xs).toList ↔ ∃ x ∈ xs, c ∈ x.toList := by
  simp [toList_slashed, hc]

theorem mem_shown {c : Char} (hc : c ≠ '*') {p : Option String × String} :
    c ∈ (shown p).toList ↔ isName p.1 p.2 = false ∧ c ∈ p.2.toList := by
  unfold shown
  split
  · next h => simp [h, hc]
  · next h => simp [h]

theorem mem_labelText {c : Char} (hstar : c ≠ '*') (hslash : c ≠ '/') {path : String} :
    c ∈ (labelText path).toList ↔
      ∃ p ∈ withPrevious none (segments path), isName p.1 p.2 = false ∧ c ∈ p.2.toList := by
  rw [labelText, mem_slashed hslash]
  simp only [List.mem_map, exists_exists_and_eq_and, mem_shown hstar]

theorem utf8ByteSize_labelText (path : String) :
    (labelText path).utf8ByteSize = ((withPrevious none (segments path)).map
      fun p => if isName p.1 p.2 then 2 else 1 + p.2.utf8ByteSize).sum := by
  rw [labelText, utf8ByteSize_slashed, List.map_map]
  refine congrArg List.sum (List.map_congr_left fun p _ => ?_)
  rw [Function.comp_apply, shown]
  split <;> rfl

theorem segments_ne_nil (path : String) : segments path ≠ [] := by
  simp [segments]

theorem labelText_ne_empty (path : String) : (labelText path).isEmpty = false := by
  obtain ⟨seg, segs, hsegs⟩ := List.exists_cons_of_ne_nil (segments_ne_nil path)
  rw [Bool.eq_false_iff, ne_eq, String.isEmpty_iff, ← String.toList_eq_nil_iff, labelText, hsegs]
  simp [withPrevious, toList_slashed]

/-- The label is `/other` for the silent paths and what the path shows for all others. -/
theorem routeShape_eq (path : String) [Decidable (Silent path)] :
    routeShape path = if Silent path then "/other" else labelText path := by
  have hout : ((segments path).foldl pushSegment ("", none)).1 = labelText path := by
    rw [foldl_pushSegment, String.empty_append, labelText]
  have hsilent : Silent path ↔ (segments path).head?.getD "" ∉ knownRoots ∨
      (64 < (labelText path).utf8ByteSize ∨ '"' ∈ (labelText path).toList) ∨
        '\\' ∈ (labelText path).toList := by
    rw [utf8ByteSize_labelText, mem_labelText (by decide) (by decide),
      mem_labelText (by decide) (by decide), Silent, or_assoc]
    refine or_congr_right (or_congr_right ?_)
    simp only [← exists_or, and_or_left]
  simp only [routeShape, hout, labelText_ne_empty, hsilent]
  by_cases hroot : (segments path).head?.getD "" ∈ knownRoots
  · simp [hroot]
  · simp [hroot]

/-! ### Labels of the table -/

theorem slash_not_mem_shapes : ∀ r ∈ routes, ∀ s ∈ r.path, ∀ x ∈ segShapes s, '/' ∉ x.toList := by
  decide

theorem slash_not_mem_section {ps : List Seg} {xs : List String}
    (hps : ∀ s ∈ ps, ∀ x ∈ segShapes s, '/' ∉ x.toList) (h : xs ∈ (ps.map segShapes).sections) :
    ∀ x ∈ xs, '/' ∉ x.toList := by
  rw [List.mem_sections, List.forall₂_map_right_iff] at h
  induction h with
  | nil => simp
  | cons hx _ ih =>
    refine List.forall_mem_cons.mpr ⟨hps _ List.mem_cons_self _ hx, ih fun s hs => ?_⟩
    exact hps s (List.mem_cons_of_mem _ hs)

theorem slash_not_mem_shown {path : String} :
    ∀ x ∈ (withPrevious none (segments path)).map shown, '/' ∉ x.toList := by
  intro x hx
  obtain ⟨p, hp, rfl⟩ := List.mem_map.mp hx
  rw [mem_shown (by decide)]
  rintro ⟨-, hslash⟩
  obtain ⟨l, hl, hseg⟩ := List.mem_map.mp (List.of_mem_zip hp).2
  rw [← hseg, String.toList_ofList] at hslash
  exact not_mem_of_mem_splitOn hl hslash

theorem shown_mem_segShapes {p : Option String × String} {s : Seg} :
    shown p ∈ segShapes s ↔ isName p.1 p.2 = true ∨ p.2 = "*" ∨ s = .lit p.2 := by
  unfold shown
  split
  · next h => cases s <;> simp [segShapes, h]
  · next h => cases s <;> simp [segShapes, h, eq_comm]

/-- What a path shows is the shape of a route exactly when the path fits one. -/
theorem labelText_mem_iff (path : String) :
    (∃ r ∈ routes, labelText path ∈ (r.path.map segShapes).sections.map slashed) ↔
      FitsRoute path := by
  refine exists_congr fun r => and_congr_right fun hr => ?_
  have hmem : labelText path ∈ (r.path.map segShapes).sections.map slashed ↔
      (withPrevious none (segments path)).map shown ∈ (r.path.map segShapes).sections := by
    rw [List.mem_map]
    constructor
    · rintro ⟨xs, hxs, heq⟩
      have hslash := slash_not_mem_section (slash_not_mem_shapes r hr) hxs
      exact slashed_inj hslash slash_not_mem_shown heq ▸ hxs
    · intro h
      exact ⟨_, h, rfl⟩
  rw [hmem, List.mem_sections, List.forall₂_map_left_iff, List.forall₂_map_right_iff]
  simp only [shown_mem_segShapes]

/-- The root segment is shown as it is, and none is called `other`. -/
theorem labelText_ne_other {path : String} (h : ¬ Silent path) : labelText path ≠ "/other" := by
  intro heq
  have hshown : (withPrevious none (segments path)).map shown = ["other"] :=
    slashed_inj slash_not_mem_shown (by decide) heq
  obtain ⟨seg, segs, hsegs⟩ := List.exists_cons_of_ne_nil (segments_ne_nil path)
  have hseg : seg = "other" := by
    simpa [hsegs, withPrevious, shown, isName] using congrArg List.head? hshown
  have hroot : "other" ∉ knownRoots := by decide
  exact h (.inl (by simpa [hsegs, hseg] using hroot))

/-- A label is one of the table exactly when its path is silent or fits a route. -/
theorem routeShape_mem_iff (path : String) :
    routeShape path ∈ servedShapes ↔ Silent path ∨ FitsRoute path := by
  classical
  rw [routeShape_eq, servedShapes, List.mem_cons, List.mem_flatMap]
  by_cases h : Silent path
  · simp [h]
  · rw [if_neg h, labelText_mem_iff]
    simp [h, labelText_ne_other h]

/-! ### What is kept -/

def methodLabels : List String := ["GET", "POST", "PUT", "DELETE", "HEAD", "OPTIONS", "other"]

theorem methodLabel_mem (method : String) : methodLabel method ∈ methodLabels := by
  unfold methodLabel
  split <;> decide

def Exchange.histogramKey (x : Exchange) : String :=
  requestLabels (methodLabel x.method) (routeShape x.path) x.container

def Exchange.counterKey (x : Exchange) : String × String :=
  ("sr_requests_total",
    statusLabels (methodLabel x.method) (routeShape x.path) x.container x.status)

/-- One request adds its own keys and no others. -/
theorem keys_accessLog (series : Series) (x : Exchange) :
    (accessLog series x).histograms.map Prod.fst
        = addKeys (series.histograms.map Prod.fst) [x.histogramKey] ∧
      (accessLog series x).counters.map Prod.fst
        = addKeys (series.counters.map Prod.fst) [x.counterKey] := by
  constructor <;> exact map_key_upsert

/-- A run keeps the keys of its requests, each once. -/
theorem keys_run (series : Series) (xs : List Exchange) :
    (xs.foldl accessLog series).histograms.map Prod.fst
        = addKeys (series.histograms.map Prod.fst) (xs.map Exchange.histogramKey) ∧
      (xs.foldl accessLog series).counters.map Prod.fst
        = addKeys (series.counters.map Prod.fst) (xs.map Exchange.counterKey) := by
  induction xs generalizing series with
  | nil => exact ⟨rfl, rfl⟩
  | cons x xs ih =>
    obtain ⟨hh, hc⟩ := ih (accessLog series x)
    obtain ⟨hh', hc'⟩ := keys_accessLog series x
    rw [List.foldl_cons, hh, hc, hh', hc', ← addKeys_append, ← addKeys_append]
    exact ⟨rfl, rfl⟩

/-- The containers and the statuses of a run. -/
def containersOf (xs : List Exchange) : List String := (xs.map Exchange.container).dedup

def statusesOf (xs : List Exchange) : List UInt16 := (xs.map Exchange.status).dedup

/-- What a run with labels of the table keeps. -/
theorem kept_le {xs : List Exchange} (hshape : ∀ x ∈ xs, routeShape x.path ∈ servedShapes) :
    (xs.foldl accessLog {}).histograms.length
        ≤ methodLabels.length * (servedShapes.length * (containersOf xs).length) ∧
      (xs.foldl accessLog {}).counters.length ≤ methodLabels.length *
        (servedShapes.length * ((containersOf xs).length * (statusesOf xs).length)) := by
  have hcontainer : ∀ x ∈ xs, x.container ∈ containersOf xs :=
    fun x hx => List.mem_dedup.mpr (List.mem_map_of_mem hx)
  have hstatus : ∀ x ∈ xs, x.status ∈ statusesOf xs :=
    fun x hx => List.mem_dedup.mpr (List.mem_map_of_mem hx)
  obtain ⟨hh, hc⟩ := keys_run {} xs
  constructor
  · have hsub : xs.map Exchange.histogramKey
        ⊆ (methodLabels ×ˢ servedShapes ×ˢ containersOf xs).map fun p => requestLabels p.1
          p.2.1 p.2.2 := by
      intro k hk
      obtain ⟨x, hx, rfl⟩ := List.mem_map.mp hk
      refine List.mem_map.mpr ⟨(methodLabel x.method, routeShape x.path, x.container), ?_, rfl⟩
      simp only [List.mem_product]
      exact ⟨methodLabel_mem x.method, hshape x hx, hcontainer x hx⟩
    have hle := length_addKeys_le hsub
    rw [List.length_map, List.length_product, List.length_product] at hle
    rwa [← List.length_map, hh]
  · have hsub : xs.map Exchange.counterKey
        ⊆ (methodLabels ×ˢ servedShapes ×ˢ containersOf xs ×ˢ statusesOf xs).map fun p =>
          ("sr_requests_total", statusLabels p.1 p.2.1 p.2.2.1 p.2.2.2) := by
      intro k hk
      obtain ⟨x, hx, rfl⟩ := List.mem_map.mp hk
      refine List.mem_map.mpr
        ⟨(methodLabel x.method, routeShape x.path, x.container, x.status), ?_, rfl⟩
      simp only [List.mem_product]
      exact ⟨methodLabel_mem x.method, hshape x hx, hcontainer x hx, hstatus x hx⟩
    have hle := length_addKeys_le hsub
    rw [List.length_map, List.length_product, List.length_product, List.length_product] at hle
    rwa [← List.length_map, hc]

/-- The route labels of a run are those of the table exactly when every path of the run is
silent or fits a route; then the table bounds the labels, and with the containers and the
statuses the histograms and counters kept. -/
theorem route_labels_bounded_iff (xs : List Exchange) :
    ((∀ x ∈ xs, routeShape x.path ∈ servedShapes) ↔ ∀ x ∈ xs, Silent x.path ∨ FitsRoute x.path) ∧
    ((∀ x ∈ xs, Silent x.path ∨ FitsRoute x.path) →
      (xs.map fun x => routeShape x.path).dedup.length ≤ servedShapes.length ∧
      (xs.foldl accessLog {}).histograms.length
        ≤ methodLabels.length * (servedShapes.length * (containersOf xs).length) ∧
      (xs.foldl accessLog {}).counters.length ≤ methodLabels.length *
        (servedShapes.length * ((containersOf xs).length * (statusesOf xs).length))) := by
  have hiff : (∀ x ∈ xs, routeShape x.path ∈ servedShapes) ↔
      ∀ x ∈ xs, Silent x.path ∨ FitsRoute x.path :=
    forall₂_congr fun x _ => routeShape_mem_iff x.path
  refine ⟨hiff, fun h => ?_⟩
  have hshape := hiff.mpr h
  have hsub : (xs.map fun x => routeShape x.path).dedup ⊆ servedShapes := by
    intro label hlabel
    obtain ⟨x, hx, rfl⟩ := List.mem_map.mp (List.mem_dedup.mp hlabel)
    exact hshape x hx
  have hle := (List.subperm_of_subset (List.nodup_dedup _) hsub).length_le
  exact ⟨hle, kept_le hshape⟩

/-- A version read and a path of no route, one container. -/
theorem route_labels_bounded_twoPaths :
    let xs : List Exchange :=
      [⟨"GET", "/subjects/orders-value/versions/3", "default", 200, 180⟩,
       ⟨"BREW", "/pot-1/brew", "default", 404, 20⟩]
    (∀ x ∈ xs, routeShape x.path ∈ servedShapes) ∧
      (xs.map fun x => routeShape x.path).dedup.length ≤ servedShapes.length := by
  intro xs
  have hmem : ∀ x ∈ xs, routeShape x.path ∈ servedShapes := by decide
  have hfits : ∀ x ∈ xs, Silent x.path ∨ FitsRoute x.path :=
    fun x hx => (routeShape_mem_iff x.path).mp (hmem x hx)
  obtain ⟨hiff, hbound⟩ := route_labels_bounded_iff xs
  exact ⟨hiff.mpr hfits, (hbound hfits).1⟩

/-! ### What a client can add -/

/-- Any short word under `/schemas` is a label of its own. -/
theorem routeShape_schemas {w : String} (hne : w ≠ "") (hslash : '/' ∉ w.toList)
    (hquote : '"' ∉ w.toList) (hback : '\\' ∉ w.toList) (hsize : w.utf8ByteSize ≤ 55) :
    routeShape ("/schemas/" ++ w) = "/schemas/" ++ w := by
  classical
  have hsegs : segments ("/schemas/" ++ w) = ["schemas", w] := by
    refine segments_of_join (by simp [List.intercalate_cons_cons]) ?_ (by decide)
      (by simpa using hne)
    simpa using hslash
  have hprev : withPrevious none ["schemas", w] = [(none, "schemas"), (some "schemas", w)] := rfl
  have hname : isName (some "schemas") w = false := by simp [isName, namers]
  have hroot : isName none "schemas" = false := by decide
  have hsilent : ¬ Silent ("/schemas/" ++ w) := by
    rintro (h | h | ⟨p, hp, -, hmark⟩)
    · rw [hsegs] at h
      exact h (by simp [knownRoots])
    · have hword : "schemas".utf8ByteSize = 7 := rfl
      simp only [hsegs, hprev, List.map_cons, List.map_nil, hroot, hname, hword, List.sum_cons,
        List.sum_nil, Bool.false_eq_true, if_false] at h
      omega
    · rw [hsegs, hprev] at hp
      rcases List.mem_cons.mp hp with rfl | hp
      · exact absurd hmark (by decide)
      · rw [List.mem_singleton.mp hp] at hmark
        exact hmark.elim hquote hback
  rw [routeShape_eq, if_neg hsilent, labelText, hsegs, hprev]
  simp [shown, hroot, hname, slashed]

/-- A request for a schema that the router does not serve. -/
def numbered (n : Nat) : Exchange := ⟨"GET", "/schemas/" ++ n.repr, "default", 404, 20⟩

theorem routeShape_numbered {n : Nat} (h : n < 230) :
    routeShape (numbered n).path = (numbered n).path := by
  have hsize : ∀ n < 230, n.repr.utf8ByteSize ≤ 55 := by decide +kernel
  have hdigit : ∀ {c : Char}, c ∈ n.repr.toList → c.isDigit = true := by
    intro c hc
    rw [Nat.repr_eq_ofList_toDigits, String.toList_ofList] at hc
    exact Nat.isDigit_of_mem_toDigits (by decide) (by decide) hc
  have hnot : ∀ {c : Char}, c.isDigit = false → c ∉ n.repr.toList := by
    intro c hc hmem
    rw [hdigit hmem] at hc
    cases hc
  exact routeShape_schemas Nat.repr_ne_empty (hnot rfl) (hnot rfl) (hnot rfl) (hsize n h)

/-- Each of these requests adds a label. -/
theorem length_labels_numbered {k : Nat} (h : k ≤ 230) :
    (((List.range k).map numbered).map fun x => routeShape x.path).dedup.length = k := by
  have hlabels : ((List.range k).map numbered).map (fun x => routeShape x.path)
      = (List.range k).map fun n => (numbered n).path := by
    rw [List.map_map]
    refine List.map_congr_left fun n hn => ?_
    have hlt := List.mem_range.mp hn
    rw [Function.comp_apply, routeShape_numbered (by omega)]
  have hnodup : ((List.range k).map fun n => (numbered n).path).Nodup := by
    refine List.nodup_range.map fun m n h => Json.natRepr_inj ?_
    simpa [numbered] using h
  rw [hlabels, hnodup.dedup, List.length_map, List.length_range]

/-- `/schemas/x` reaches no handler and is a label all the same, one that no route has; more
labels than the table has shapes come from requests of this kind. -/
theorem unserved_paths_labelled :
    dispatch .get "/schemas/x" = none ∧ routeShape "/schemas/x" = "/schemas/x" ∧
      routeShape "/schemas/x" ∉ servedShapes ∧
      ∃ xs : List Exchange,
        servedShapes.length < (xs.map fun x => routeShape x.path).dedup.length := by
  refine ⟨by decide, by decide, by decide, (List.range 230).map numbered, ?_⟩
  rw [length_labels_numbered (Nat.le_refl 230)]
  decide +kernel

end SchemaRegistry.Metrics

import SchemaRegistry.Aliases

/-!
Two URLs for one subject: `/contexts/{ctx}/subjects/{s}/...` and `/subjects/:.ctx:{s}/...`. The
first is rewritten into the second by a scan that looks for keywords in every segment, so the two
part where the subject or what follows it is spelled like one.
-/

namespace SchemaRegistry.Rewrite

open Lib SchemaRegistry.Authz

/-! ### The scan behind the first subject -/

/-- The segment after this one is taken for a subject. -/
def namesNext (seg : String) : Bool := seg == "subjects" || seg == "deks"

/-- A segment as the scan writes it. -/
def rewritten (named : Bool) (ctx x : String) : Except String String :=
  if named && !qualified x then (normalizeContext ctx).map (· ++ x) else .ok x

/-- The segments the scan writes behind `subjects`, and the context it ends in; `named` says whether
the first is taken for a subject. -/
def scanned : Bool → String → List String → Except String (List String × String)
  | _, ctx, [] => .ok ([], ctx)
  | named, ctx, x :: l =>
      if x = "contexts" then
        match l with
        | [] => .ok (["contexts"], ctx)
        | ctx' :: l => scanned named ctx' l
      else
        rewritten named ctx x >>= fun m =>
          (scanned (namesNext x) ctx l).map fun p => (m :: p.1, p.2)

/-- Segments, each with a slash behind it. -/
def ended (ms : List String) : String := String.join (ms.map (· ++ "/"))

theorem ended_cons (m : String) (ms : List String) : ended (m :: ms) = m ++ "/" ++ ended ms := by
  simp [ended, String.join_cons]

theorem scanned_cons {x : String} (hx : x ≠ "contexts") (named : Bool) (ctx : String)
    (l : List String) :
    scanned named ctx (x :: l) = rewritten named ctx x >>= fun m =>
      (scanned (namesNext x) ctx l).map fun p => (m :: p.1, p.2) := by
  cases l <;> rw [scanned.eq_def] <;> simp only [if_neg hx]

theorem scanSegment_of_ne {x : String} (hx : x ≠ "contexts") (named : Bool) (ctx out : String) :
    scanSegment ⟨false, ctx, false, named, out, false⟩ x = (rewritten named ctx x).map fun m =>
        ⟨false, ctx, false, namesNext x, out ++ m ++ "/", false⟩ := by
  rw [scanSegment, if_neg (by simp), if_neg hx]
  simp only [rewritten, Bool.false_and, Bool.or_false, namesNext]
  split
  · cases normalizeContext ctx <;> rfl
  · rfl

theorem foldlM_scanSegment (named : Bool) (ctx out : String) (l : List String) :
    l.foldlM scanSegment ⟨false, ctx, false, named, out, false⟩ >>= scanEnd
      = (scanned named ctx l).map fun p => (out ++ ended p.1, p.2) := by
  induction named, ctx, l using scanned.induct generalizing out with
  | case1 named ctx =>
    show Except.ok (out, ctx) = .ok (out ++ ended [], ctx)
    simp [ended, String.join]
  | case2 named ctx =>
    show Except.ok (out ++ "contexts/", ctx) = .ok (out ++ ended ["contexts"], ctx)
    rw [ended_cons]
    simp [ended, String.join]
  | case3 named ctx ctx' l ih =>
    rw [scanned, if_pos rfl]
    exact ih out
  | case4 named ctx x l hx ih =>
    rw [scanned_cons hx, List.foldlM_cons, scanSegment_of_ne hx]
    cases rewritten named ctx x with
    | error e => rfl
    | ok m =>
      refine (ih (out ++ m ++ "/")).trans ?_
      cases scanned (namesNext x) ctx l with
      | error e => rfl
      | ok p =>
        show Except.ok (out ++ m ++ "/" ++ ended p.1, p.2) = .ok (out ++ ended (m :: p.1), p.2)
        rw [ended_cons]
        simp only [String.append_assoc]

/-! ### When it leaves the segments alone -/

/-- No segment but the last is `contexts`. -/
def NoInnerContexts : List String → Prop
  | x :: y :: l => x ≠ "contexts" ∧ NoInnerContexts (y :: l)
  | _ => True

/-- What follows `subjects` or `deks` has a context of its own. -/
def KeepsNames : List String → Prop
  | x :: y :: l =>
      (namesNext x = true → qualified y = true ∨ y = "contexts") ∧ KeepsNames (y :: l)
  | _ => True

/-- The segments with the context in front of what is taken for a subject. -/
def prefixed (nc : String) : Bool → List String → List String
  | _, [] => []
  | named, x :: l =>
      (if named && !qualified x && x != "contexts" then nc ++ x else x)
        :: prefixed nc (namesNext x) l

theorem scanned_of_noInner {ctx nc : String} (hnc : normalizeContext ctx = .ok nc) {named : Bool}
    {l : List String} (h : NoInnerContexts l) :
    scanned named ctx l = .ok (prefixed nc named l, ctx) := by
  induction l generalizing named with
  | nil => rfl
  | cons x l ih =>
    cases l with
    | nil =>
      by_cases hx : x = "contexts"
      · subst hx
        simp [scanned, prefixed]
      · rw [scanned_cons hx]
        cases hq : named && !qualified x <;> simp [rewritten, prefixed, hq, hnc, hx, scanned,
          Except.map]
    | cons y l =>
      rw [scanned_cons h.1, ih h.2]
      cases hq : named && !qualified x <;> simp [rewritten, prefixed, hq, hnc, h.1, Except.map]

/-- A `contexts` that is not last costs segments. -/
theorem length_scanned {named : Bool} {ctx : String} {l ms : List String} {ctx' : String}
    (h : scanned named ctx l = .ok (ms, ctx')) :
    ms.length ≤ l.length ∧ (ms.length = l.length → NoInnerContexts l) := by
  induction named, ctx, l using scanned.induct generalizing ms ctx' with
  | case1 named ctx =>
    cases h
    exact ⟨Nat.le_refl _, fun _ => trivial⟩
  | case2 named ctx =>
    rw [scanned, if_pos rfl] at h
    cases h
    exact ⟨Nat.le_refl _, fun _ => trivial⟩
  | case3 named ctx next l ih =>
    rw [scanned, if_pos rfl] at h
    have hle := (ih h).1
    simp only [List.length_cons]
    exact ⟨by omega, fun heq => by omega⟩
  | case4 named ctx x l hx ih =>
    rw [scanned_cons hx] at h
    obtain ⟨m, -, hrest⟩ := bind_eq_ok.mp h
    cases hp : scanned (namesNext x) ctx l with
    | error e => rw [hp] at hrest; cases hrest
    | ok p =>
      rw [hp] at hrest
      cases hrest
      obtain ⟨hle, hinner⟩ := ih hp
      refine ⟨by simpa using hle, fun heq => ?_⟩
      have hl := hinner (by simpa using heq)
      cases l with
      | nil => trivial
      | cons y l => exact ⟨hx, hl⟩

theorem prefixed_empty (named : Bool) (l : List String) : prefixed "" named l = l := by
  induction l generalizing named with
  | nil => rfl
  | cons x l ih => simp [prefixed, ih]

theorem append_left_ne {nc x : String} (h : nc ≠ "") : nc ++ x ≠ x := by
  intro heq
  have hlen := congrArg (fun s => s.toList.length) heq
  simp only [String.toList_append, List.length_append, Nat.add_eq_right, List.length_eq_zero_iff,
    String.toList_eq_nil_iff] at hlen
  exact h hlen

/-- A context that is written shows wherever a name is expected. -/
theorem prefixed_eq_self_iff {nc : String} (hnc : nc ≠ "") (x : String) (l : List String) :
    prefixed nc (namesNext x) l = l ↔ KeepsNames (x :: l) := by
  induction l generalizing x with
  | nil => exact iff_of_true rfl trivial
  | cons y l ih =>
    rw [prefixed, List.cons.injEq, ih y, KeepsNames]
    refine and_congr_left fun _ => ?_
    by_cases hx : namesNext x = true
    · by_cases hy : qualified y = true ∨ y = "contexts"
      · rcases hy with hy | hy <;> simp [hx, hy]
      · rw [not_or] at hy
        simp [hx, hy.1, hy.2, append_left_ne hnc]
    · simp [hx]

/-! ### Contexts and subjects in a URL -/

/-- A context as a path names it, and its canonical name. -/
structure NamesContext (c name : String) : Prop where
  valid : SchemaRegistry.normalizeContext c = some name
  ne_empty : c ≠ ""
  ne_wildcard : c ≠ wildcardContext

/-- The context as it stands in front of a subject. -/
def contextPart (name : String) : String := if name = defaultContext then "" else ":" ++ name ++ ":"

/-- What the name of a context is made of. -/
def contextChar (c : Char) : Bool := isAsciiAlphanumeric c || c == '.' || c == '-' || c == '_'

theorem ne_of_contextChar {c d : Char} (hd : contextChar d = false) (hc : contextChar c = true) :
    c ≠ d := by
  rintro rfl
  rw [hd] at hc
  cases hc

theorem plainInQuery_of_contextChar {c : Char} (h : contextChar c = true) :
    c.val.toNat < 128 ∧ plainInQuery c.val.toUInt8 = true := by
  have hsmall : c.val.toNat < 128 := by
    simp only [contextChar, isAsciiAlphanumeric, Bool.or_eq_true, Bool.and_eq_true,
      decide_eq_true_eq, beq_iff_eq, Char.le_def, UInt32.le_iff_toNat_le] at h
    rcases h with ((((⟨-, h⟩ | ⟨-, h⟩) | ⟨-, h⟩) | rfl) | rfl) | rfl
    · exact Nat.lt_of_le_of_lt h (by decide)
    · exact Nat.lt_of_le_of_lt h (by decide)
    · exact Nat.lt_of_le_of_lt h (by decide)
    · decide
    · decide
    · decide
  have hall : ∀ n < 128, contextChar (Char.ofNat n) = true →
      plainInQuery (Char.ofNat n).val.toUInt8 = true := by decide
  have hplain := hall c.val.toNat hsmall
  rw [show Char.ofNat c.val.toNat = c from Char.ofNat_toNat c] at hplain
  exact ⟨hsmall, hplain h⟩

/-- The default context, or a name of letters, digits and a few marks. -/
theorem NamesContext.cases {c name : String} (h : NamesContext c name) :
    (c = defaultContext ∧ name = defaultContext) ∨
      name = (if c.toList.head? = some '.' then c else "." ++ c) ∧ name ≠ defaultContext ∧
        ∀ x ∈ c.toList, contextChar x = true := by
  have hvalid := h.valid
  unfold SchemaRegistry.normalizeContext at hvalid
  split at hvalid
  · next hdefault =>
      cases hvalid
      rcases Bool.or_eq_true_iff.mp hdefault with hempty | hdot
      · exact absurd (String.isEmpty_iff.mp hempty) h.ne_empty
      · exact .inl ⟨beq_iff_eq.mp hdot, rfl⟩
  · rw [if_neg (by simpa using h.ne_wildcard)] at hvalid
    simp only [Option.ite_none_right_eq_some, Option.some.injEq, Bool.and_eq_true,
      decide_eq_true_eq, List.all_eq_true] at hvalid
    obtain ⟨⟨⟨hlong, -⟩, hall⟩, rfl⟩ := hvalid
    refine .inr ⟨rfl, fun heq => ?_, fun x hx => ?_⟩
    · rw [heq] at hlong
      exact absurd hlong (by decide)
    · by_cases hdot : c.toList.head? = some '.'
      · rw [if_pos hdot] at hall
        obtain ⟨rest, hrest⟩ := List.head?_eq_some_iff.mp hdot
        rw [hrest] at hx hall
        rcases List.mem_cons.mp hx with rfl | hx
        · decide
        · exact hall x hx
      · rw [if_neg hdot] at hall
        exact hall x (by simpa using hx)

theorem NamesContext.slash_not_mem {c name : String} (h : NamesContext c name) :
    '/' ∉ c.toList := by
  rcases h.cases with ⟨rfl, -⟩ | ⟨-, -, hall⟩
  · decide
  · exact fun hmem => ne_of_contextChar (by decide) (hall _ hmem) rfl

theorem NamesContext.slash_not_mem_name {c name : String} (h : NamesContext c name) :
    '/' ∉ name.toList := by
  have hc := h.slash_not_mem
  rcases h.cases with ⟨-, rfl⟩ | ⟨rfl, -, -⟩
  · decide
  · split <;> simp [hc]

theorem stripColons_of_not_mem {l : List Char} (h : ':' ∉ l) : stripColons l = l := by
  have hhead : l.head? ≠ some ':' := fun hh => h (List.mem_of_head? hh)
  have hlast : l.getLast? ≠ some ':' := fun hh => h (List.mem_of_getLast? hh)
  simp only [stripColons, if_neg hhead, if_neg hlast]

theorem NamesContext.normalizeContext {c name : String} (h : NamesContext c name) :
    normalizeContext c = .ok (contextPart name) := by
  rcases h.cases with ⟨rfl, rfl⟩ | ⟨hname, hne, hall⟩
  · rfl
  · have hcolon : ':' ∉ c.toList := fun hmem => ne_of_contextChar (by decide) (hall _ hmem) rfl
    have hfull : (if c.toList.head? = some '.' then String.ofList c.toList
        else "." ++ String.ofList c.toList) = name := by
      rw [hname, String.ofList_toList]
    simp only [Rewrite.normalizeContext, stripColons_of_not_mem hcolon,
      List.contains_iff_mem, hcolon,
      if_false, hfull, contextPart]

theorem unescape_colon (plus : UInt8) (seg : String) :
    unescape plus (utf8 (":.:" ++ seg)) = utf8 ":.:" ++ unescape plus (utf8 seg) := by
  have hbytes : utf8 ":.:" = [0x3A, 0x2E, 0x3A] := by decide
  rw [utf8_append, hbytes]
  simp only [List.cons_append, List.nil_append]
  rw [unescape_cons (by decide), unescape_cons (by decide), unescape_cons (by decide)]
  rfl

section Decoding

variable {seg s : String}

theorem capturedText_colon (h : capturedText seg = some s) :
    capturedText (":.:" ++ seg) = some (":.:" ++ s) := by
  rw [capturedText_eq_some] at h ⊢
  rw [unescape_colon, h, utf8_append]

/-- What is read for decisions, byte by byte. -/
theorem utf8_percentDecode (h : capturedText seg = some s) :
    utf8 (percentDecode seg) = unescape space (utf8 seg) := by
  have hread := unescape_forall₂ space (utf8 seg)
  rw [capturedText_eq_some.mp h] at hread
  have hencoded : String.utf8EncodeChar ' ' = [space] := by decide
  obtain ⟨t, ht, -⟩ := exists_text_of_plusRead hencoded hread
  rw [percentDecode, ht, fromUtf8Lossy_utf8]

theorem percentDecode_colon (h : capturedText seg = some s) :
    percentDecode (":.:" ++ seg) = ":.:" ++ percentDecode seg := by
  have hbytes := utf8_percentDecode (capturedText_colon h)
  rw [unescape_colon, ← utf8_percentDecode h, ← utf8_append] at hbytes
  exact utf8_injective hbytes

/-- A colon in front of a segment is a colon in front of the name. -/
theorem head?_ne_of_captured (h : capturedText seg = some s) (hs : s.toList.head? ≠ some ':') :
    seg.toList.head? ≠ some ':' := by
  intro hcolon
  obtain ⟨rest, hrest⟩ := List.head?_eq_some_iff.mp hcolon
  have hseg : utf8 seg = 0x3A :: utf8 (String.ofList rest) := by
    rw [← String.ofList_toList (s := seg), hrest, utf8_ofList, utf8_ofList]
    rfl
  rw [capturedText_eq_some, hseg, unescape_cons (by decide)] at h
  cases hlist : s.toList with
  | nil =>
    rw [← String.ofList_toList (s := s), hlist] at h
    cases h
  | cons c cs =>
    rw [← String.ofList_toList (s := s), hlist, utf8_ofList (c :: cs), List.flatMap_cons] at h
    have hmem : (0x3A : UInt8) ∈ String.utf8EncodeChar c := by
      cases henc : String.utf8EncodeChar c with
      | nil => exact absurd henc (String.utf8EncodeChar_ne_nil)
      | cons b bs =>
        rw [henc, List.cons_append, List.cons.injEq] at h
        rw [← h.1]
        exact List.mem_cons_self
    have hval := val_of_mem_utf8EncodeChar (by decide) hmem
    rw [hlist, List.head?_cons, ne_eq, Option.some.injEq] at hs
    exact hs (Char.ext (UInt32.toNat_inj.mp hval))

theorem head?_percentDecode_ne (h : capturedText seg = some s) (hs : s.toList.head? ≠ some ':') :
    (percentDecode seg).toList.head? ≠ some ':' := by
  have hread := (percentDecode_spec h).1
  generalize (percentDecode seg).toList = l at hread ⊢
  generalize s.toList = l' at hread hs
  cases hread with
  | nil => exact nofun
  | cons hc _ =>
    rw [List.head?_cons, ne_eq, Option.some.injEq] at hs ⊢
    rintro rfl
    rcases hc with rfl | ⟨hspace, -⟩
    · exact hs rfl
    · exact absurd hspace (by decide)

end Decoding

/-! ### What a URL is about -/

section Addressed

variable (decode : String → Option String)

/-- The subject of a rewritten path, and what follows it. -/
def subjectAt (path : String) : Option (QualifiedSubject × List String) :=
  match rawSegments path with
  | "" :: "subjects" :: seg :: rest => (decode seg).map fun s => (QualifiedSubject.parse s, rest)
  | _ => none

/-- The subject a request is about, and what follows it in the path. -/
def addressed (aliasOf : String → Option String) (method : Method) (path : String) :
    Option (QualifiedSubject × List String) :=
  match prematch aliasOf path none (isDeleteContext method path) with
  | .ok (path, _) => subjectAt decode path
  | .error _ => none

/-- The segments behind `subjects` once aliases are replaced. -/
def subjectOf (aliasOf : String → Option String) (ms : List String) :
    Option (QualifiedSubject × List String) :=
  match aliasSegments aliasOf true ms with
  | [] => none
  | seg :: rest => (decode seg).map fun s => (QualifiedSubject.parse s, rest)

variable {decode} {aliasOf : String → Option String}

theorem subjectAt_aliasFilter {path : String} {ms : List String}
    (hpath : (rawSegments path).filter (fun s => !s.isEmpty) = "subjects" :: ms)
    (hms : ∀ m ∈ ms, '/' ∉ m.toList) (pairs : List (String × String)) :
    subjectAt decode (aliasFilter aliasOf path pairs).1 = subjectOf decode aliasOf ms := by
  have hsegs : ∀ m ∈ "subjects" :: ms, '/' ∉ m.toList := List.forall_mem_cons.mpr ⟨by decide, hms⟩
  rw [aliasFilter_fst (by simp) hpath, subjectAt,
    rawSegments_slashed (slash_not_mem_aliasSegments hsegs), subjectOf]
  have hnames : aliasSegments aliasOf false ("subjects" :: ms)
      = "subjects" :: aliasSegments aliasOf true ms := rfl
  rw [hnames]
  cases aliasSegments aliasOf true ms <;> rfl

theorem intercalate_slash {segs : List String} (h : segs ≠ []) :
    "/" ++ "/".intercalate segs = slashed segs := by
  obtain ⟨seg, segs, rfl⟩ := List.exists_cons_of_ne_nil h
  have hslash : "/".toList = ['/'] := rfl
  rw [← String.toList_inj, String.toList_append, String.toList_intercalate, hslash, List.map_cons,
    intercalate_cons, toList_slashed, List.flatMap_map]
  rfl

/-- Segments that are not empty are all kept. -/
theorem cleanPath_slashed {segs : List String} (hne : segs ≠ [])
    (hsegs : ∀ s ∈ segs, s ≠ "" ∧ '/' ∉ s.toList) : cleanPath (slashed segs) = slashed segs := by
  unfold cleanPath
  split
  · rfl
  · have hall : ∀ s ∈ segs, (!s.isEmpty) = true := by
      intro s hs
      simpa using (hsegs s hs).1
    rw [rawSegments_slashed fun s hs => (hsegs s hs).2, List.filter_cons_of_neg (by decide),
      List.filter_eq_self.mpr hall, intercalate_slash hne]

theorem prematch_of_not_contexts {path : String} (hclean : cleanPath path = path)
    (hcontexts : "contexts/".toList.isPrefixOf (path.toList.dropWhile (· == '/')) = false)
    (b : Bool) :
    ∃ query, prematch aliasOf path none b = .ok ((aliasFilter aliasOf path []).1, query) := by
  simp only [prematch, hclean, String.toList_ofList, hcontexts, Bool.false_and, Bool.false_eq_true,
    if_false, ok_bind]
  exact ⟨_, rfl⟩

/-- A path in the qualified form is about what it says. -/
theorem addressed_qualified {ms : List String} (hms : ∀ m ∈ ms, m ≠ "" ∧ '/' ∉ m.toList)
    (method : Method) :
    addressed decode aliasOf method (slashed ("subjects" :: ms)) = subjectOf decode aliasOf ms := by
  have hsegs : ∀ m ∈ "subjects" :: ms, m ≠ "" ∧ '/' ∉ m.toList :=
    List.forall_mem_cons.mpr ⟨⟨by decide, by decide⟩, hms⟩
  have hcontexts : "contexts/".toList.isPrefixOf
      ((slashed ("subjects" :: ms)).toList.dropWhile (· == '/')) = false := by
    simp [toList_slashed, List.isPrefixOf]
  have hkept : (rawSegments (slashed ("subjects" :: ms))).filter (fun s => !s.isEmpty)
      = "subjects" :: ms := by
    rw [rawSegments_slashed fun m hm => (hsegs m hm).2, List.filter_cons_of_neg (by decide),
      List.filter_eq_self.mpr fun m hm => by simpa using (hsegs m hm).1]
  have hclean : cleanPath (slashed ("subjects" :: ms)) = slashed ("subjects" :: ms) :=
    cleanPath_slashed (List.cons_ne_nil _ _) hsegs
  generalize slashed ("subjects" :: ms) = path at hcontexts hkept hclean ⊢
  have hpre : ∃ query, prematch aliasOf path none (isDeleteContext method path)
      = .ok ((aliasFilter aliasOf path []).1, query) :=
    prematch_of_not_contexts hclean hcontexts _
  obtain ⟨query, hquery⟩ := hpre
  have haddr : addressed decode aliasOf method path
      = subjectAt decode (aliasFilter aliasOf path []).1 := by
    unfold addressed
    simp only [hquery]
  rw [haddr]
  exact subjectAt_aliasFilter hkept (fun m hm => (hms m hm).2) []

/-- The query parameters fail only with the context. -/
theorem contextFilterQuery_cases (path ctx : String) (pairs : List (String × String)) :
    (∃ e, normalizeContext ctx = .error e ∧ contextFilterQuery path ctx pairs = .error e) ∨
      ∃ nc pairs', normalizeContext ctx = .ok nc ∧
        contextFilterQuery path ctx pairs = .ok pairs' := by
  unfold contextFilterQuery
  cases normalizeContext ctx with
  | error e => exact .inl ⟨e, rfl, rfl⟩
  | ok nc =>
    refine .inr ⟨nc, ?_⟩
    simp only [ok_bind]
    split
    · exact ⟨_, trivial, rfl⟩
    · split
      · exact ⟨_, trivial, rfl⟩
      · exact ⟨_, trivial, rfl⟩

/-- The subject of a scanned path, if the scan and the context it ends in are fine. -/
def scannedSubject (decode : String → Option String) (aliasOf : String → Option String)
    (scan : Except String (List String × String)) : Option (QualifiedSubject × List String) :=
  match scan with
  | .error _ => none
  | .ok (ms, ctx) =>
      match normalizeContext ctx with
      | .error _ => none
      | .ok _ => subjectOf decode aliasOf ms

theorem mem_of_mem_stripColons {l : List Char} {x : Char} (h : x ∈ stripColons l) : x ∈ l := by
  have htail : ∀ y ∈ (if l.head? = some ':' then l.tail else l), y ∈ l := by
    intro y hy
    split at hy
    · exact List.mem_of_mem_tail hy
    · exact hy
  unfold stripColons at h
  generalize (if l.head? = some ':' then l.tail else l) = l' at h htail
  dsimp only at h
  split at h
  · exact htail x (List.mem_of_mem_dropLast h)
  · exact htail x h

theorem slash_not_mem_normalizeContext {ctx nc : String} (h : normalizeContext ctx = .ok nc)
    (hctx : '/' ∉ ctx.toList) : '/' ∉ nc.toList := by
  have hno : '/' ∉ stripColons ctx.toList := fun hmem => hctx (mem_of_mem_stripColons hmem)
  unfold normalizeContext at h
  generalize stripColons ctx.toList = l at h hno
  dsimp only at h
  by_cases hcolon : l.contains ':' = true
  · rw [if_pos hcolon] at h
    cases h
  · rw [if_neg hcolon] at h
    cases h
    by_cases hdot : l.head? = some '.'
    · rw [if_pos hdot]
      split <;> simp [hno]
    · rw [if_neg hdot]
      split <;> simp [hno]

theorem slash_not_mem_scanned {named : Bool} {ctx : String} {l ms : List String} {ctx' : String}
    (h : scanned named ctx l = .ok (ms, ctx')) (hctx : '/' ∉ ctx.toList)
    (hl : ∀ x ∈ l, x ≠ "" ∧ '/' ∉ x.toList) : ∀ m ∈ ms, m ≠ "" ∧ '/' ∉ m.toList := by
  induction named, ctx, l using scanned.induct generalizing ms ctx' with
  | case1 named ctx =>
    cases h
    exact nofun
  | case2 named ctx =>
    rw [scanned, if_pos rfl] at h
    cases h
    exact List.forall_mem_singleton.mpr ⟨by decide, by decide⟩
  | case3 named ctx next l ih =>
    rw [scanned, if_pos rfl] at h
    obtain ⟨-, hnext, hl⟩ := List.forall_mem_cons.mp hl |>.imp_right List.forall_mem_cons.mp
    exact ih h hnext.2 hl
  | case4 named ctx x l hx ih =>
    obtain ⟨hok, hl⟩ := List.forall_mem_cons.mp hl
    rw [scanned_cons hx] at h
    obtain ⟨m, hm, hrest⟩ := bind_eq_ok.mp h
    cases hp : scanned (namesNext x) ctx l with
    | error e => rw [hp] at hrest; cases hrest
    | ok p =>
      rw [hp] at hrest
      cases hrest
      refine List.forall_mem_cons.mpr ⟨?_, ih hp hctx hl⟩
      unfold rewritten at hm
      split at hm
      · cases hnc : normalizeContext ctx with
        | error e => rw [hnc] at hm; cases hm
        | ok nc =>
          rw [hnc] at hm
          cases hm
          refine ⟨fun hempty => hok.1 ?_, ?_⟩
          · rw [← String.toList_eq_nil_iff, String.toList_append, List.append_eq_nil_iff] at hempty
            exact String.toList_eq_nil_iff.mp hempty.2
          · rw [String.toList_append, List.mem_append, not_or]
            exact ⟨slash_not_mem_normalizeContext hnc hctx, hok.2⟩
      · cases hm
        exact hok

theorem slashed_ended (ms : List String) : slashed (ms ++ [""]) = "/" ++ ended ms := by
  induction ms with
  | nil => rfl
  | cons m ms ih => rw [List.cons_append, slashed_cons, ih, ended_cons]; simp [String.append_assoc]

theorem rawSegments_ended {ms : List String} (hms : ∀ m ∈ ms, m ≠ "" ∧ '/' ∉ m.toList) :
    (rawSegments ("/" ++ ("subjects/" ++ ended ms))).filter (fun s => !s.isEmpty)
      = "subjects" :: ms := by
  have htext : "/" ++ ("subjects/" ++ ended ms) = slashed ("subjects" :: ms ++ [""]) := by
    have hword : "subjects/" = "subjects" ++ "/" := rfl
    rw [List.cons_append, slashed_cons, slashed_ended, hword]
    simp only [String.append_assoc]
  have hsegs : ∀ m ∈ "subjects" :: ms ++ [""], '/' ∉ m.toList := by
    intro m hm
    simp only [List.cons_append, List.mem_cons, List.mem_append, List.not_mem_nil, or_false] at hm
    rcases hm with rfl | hm | rfl
    · decide
    · exact (hms m hm).2
    · decide
  have hkept : ms.filter (fun s => !s.isEmpty) = ms :=
    List.filter_eq_self.mpr fun m hm => by simpa using (hms m hm).1
  rw [htext, rawSegments_slashed hsegs]
  simp [List.filter_append, hkept]

/-- The path behind its first slash. -/
theorem rawSegments_bare {x : String} {l : List String}
    (hsegs : ∀ m ∈ x :: l, m ≠ "" ∧ '/' ∉ m.toList) :
    rawSegments (String.ofList ((slashed (x :: l)).toList.dropWhile (· == '/'))) = x :: l := by
  have hfirst := hsegs x List.mem_cons_self
  have hjoin : (slashed (x :: l)).toList.dropWhile (· == '/')
      = ['/'].intercalate ((x :: l).map String.toList) := by
    obtain ⟨c, cs, hc⟩ := List.exists_cons_of_ne_nil fun h => hfirst.1
        (String.toList_eq_nil_iff.mp h)
    have hne : (c == '/') = false := by
      rw [beq_eq_false_iff_ne]
      rintro rfl
      exact hfirst.2 (hc ▸ List.mem_cons_self)
    rw [toList_slashed, List.flatMap_cons, hc, List.map_cons, intercalate_cons,
      List.flatMap_map, hc]
    simp [hne]
  have hslash : ∀ m ∈ (x :: l).map String.toList, '/' ∉ m := by
    intro m hm
    obtain ⟨y, hy, rfl⟩ := List.mem_map.mp hm
    exact (hsegs y hy).2
  rw [rawSegments, String.toList_ofList, hjoin, List.splitOn_intercalate '/' hslash (by simp),
    List.map_map]
  simp

theorem dropTrailingEmpty_eq {l : List String} (h : ∀ m ∈ l, m ≠ "") : dropTrailingEmpty l = l := by
  have hkept : (l.reverse.dropWhile String.isEmpty).reverse = l := by
    cases hl : l.reverse with
    | nil => simpa using hl.symm
    | cons m ms =>
      have hm : m.isEmpty = false := by
        simpa using h m (List.mem_reverse.mp (hl ▸ List.mem_cons_self))
      rw [List.dropWhile_cons_of_neg (by simp [hm]), ← hl, List.reverse_reverse]
  unfold dropTrailingEmpty
  rw [hkept]
  cases l <;> rfl

/-- A path with the context in front is about what the scan leaves. -/
theorem addressed_contexts {c : String} {l : List String} (hc : c ≠ "" ∧ '/' ∉ c.toList)
    (hl : ∀ m ∈ l, m ≠ "" ∧ '/' ∉ m.toList) (method : Method) :
    addressed decode aliasOf method (slashed ("contexts" :: c :: "subjects" :: l))
      = scannedSubject decode aliasOf (scanned true c l) := by
  have hsegs : ∀ m ∈ "contexts" :: c :: "subjects" :: l, m ≠ "" ∧ '/' ∉ m.toList := by
    simp only [List.forall_mem_cons]
    exact ⟨⟨by decide, by decide⟩, hc, ⟨by decide, by decide⟩, hl⟩
  have hbare := rawSegments_bare hsegs
  have hcontexts : "contexts/".toList.isPrefixOf
      ((slashed ("contexts" :: c :: "subjects" :: l)).toList.dropWhile (· == '/')) = true := by
    simp [toList_slashed, List.isPrefixOf]
  have hdelete : isDeleteContext method (slashed ("contexts" :: c :: "subjects" :: l)) = false := by
    have hlast : ("contexts" :: c :: "subjects" :: l).getLast? ≠ some "" :=
      fun h => (hsegs "" (List.mem_of_getLast? h)).1 rfl
    have hseen := (segments_of_raw (rawSegments_slashed fun m hm => (hsegs m hm).2) (by decide)
      hlast).2
    simp [isDeleteContext, hseen]
  have hclean : cleanPath (slashed ("contexts" :: c :: "subjects" :: l))
      = slashed ("contexts" :: c :: "subjects" :: l) :=
    cleanPath_slashed (List.cons_ne_nil _ _) hsegs
  generalize slashed ("contexts" :: c :: "subjects" :: l) = path at hbare hcontexts hdelete hclean ⊢
  have hfilter : contextFilterPath (String.ofList (path.toList.dropWhile (· == '/')))
      = (scanned true c l).map fun p => ("subjects/" ++ ended p.1, p.2) := by
    rw [contextFilterPath, hbare, dropTrailingEmpty_eq fun m hm => (hsegs m hm).1]
    exact foldlM_scanSegment true c "subjects/" l
  unfold addressed
  simp only [hdelete, prematch, hclean, String.toList_ofList, hcontexts, hfilter, Bool.not_false,
    Bool.and_true, if_true]
  cases hscan : scanned true c l with
  | error e => rfl
  | ok p =>
    obtain ⟨ms, ctx⟩ := p
    have hms := slash_not_mem_scanned hscan hc.2 hl
    rcases contextFilterQuery_cases ("subjects/" ++ ended ms) ctx [] with
      ⟨e, hctx, hquery⟩ | ⟨nc, pairs, hctx, hquery⟩
    · simp only [Except.map, Option.map_none, Option.getD_none, hquery, scannedSubject, hctx]
      rfl
    · simp only [Except.map, Option.map_none, Option.getD_none, hquery, scannedSubject, hctx]
      exact subjectAt_aliasFilter (rawSegments_ended hms) (fun m hm => (hms m hm).2) pairs

/-! ### The two forms -/

theorem parse_dot {t : String} (h : t.toList.head? ≠ some ':') :
    QualifiedSubject.parse (":.:" ++ t) = QualifiedSubject.parse t := by
  have hraw : (":.:" ++ t).toList = ':' :: '.' :: ':' :: t.toList := by simp
  rw [parse_of_head?_ne h]
  unfold QualifiedSubject.parse
  rw [hraw]
  simp [splitOnce, normalizeParsed, defaultContext]

/-- How a handler reads the segment of a subject, or how a decision about it does. -/
def ReadsSegment (decode : String → Option String) : Prop :=
  decode = capturedText ∨ decode = fun seg => some (percentDecode seg)

section Default

variable {seg s : String}

theorem replaceAlias_dot (hparse : ∀ x y, QualifiedSubject.parse x = QualifiedSubject.parse y →
      aliasOf x = aliasOf y)
    (hseg : capturedText seg = some s) (hne : seg ≠ "") (hcolon : s.toList.head? ≠ some ':') :
    replaceAlias aliasOf (":.:" ++ seg) (percentDecode (":.:" ++ seg))
      = replaceAlias aliasOf seg (percentDecode seg) := by
  have hraw : (":.:" ++ seg).isEmpty = false := by simp
  have hseg' : seg.isEmpty = false := by simpa using hne
  have halias : aliasOf (percentDecode (":.:" ++ seg)) = aliasOf (percentDecode seg) := by
    rw [percentDecode_colon hseg]
    exact hparse _ _ (parse_dot (head?_percentDecode_ne hseg hcolon))
  simp only [replaceAlias, hraw, hseg', halias, parse_dot (head?_ne_of_captured hseg hcolon)]

/-- The default context may be written out. -/
theorem subject_dot (hdecode : ReadsSegment decode)
    (hparse : ∀ x y, QualifiedSubject.parse x = QualifiedSubject.parse y → aliasOf x = aliasOf y)
    (hseg : capturedText seg = some s) (hne : seg ≠ "") (hcolon : s.toList.head? ≠ some ':') :
    (decode (aliased aliasOf (":.:" ++ seg))).map QualifiedSubject.parse
      = (decode (aliased aliasOf seg)).map QualifiedSubject.parse := by
  unfold aliased
  rw [replaceAlias_dot hparse hseg hne hcolon]
  cases replaceAlias aliasOf seg (percentDecode seg) with
  | some target => rfl
  | none =>
    rw [Option.map_none, Option.getD_none, Option.getD_none]
    rcases hdecode with rfl | rfl
    · rw [capturedText_colon hseg, hseg, Option.map_some, Option.map_some, parse_dot hcolon]
    · rw [Option.map_some, Option.map_some, percentDecode_colon hseg,
        parse_dot (head?_percentDecode_ne hseg hcolon)]

end Default

theorem subjectOf_cons (m : String) (ms : List String) :
    subjectOf decode aliasOf (m :: ms) = (decode (aliased aliasOf m)).map fun s =>
      (QualifiedSubject.parse s, aliasSegments aliasOf (namesNext m) ms) := rfl

theorem aliased_of_none {m : String} (h : ∀ x, aliasOf x = none) : aliased aliasOf m = m := by
  unfold aliased replaceAlias
  rw [h]
  split <;> rfl

theorem aliasSegments_of_none (h : ∀ x, aliasOf x = none) (named : Bool) (ms : List String) :
    aliasSegments aliasOf named ms = ms := by
  induction ms generalizing named with
  | nil => rfl
  | cons m ms ih =>
    rw [aliasSegments, ih, aliased_of_none h]
    split <;> rfl

/-- When a request about a subject says the same in both forms: no segment but the last is
`contexts`, and none is taken for a subject that the other form leaves alone. -/
def FormsAgree (name seg : String) (rest : List String) : Prop :=
  NoInnerContexts (seg :: rest) ∧
    if name = defaultContext then namesNext seg = true → rest = []
    else seg ≠ "contexts" ∧ KeepsNames (seg :: rest)

end Addressed

section Forms

variable {c name seg s : String} {rest : List String}

theorem Registry.aliasOf_congr (reg : Registry) {x y : String}
    (h : QualifiedSubject.parse x = QualifiedSubject.parse y) : reg.aliasOf x = reg.aliasOf y := by
  rw [Registry.aliasOf, Registry.aliasOf, h]

theorem qualified_eq_false (h : seg.toList.head? ≠ some ':') : qualified seg = false := by
  unfold qualified
  cases hl : seg.toList with
  | nil => rfl
  | cons x xs =>
    have hx : ':' ≠ x := by
      rintro rfl
      exact h (by rw [hl]; rfl)
    simp [List.isPrefixOf, hx]

theorem namesNext_colon (h : seg.toList.head? = some ':') : namesNext seg = false := by
  unfold namesNext
  rw [Bool.or_eq_false_iff, beq_eq_false_iff_ne, beq_eq_false_iff_ne]
  constructor <;> rintro rfl <;> exact absurd h (by decide)

theorem forms_agree_of_formsAgree {decode : String → Option String} (hdecode : ReadsSegment decode)
    (hc : NamesContext c name) (hseg : capturedText seg = some s) (hne : seg ≠ "")
    (hcolon : s.toList.head? ≠ some ':') (h : FormsAgree name seg rest) (reg : Registry) :
    scannedSubject decode reg.aliasOf (scanned true c (seg :: rest))
      = subjectOf decode reg.aliasOf ((":" ++ name ++ ":" ++ seg) :: rest) := by
  have hhead := qualified_eq_false (head?_ne_of_captured hseg hcolon)
  rw [scanned_of_noInner hc.normalizeContext h.1, scannedSubject]
  simp only [hc.normalizeContext]
  by_cases hname : name = defaultContext
  · have hnames := h.2
    rw [if_pos hname] at hnames
    subst hname
    have hpart : contextPart defaultContext = "" := rfl
    have hdot : ":" ++ defaultContext ++ ":" = ":.:" := rfl
    have hparse : ∀ x y, QualifiedSubject.parse x = QualifiedSubject.parse y →
        reg.aliasOf x = reg.aliasOf y := fun x y => Registry.aliasOf_congr reg
    have hsubject := subject_dot hdecode hparse hseg hne hcolon
    have hafter : namesNext (":.:" ++ seg) = false := namesNext_colon (by simp)
    have hrests : aliasSegments reg.aliasOf (namesNext seg) rest
        = aliasSegments reg.aliasOf false rest := by
      cases hnext : namesNext seg with
      | false => rfl
      | true => rw [hnames hnext]; rfl
    rw [hpart, prefixed_empty, hdot, subjectOf_cons, subjectOf_cons, hafter, hrests]
    have hpairs := congrArg (Option.map fun q => (q, aliasSegments reg.aliasOf false rest)) hsubject
    rw [Option.map_map, Option.map_map] at hpairs
    exact hpairs.symm
  · have hkeeps := h.2
    rw [if_neg hname] at hkeeps
    have hpart : contextPart name = ":" ++ name ++ ":" := if_neg hname
    have hne' : contextPart name ≠ "" := by
      rw [hpart]
      simp
    rw [prefixed, (prefixed_eq_self_iff hne' seg rest).mpr hkeeps.2, hpart]
    simp [hhead, hkeeps.1]

theorem length_aliasSegments (aliasOf : String → Option String) (named : Bool) (ms : List String) :
    (aliasSegments aliasOf named ms).length = ms.length := by
  induction ms generalizing named with
  | nil => rfl
  | cons m ms ih => rw [aliasSegments, List.length_cons, List.length_cons, ih]

/-- A scan that gives a subject and all that follows it has met no other context. -/
theorem noInner_of_scannedSubject {decode aliasOf : String → Option String} {l : List String}
    {q : QualifiedSubject} (h : scannedSubject decode aliasOf (scanned true c l) = some (q, rest))
    (hlen : l.length = rest.length + 1) : NoInnerContexts l := by
  unfold scannedSubject at h
  cases hscan : scanned true c l with
  | error e => rw [hscan] at h; cases h
  | ok p =>
    obtain ⟨ms, ctx⟩ := p
    rw [hscan] at h
    dsimp only at h
    cases hctx : normalizeContext ctx with
    | error e => rw [hctx] at h; cases h
    | ok nc =>
      rw [hctx] at h
      cases ms with
      | nil => cases h
      | cons m ms =>
        rw [subjectOf_cons] at h
        obtain ⟨s, -, hpair⟩ := Option.map_eq_some_iff.mp h
        have hms := congrArg (fun p => p.2.length) hpair
        rw [length_aliasSegments] at hms
        exact (length_scanned hscan).2 (by rw [List.length_cons, hms, hlen])

/-- A registry where one name stands for another. -/
def redirecting (x target : String) : Registry where
  store := { tenant := .default }
  snapshot :=
    { config := (∅ : Std.ExtTreeMap Scope ConfigRecord).insert
        (scopeFor (QualifiedSubject.parse (percentDecode x))) { «alias» := some target }
      hasAliases := true }

theorem aliasOf_redirecting (x target : String) :
    (redirecting x target).aliasOf (percentDecode x) = some target := by
  simp [Registry.aliasOf, redirecting, Registry.reader, Reader.getConfig, Snapshot.getConfig]

theorem exists_aliased_ne {x : String} (hx : x ≠ "") :
    ∃ reg : Registry, aliased reg.aliasOf x ≠ x := by
  have hempty : x.isEmpty = false := by simpa using hx
  have hmoved : ∀ target, target = ":.a:" ∨ target = ":.b:" →
      aliased (redirecting x target).aliasOf x = target := by
    intro target htarget
    have hread : (QualifiedSubject.parse target).context ≠ defaultContext
        ∧ (QualifiedSubject.parse target).qualified = target ∧ encodeSegment target = target
        ∧ target.isEmpty = false := by
      rcases htarget with rfl | rfl <;> decide
    obtain ⟨hctx, hback, hbare, hsome⟩ := hread
    simp [aliased, replaceAlias, hempty, aliasOf_redirecting, Option.filter_some, hsome,
      hctx, hback,
      hbare]
  by_cases hsame : x = ":.a:"
  · exact ⟨redirecting x ":.b:", by rw [hmoved _ (.inr rfl), hsame]; decide⟩
  · exact ⟨redirecting x ":.a:", by rw [hmoved _ (.inl rfl)]; exact fun h => hsame h.symm⟩

theorem percentDecode_contextName (hc : NamesContext c name) (hname : name ≠ defaultContext) :
    percentDecode (":" ++ name ++ ":" ++ "contexts") = qualify name "contexts" := by
  have hqualify : qualify name "contexts" = ":" ++ name ++ ":" ++ "contexts" := if_neg hname
  rcases hc.cases with ⟨-, hdefault⟩ | ⟨hfull, -, hall⟩
  · exact absurd hdefault hname
  · have hchars : ∀ x ∈ name.toList, contextChar x = true := by
      intro x hx
      rw [hfull] at hx
      split at hx
      · exact hall x hx
      · rw [String.toList_append, List.mem_append] at hx
        rcases hx with hx | hx
        · rw [List.mem_singleton.mp hx]
          decide
        · exact hall x hx
    have hplain : ∀ x ∈ (":" ++ name ++ ":" ++ "contexts").toList,
        x.val.toNat < 128 ∧ plainInQuery x.val.toUInt8 = true := by
      simp only [String.toList_append, List.forall_mem_append]
      exact ⟨⟨⟨List.all_iff_forall_prop.mp (by decide),
        fun x hx => plainInQuery_of_contextChar (hchars x hx)⟩,
        List.all_iff_forall_prop.mp (by decide)⟩, List.all_iff_forall_prop.mp (by decide)⟩
    have hself : encodeQueryValue (":" ++ name ++ ":" ++ "contexts")
        = ":" ++ name ++ ":" ++ "contexts" := escapeText_eq_self hplain
    have hdecoded := percentDecode_encodeQueryValue (":" ++ name ++ ":" ++ "contexts")
    rw [hself] at hdecoded
    rw [hdecoded, hqualify]

/-- What the two forms agree on without aliases. -/
theorem keeps_of_agree (hc : NamesContext c name) (hname : name ≠ defaultContext)
    (h : subjectOf (fun x => some (percentDecode x)) (fun _ => none)
        (prefixed (contextPart name) true (seg :: rest))
      = subjectOf (fun x => some (percentDecode x)) (fun _ => none)
        ((":" ++ name ++ ":" ++ seg) :: rest)) :
    seg ≠ "contexts" ∧ KeepsNames (seg :: rest) := by
  have hpart : contextPart name ≠ "" := by
    rw [contextPart, if_neg hname]
    simp
  rw [prefixed, subjectOf_cons, subjectOf_cons, Option.map_some, Option.map_some,
    aliasSegments_of_none (fun _ => rfl), aliasSegments_of_none (fun _ => rfl),
    aliased_of_none (fun _ => rfl), aliased_of_none (fun _ => rfl), Option.some.injEq,
    Prod.mk.injEq, prefixed_eq_self_iff hpart] at h
  refine ⟨?_, h.2⟩
  rintro rfl
  have hcontexts : QualifiedSubject.parse (percentDecode "contexts")
      = ⟨defaultContext, "contexts"⟩ := by decide
  have hparse := h.1
  rw [percentDecode_contextName hc hname,
    parse_qualify (contextName_normalizeContext hc.valid) hname] at hparse
  rw [show (if true && !qualified "contexts" && "contexts" != "contexts" then
      contextPart name ++ "contexts" else "contexts") = "contexts" by simp, hcontexts] at hparse
  exact hname (QualifiedSubject.mk.inj hparse).1.symm

/-- Both forms of a URL name the same subject and the same suffix, whatever the aliases, exactly
when `FormsAgree`. -/
theorem forms_agree_iff (hc : NamesContext c name) (hseg : capturedText seg = some s)
    (hslash : '/' ∉ seg.toList) (hne : s ≠ "") (hcolon : s.toList.head? ≠ some ':')
    (hrest : ∀ x ∈ rest, x ≠ "" ∧ '/' ∉ x.toList) :
    (∀ (reg : Registry) (method : Method) (decode : String → Option String), ReadsSegment decode →
        addressed decode reg.aliasOf method (slashed ("contexts" :: c :: "subjects" :: seg :: rest))
          = addressed decode reg.aliasOf method
            (slashed ("subjects" :: (":" ++ name ++ ":" ++ seg) :: rest)))
      ↔ FormsAgree name seg rest := by
  have hsome : seg ≠ "" := by
    rintro rfl
    have hempty : capturedText "" = some "" := by decide
    rw [hempty, Option.some.injEq] at hseg
    exact hne hseg.symm
  have hl : ∀ x ∈ seg :: rest, x ≠ "" ∧ '/' ∉ x.toList :=
    List.forall_mem_cons.mpr ⟨⟨hsome, hslash⟩, hrest⟩
  have hq : ∀ x ∈ (":" ++ name ++ ":" ++ seg) :: rest, x ≠ "" ∧ '/' ∉ x.toList := by
    refine List.forall_mem_cons.mpr ⟨⟨by simp, ?_⟩, hrest⟩
    simp only [String.toList_append, List.mem_append, not_or]
    exact ⟨⟨⟨by decide, hc.slash_not_mem_name⟩, by decide⟩, hslash⟩
  simp only [addressed_contexts ⟨hc.ne_empty, hc.slash_not_mem⟩ hl, addressed_qualified hq]
  constructor
  · intro h
    have hreads : ReadsSegment fun x => some (percentDecode x) := .inr rfl
    have hnone : (Registry.empty .default).aliasOf = fun _ => none := rfl
    have hempty := h (Registry.empty .default) .get _ hreads
    rw [hnone] at hempty
    have hinner : NoInnerContexts (seg :: rest) := by
      rw [subjectOf_cons, Option.map_some, aliasSegments_of_none (fun _ => rfl)] at hempty
      exact noInner_of_scannedSubject hempty rfl
    simp only [scanned_of_noInner hc.normalizeContext hinner, scannedSubject, hc.normalizeContext]
      at h hempty
    refine ⟨hinner, ?_⟩
    split
    · next hname =>
        subst hname
        intro hnext
        cases rest with
        | nil => rfl
        | cons x l =>
          obtain ⟨reg, hmoved⟩ := exists_aliased_ne (hrest x List.mem_cons_self).1
          have hreg := h reg .get _ hreads
          have hafter : namesNext (":" ++ defaultContext ++ ":" ++ seg) = false :=
            namesNext_colon (by simp)
          rw [show contextPart defaultContext = "" from rfl, prefixed_empty, subjectOf_cons,
            subjectOf_cons, Option.map_some, Option.map_some, Option.some.injEq, Prod.mk.injEq,
            hnext, hafter, aliasSegments, aliasSegments, if_pos rfl, if_neg (by simp)] at hreg
          exact absurd (List.cons.inj hreg.2).1 hmoved
    · next hname => exact keeps_of_agree hc hname hempty
  · intro h reg _ decode hdecode
    exact forms_agree_of_formsAgree hdecode hc hseg hsome hcolon h reg

/-- A subject whose name and whose encoding are plain. -/
theorem forms_agree_orders :
    NamesContext "eu" ".eu" ∧ FormsAgree ".eu" "orders" ["versions", "1"] ∧
      ∀ (reg : Registry) (method : Method) (decode : String → Option String), ReadsSegment decode →
        addressed decode reg.aliasOf method
            (slashed ["contexts", "eu", "subjects", "orders", "versions", "1"])
          = addressed decode reg.aliasOf method
            (slashed ["subjects", ":" ++ ".eu" ++ ":" ++ "orders", "versions", "1"]) := by
  have hc : NamesContext "eu" ".eu" := ⟨by decide, by decide, by decide⟩
  have hagree : FormsAgree ".eu" "orders" ["versions", "1"] := by
    refine ⟨by simp [NoInnerContexts], ?_⟩
    simp [KeepsNames, namesNext, defaultContext]
  refine ⟨hc, hagree, ?_⟩
  exact (forms_agree_iff hc (show capturedText "orders" = some "orders" by decide)
    (by decide) (by decide) (by decide) (by decide)).mpr hagree

/-- A subject that is called `subjects`: the scan puts the context in front of what follows it. -/
theorem forms_differ_subjects :
    addressed capturedText (Registry.empty .default).aliasOf .get
        "/contexts/eu/subjects/subjects/versions/1"
      = some (⟨".eu", "subjects"⟩, [":.eu:versions", "1"])
    ∧ addressed capturedText (Registry.empty .default).aliasOf .get
        "/subjects/:.eu:subjects/versions/1"
      = some (⟨".eu", "subjects"⟩, ["versions", "1"]) := by
  decide

end Forms

end SchemaRegistry.Rewrite

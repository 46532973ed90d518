import SchemaRegistry.Lib.Lists
import SchemaRegistry.Api.Router
import Mathlib.Data.Bool.AllAny

/-!
The role decision against the route table. A path that reaches a handler is read the same
way by the router and by the decision, segment by segment; the one thing they read
differently is a bare `+`. Readers reach no handler that changes anything, and a subject is
listed to exactly the callers that may read it.
-/

namespace SchemaRegistry.Authz

open Lib

/-! ### Segments of a path -/

theorem trimSlashes_cons (l : List Char) : trimSlashes ('/' :: l) = trimSlashes l := by
  simp [trimSlashes]

theorem trimSlashes_eq {l : List Char} (hhead : l.head? ≠ some '/')
    (hlast : l.getLast? ≠ some '/') :
    trimSlashes l = l := by
  have hdrop : ∀ {l : List Char}, l.head? ≠ some '/' → l.dropWhile (· == '/') = l := by
    intro l h
    cases l with
    | nil => rfl
    | cons c l =>
      have : (c == '/') = false := by simpa using h
      simp [this]
  rw [trimSlashes, hdrop hhead, hdrop (by rwa [List.head?_reverse]), List.reverse_reverse]

/-- A path is made of the segments it was built from, when neither the first nor the last is
empty. -/
theorem segments_of_join {path s : String} {segs : List String}
    (hpath : path.toList = '/' :: ['/'].intercalate ((s :: segs).map String.toList))
    (hslash : ∀ x ∈ s :: segs, '/' ∉ x.toList) (hfirst : s ≠ "")
    (hlast : (s :: segs).getLast? ≠ some "") : segments path = s :: segs := by
  have hnil : ∀ {x : String}, x ≠ "" → x.toList ≠ [] := fun h e => h (String.toList_eq_nil_iff.mp e)
  have hin : ∀ l ∈ (s :: segs).map String.toList, '/' ∉ l := by
    intro l hl
    obtain ⟨x, hx, rfl⟩ := List.mem_map.mp hl
    exact hslash x hx
  have hlast' : (s.toList :: segs.map String.toList).getLast? ≠ some [] := by
    rw [← List.map_cons, List.getLast?_map]
    intro h
    obtain ⟨x, hx, hx'⟩ := Option.map_eq_some_iff.mp h
    exact hlast (by rw [hx, String.toList_eq_nil_iff.mp hx'])
  have htrim : trimSlashes path.toList = ['/'].intercalate ((s :: segs).map String.toList) := by
    rw [hpath, trimSlashes_cons]
    refine trimSlashes_eq ?_ ?_
    · rw [List.map_cons, intercalate_cons, List.head?_append_of_ne_nil _ (hnil hfirst)]
      intro h
      exact hslash s List.mem_cons_self (List.mem_of_mem_head? h)
    · obtain ⟨m, hm, hget, -⟩ := getLast?_intercalate '/' hlast'
      rw [List.map_cons, hget]
      intro h
      exact hin m (by simpa using hm) (List.mem_of_mem_getLast? h)
  rw [segments, htrim, List.splitOn_intercalate '/' hin (by simp), List.map_map]
  simp

/-- The router and the decision see the same segments of a path that matches a route. -/
theorem segments_of_raw {path s : String} {segs : List String}
    (hraw : rawSegments path = "" :: s :: segs) (hfirst : s ≠ "")
    (hlast : (s :: segs).getLast? ≠ some "") :
    path.toList = '/' :: ['/'].intercalate ((s :: segs).map String.toList) ∧
      segments path = s :: segs := by
  have hsplit : path.toList.splitOn '/' = [] :: (s :: segs).map String.toList := by
    have := congrArg (List.map String.toList) hraw
    simpa [rawSegments, Function.comp_def] using this
  have hpath : path.toList = '/' :: ['/'].intercalate ((s :: segs).map String.toList) := by
    have hjoin : ['/'].intercalate (path.toList.splitOn '/') = path.toList :=
      List.intercalate_splitOn '/'
    rw [← hjoin, hsplit, List.map_cons, List.intercalate_cons_cons]
    rfl
  refine ⟨hpath, segments_of_join hpath (fun x hx => ?_) hfirst hlast⟩
  have hmem : x.toList ∈ path.toList.splitOn '/' := by
    rw [hsplit]
    exact List.mem_cons_of_mem _ (List.mem_map_of_mem hx)
  exact not_mem_of_mem_splitOn hmem

/-! ### What a dispatched request looks like -/

/-- A route whose segments are all non-empty. -/
def Route.solid (r : Route) : Bool := r.path.all fun
  | .lit s => s != ""
  | .capture => true
  | .tail => false

theorem ne_empty_of_matchSegs {ps : List Seg} {xs caps : List String}
    (hsolid : (ps.all fun
      | .lit s => s != ""
      | .capture => true
      | .tail => false) = true)
    (h : matchSegs ps xs = some caps) : ∀ x ∈ xs, x ≠ "" := by
  induction ps generalizing xs caps with
  | nil => cases xs <;> simp_all [matchSegs]
  | cons p ps ih =>
    rw [List.all_cons, Bool.and_eq_true] at hsolid
    cases p with
    | lit a =>
      cases xs with
      | nil => simp [matchSegs] at h
      | cons x xs =>
        simp only [matchSegs] at h
        split at h
        · next hx =>
            refine List.forall_mem_cons.mpr ⟨?_, ih hsolid.2 h⟩
            rw [hx]
            simpa using hsolid.1
        · cases h
    | capture =>
      cases xs with
      | nil => simp [matchSegs] at h
      | cons x xs =>
        simp only [matchSegs] at h
        split at h
        · cases h
        · next hx =>
            obtain ⟨caps', hcaps, -⟩ := Option.map_eq_some_iff.mp h
            exact List.forall_mem_cons.mpr ⟨hx, ih hsolid.2 hcaps⟩
    | tail => simp at hsolid

theorem matchSegs_nil {xs caps : List String} :
    matchSegs [] xs = some caps ↔ xs = [] ∧ caps = [] := by
  cases xs <;> simp [matchSegs, eq_comm]

theorem matchSegs_lit {a : String} {ps : List Seg} {xs caps : List String} :
    matchSegs (.lit a :: ps) xs = some caps ↔
      ∃ xs', xs = a :: xs' ∧ matchSegs ps xs' = some caps := by
  cases xs with
  | nil => simp [matchSegs]
  | cons x xs => by_cases hx : x = a <;> simp [matchSegs, hx]

theorem matchSegs_capture {ps : List Seg} {xs caps : List String} :
    matchSegs (.capture :: ps) xs = some caps ↔
      ∃ x xs' caps', xs = x :: xs' ∧ caps = x :: caps' ∧ x ≠ "" ∧
        matchSegs ps xs' = some caps' := by
  cases xs with
  | nil => simp [matchSegs]
  | cons x xs =>
    by_cases hx : x = ""
    · simp [matchSegs, hx]
    · simp only [matchSegs, hx, if_false, Option.map_eq_some_iff, List.cons.injEq]
      constructor
      · rintro ⟨caps', hcaps, rfl⟩
        exact ⟨x, xs, caps', ⟨rfl, rfl⟩, rfl, hx, hcaps⟩
      · rintro ⟨x', xs', caps', ⟨rfl, rfl⟩, rfl, -, hcaps⟩
        exact ⟨caps', hcaps, rfl⟩

/-- A request reaches a handler through one of its routes. -/
theorem dispatch_spec {method : Method} {path : String} {h : Handler} {caps : List String}
    (hd : dispatch method path = some (h, caps)) :
    ∃ r ∈ routes, ∃ segs, r.handler = h ∧ r.serves method = true ∧
      rawSegments path = "" :: segs ∧ matchSegs r.path segs = some caps := by
  unfold dispatch at hd
  split at hd
  · next segs hraw =>
      obtain ⟨r, hr, hmatch⟩ := List.exists_of_findSome?_eq_some hd
      split at hmatch
      · next hserves =>
          obtain ⟨caps', hcaps, heq⟩ := Option.map_eq_some_iff.mp hmatch
          cases heq
          exact ⟨r, hr, segs, rfl, hserves, hraw, hcaps⟩
      · cases hmatch
  · cases hd

/-- Through a route without empty segments, both readings of the path are what the route says. -/
theorem segments_of_route {path : String} {segs caps : List String} {r : Route}
    (hsolid : r.solid = true) (hne : r.path ≠ []) (hraw : rawSegments path = "" :: segs)
    (hmatch : matchSegs r.path segs = some caps) :
    path.toList = '/' :: ['/'].intercalate (segs.map String.toList) ∧ segments path = segs := by
  have hall := ne_empty_of_matchSegs hsolid hmatch
  cases segs with
  | nil =>
    obtain ⟨p, ps, hp⟩ := List.exists_cons_of_ne_nil hne
    rw [hp] at hmatch
    cases p <;> cases ps <;> simp [matchSegs] at hmatch
  | cons s segs =>
    refine segments_of_raw hraw (hall s List.mem_cons_self) fun h => ?_
    exact hall "" (List.mem_of_mem_getLast? h) rfl

/-! ### Readers cannot write -/

/-- None of the caller's roles, registry-wide or bound, is admin or write. -/
def Principal.ReadsOnly (p : Principal) : Prop :=
  (∀ role ∈ p.roles, role = .readonly) ∧ ∀ b ∈ p.bindings, b.1 = .readonly

instance (p : Principal) : Decidable p.ReadsOnly := inferInstanceAs (Decidable (_ ∧ _))

theorem mem_rolesWhere {p : Principal} {reaches : Pattern → Bool} {role : Role} :
    role ∈ p.rolesWhere reaches ↔
      role ∈ p.roles ∨ ∃ b ∈ p.bindings, b.1 = role ∧ b.2.any reaches = true := by
  unfold Principal.rolesWhere
  generalize p.roles = out
  induction p.bindings generalizing out with
  | nil => simp
  | cons b bs ih =>
    obtain ⟨granted, patterns⟩ := b
    rw [List.foldl_cons, ih]
    simp only [List.mem_cons, exists_eq_or_imp]
    by_cases hany : patterns.any reaches = true
    · by_cases hout : granted ∈ out
      · simp only [hout, hany, not_true_eq_false, decide_false, Bool.false_and,
          Bool.false_eq_true, if_false, and_true]
        constructor
        · rintro (h | h)
          · exact .inl h
          · exact .inr (.inr h)
        · rintro (h | rfl | h)
          · exact .inl h
          · exact .inl hout
          · exact .inr h
      · simp only [hout, hany, not_false_eq_true, decide_true, Bool.true_and, if_true,
          List.mem_append, List.mem_singleton, and_true, or_assoc, eq_comm]
    · simp [hany]

theorem Principal.ReadsOnly.rolesWhere {p : Principal} (h : p.ReadsOnly)
    (reaches : Pattern → Bool) : ∀ role ∈ p.rolesWhere reaches, role = .readonly := by
  intro role hrole
  rcases mem_rolesWhere.mp hrole with hrole | ⟨b, hb, rfl, -⟩
  · exact h.1 role hrole
  · exact h.2 b hb

/-- Readers are allowed nothing but read-only requests. -/
theorem allows_eq_false {roles : List Role} (h : ∀ role ∈ roles, role = .readonly)
    {method : Method} {path : String} (hread : readOnlyRequest method path = false)
    (target : Target) : allows roles method path target = false := by
  have hadmin : Role.admin ∉ roles := fun hmem => nomatch h _ hmem
  have hwrite : Role.write ∉ roles := fun hmem => nomatch h _ hmem
  simp [allows, hadmin, hwrite, hread]

/-- The routes to handlers that change something. -/
def mutating : List Route := routes.filter fun r => r.handler.mutates

theorem get_ne_of_mutating : ∀ r ∈ mutating, r.method ≠ .get := by decide

theorem subjectOrContext_ne_listing (raw : String) : subjectOrContext raw ≠ .listing := by
  unfold subjectOrContext
  dsimp only
  split <;> simp

theorem solid_of_mutating : ∀ r ∈ mutating, r.solid = true ∧ r.path ≠ [] := by decide

/-- A request that reaches such a handler is no read-only request, and if its path is a
listing for the decision then it is one of the admin UI. -/
theorem mutating_spec {r : Route} (hr : r ∈ mutating) {method : Method} {path : String}
    {segs caps : List String} (hserves : r.serves method = true)
    (hraw : rawSegments path = "" :: segs) (hmatch : matchSegs r.path segs = some caps) :
    readOnlyRequest method path = false ∧ (targetOf path = .listing → isAdminUi path = true) := by
  obtain ⟨hsolid, hne⟩ := solid_of_mutating r hr
  obtain ⟨hpath, hsegs⟩ := segments_of_route hsolid hne hraw hmatch
  obtain rfl : r.method = method := by
    simp only [Route.serves, Bool.or_eq_true, Bool.and_eq_true, beq_iff_eq] at hserves
    exact hserves.resolve_right fun h => get_ne_of_mutating r hr h.1
  simp only [readOnlyRequest, isLookupPost, targetOf, hsegs]
  clear hserves hsegs hraw hsolid hne
  simp only [mutating, routes, Handler.mutates, List.filter_cons, List.filter_nil, if_true,
    Bool.false_eq_true, if_false, List.mem_cons, List.not_mem_nil, or_false] at hr
  rcases hr with rfl | rfl | rfl | rfl | rfl | rfl | rfl | rfl | rfl | rfl | rfl | rfl | rfl | rfl
    | rfl | rfl | rfl | rfl | rfl | rfl
  all_goals
    simp only [matchSegs_lit, matchSegs_capture, matchSegs_nil] at hmatch
    revert hmatch
    simp only [forall_exists_index, and_imp]
    intros
    subst_vars
    simp [subjectOnly, subjectOrContext_ne_listing, isAdminUi, startsWith, hpath]

/-- A caller without an admin or write role, registry-wide or bound, is refused every request
that reaches a handler which can change registry or exporter state. -/
theorem authorized_eq_false_of_mutates (p : Principal) (h : p.ReadsOnly) (method : Method)
    (path : String) (handler : Handler) (caps : List String)
    (hd : dispatch method path = some (handler, caps)) (hm : handler.mutates = true) :
    authorized p method path = false := by
  obtain ⟨r, hr, segs, rfl, hserves, hraw, hmatch⟩ := dispatch_spec hd
  obtain ⟨hread, hlisting⟩ :=
    mutating_spec (List.mem_filter.mpr ⟨hr, hm⟩) hserves hraw hmatch
  unfold authorized
  split
  · exact allows_eq_false (h.rolesWhere _) hread _
  · exact allows_eq_false (h.rolesWhere _) hread _
  · next htarget =>
      rw [if_pos (hlisting htarget)]
      have hroles : Role.admin ∉ p.roles := fun hmem => nomatch h.1 _ hmem
      have hbound : ∀ b ∈ p.bindings, b.1 ≠ .admin := fun b hb e => by
        rw [h.2 b hb] at e
        cases e
      simpa [Principal.hasRoleAnywhere, hroles] using hbound
  · exact allows_eq_false h.1 hread _

/-- Registering under a subject the caller may only read. -/
theorem authorized_eq_false_of_register :
    dispatch .post "/subjects/orders-value/versions" = some (.registerSchema, ["orders-value"]) ∧
      authorized (.fromUser ⟨[], [(.readonly, ["orders-*"])]⟩) .post
        "/subjects/orders-value/versions" = false :=
  ⟨by decide, authorized_eq_false_of_mutates _ (by decide) .post _ .registerSchema
    ["orders-value"] (by decide) rfl⟩

/-! ### Visible is readable -/

theorem unreserved_spec (b : UInt8) (h : unreserved b = true) :
    b.toNat < 128 ∧ b ≠ 0x25 ∧ b ≠ 0x2B := by
  rcases Bool.or_eq_true_iff.mp h with h | h
  · exact bare_of_alphanumeric h
  · have hmarks : ∀ m ∈ ([0x2D, 0x5F, 0x2E, 0x7E, 0x3A] : Bytes),
        m.toNat < 128 ∧ m ≠ 0x25 ∧ m ≠ 0x2B :=
      List.all_iff_forall_prop.mp (by decide)
    exact hmarks b (of_decide_eq_true h)

/-- What a writer of paths escapes, the decision reads back. -/
theorem percentDecode_percentEncodeSegment (s : String) :
    percentDecode (percentEncodeSegment s) = s := by
  rw [percentDecode, percentEncodeSegment, unescape_escapeText unreserved_spec, fromUtf8Lossy_utf8]

theorem slash_not_mem_percentEncodeSegment (s : String) :
    '/' ∉ (percentEncodeSegment s).toList :=
  not_mem_escapeText (b := 0x2F) (by decide) rfl (by decide) (by decide) s

/-- The path under which the versions of a subject are listed. -/
def versionsPath (name : String) : String :=
  "/subjects/" ++ percentEncodeSegment name ++ "/versions"

theorem segments_versionsPath (name : String) :
    segments (versionsPath name) = ["subjects", percentEncodeSegment name, "versions"] := by
  refine segments_of_join (by simp [versionsPath, List.intercalate_cons_cons]) ?_ (by decide)
    (by simp)
  intro x hx
  simp only [List.mem_cons, List.not_mem_nil, or_false] at hx
  rcases hx with rfl | rfl | rfl
  · decide
  · exact slash_not_mem_percentEncodeSegment name
  · decide

theorem targetOf_versionsPath (name : String) :
    targetOf (versionsPath name) = .subject (QualifiedSubject.parse name) := by
  simp only [targetOf, segments_versionsPath, subjectOnly, percentDecode_percentEncodeSegment]

/-- A GET of a subject's versions needs any role over the subject. -/
theorem authorized_versionsPath (p : Principal) (name : String) :
    authorized p .get (versionsPath name)
      = !(p.rolesForSubject (QualifiedSubject.parse name)).isEmpty := by
  have hwhole : isWholeProcess (versionsPath name) = false := by
    simp [isWholeProcess, isAdminUi, startsWith, versionsPath, ← String.toList_inj, List.isPrefixOf]
  have hcredentials : revealsExporterCredentials (versionsPath name) = false := by
    simp [revealsExporterCredentials, segments_versionsPath]
  simp only [authorized, targetOf_versionsPath, allows, hwhole, hcredentials, readOnlyRequest]
  by_cases hadmin : Role.admin ∈ p.rolesForSubject (QualifiedSubject.parse name)
  · simp [hadmin, List.ne_nil_of_mem hadmin]
  · simp [hadmin]

theorem rolesForSubject_ne_nil {p : Principal} {q : QualifiedSubject} :
    p.rolesForSubject q ≠ [] ↔ p.roles ≠ [] ∨ p.bound q.context q.subject = true := by
  simp only [Principal.bound, List.any_eq_true]
  constructor
  · intro h
    obtain ⟨role, hrole⟩ := List.exists_mem_of_ne_nil _ h
    rcases mem_rolesWhere.mp hrole with hrole | ⟨b, hb, -, hany⟩
    · exact .inl (List.ne_nil_of_mem hrole)
    · exact .inr ⟨b, hb, List.any_eq_true.mp hany⟩
  · rintro (h | ⟨b, hb, hany⟩)
    · obtain ⟨role, hrole⟩ := List.exists_mem_of_ne_nil _ h
      exact List.ne_nil_of_mem (mem_rolesWhere.mpr (.inl hrole))
    · exact List.ne_nil_of_mem (mem_rolesWhere.mpr (.inr ⟨b, hb, rfl, List.any_eq_true.mpr hany⟩))

/-- A caller who holds anything sees a subject in a filtered listing exactly when the caller
may GET its versions under its percent-encoded qualified name. -/
theorem mem_filter_iff_authorized (p : Principal) (hp : p.roles ≠ [] ∨ p.bindings ≠ [])
    (ctx subject : String) {α : Type} (items : List α) (subjectOf : α → String) (x : α)
    (hx : x ∈ items) (hname : subjectOf x = qualify ctx subject) :
    x ∈ filter p items subjectOf ↔
      authorized p .get (versionsPath (qualify ctx subject)) = true := by
  rw [authorized_versionsPath, Bool.not_eq_true', List.isEmpty_eq_false_iff, rolesForSubject_ne_nil]
  have hsees : p.seesEverything = true ↔ p.roles ≠ [] := by
    simp only [Principal.seesEverything, Bool.or_eq_true, Bool.not_eq_true',
      List.isEmpty_eq_false_iff, List.isEmpty_iff]
    exact or_iff_left_of_imp fun h => hp.resolve_right (absurd h)
  unfold filter
  split
  · next hall => exact iff_of_true hx (.inl (hsees.mp hall))
  · next hall =>
      rw [List.mem_filter, hname]
      simp only [hx, true_and, Principal.canSeeSubject, hall, Bool.false_or]
      exact (or_iff_right fun h => hall (hsees.mpr h)).symm

/-- A caller bound to the orders of one context sees them and may read them. -/
theorem mem_filter_orders :
    ":.eu:orders" ∈ filter (.fromUser ⟨[], [(.readonly, [".eu::orders"])]⟩)
      [":.eu:orders", "orders"] id
      ∧ authorized (.fromUser ⟨[], [(.readonly, [".eu::orders"])]⟩) .get
        (versionsPath (qualify ".eu" "orders")) = true := by
  have hmem : ":.eu:orders" ∈ filter (.fromUser ⟨[], [(.readonly, [".eu::orders"])]⟩)
      [":.eu:orders", "orders"] id := by decide
  exact ⟨hmem, (mem_filter_iff_authorized _ (by decide) ".eu" "orders" [":.eu:orders", "orders"] id
    ":.eu:orders" (by simp) (by decide)).mp hmem⟩

/-! ### Two readings of one name -/

section Naming

/-- How a name says what its context is. -/
inductive Form where
  | qualified
  | contextOnly
  | wildcard
  | plain
  deriving DecidableEq

def formOf (l : List Char) : Form :=
  if l.take 2 = [':', '.'] then if ':' ∈ l.drop 2 then .qualified else .contextOnly
  else if l.take 3 = [':', '*', ':'] then .wildcard
  else .plain

/-- A name of a given form, from what it parses to. -/
def written : Form → QualifiedSubject → List Char
  | .qualified, q => ':' :: q.context.toList ++ ':' :: q.subject.toList
  | .contextOnly, q => ':' :: q.context.toList
  | .wildcard, q => ':' :: '*' :: ':' :: q.subject.toList
  | .plain, q => q.subject.toList

/-- A name is determined by its form and what it parses to. -/
theorem written_parse (raw : String) :
    written (formOf raw.toList) (QualifiedSubject.parse raw) = raw.toList := by
  unfold QualifiedSubject.parse
  split
  · next rest hraw =>
      by_cases hcolon : ':' ∈ rest
      · obtain ⟨before, after, rfl, hbefore⟩ := List.eq_append_cons_of_mem hcolon
        rw [splitOnce_append hbefore, hraw]
        dsimp only
        rw [normalizeParsed_dot]
        simp [formOf, written]
      · rw [splitOnce_eq_none hcolon, hraw]
        dsimp only
        rw [normalizeParsed_dot]
        simp [formOf, hcolon, written]
  · next rest hraw => simp [hraw, formOf, written]
  · next hqualified hwildcard =>
      have htwo : raw.toList.take 2 ≠ [':', '.'] := fun h =>
        hqualified (raw.toList.drop 2) (by rw [← List.take_append_drop 2 raw.toList, h]; rfl)
      have hthree : raw.toList.take 3 ≠ [':', '*', ':'] := fun h =>
        hwildcard (raw.toList.drop 3) (by rw [← List.take_append_drop 3 raw.toList, h]; rfl)
      rw [formOf, if_neg htwo, if_neg hthree, written]

variable {l l' k : List Char}

/-- Characters other than the space and `+` are read alike. -/
theorem eq_iff_of_plusRead (h : List.Forall₂ (PlusReadChar ' ') l' l) (hk : ' ' ∉ k ∧ '+' ∉ k) :
    l' = k ↔ l = k := by
  constructor
  · rintro rfl
    induction h with
    | nil => rfl
    | @cons a b l₁ l₂ hab _ ih =>
      have hb : a = b := hab.resolve_right fun h => hk.1 (by simp [h.1])
      rw [hb,
        ih ⟨fun h => hk.1 (List.mem_cons_of_mem _ h), fun h => hk.2 (List.mem_cons_of_mem _ h)⟩]
  · rintro rfl
    induction h with
    | nil => rfl
    | @cons a b l₁ l₂ hab _ ih =>
      have hb : a = b := hab.resolve_right fun h => hk.2 (by simp [h.2])
      rw [hb,
        ih ⟨fun h => hk.1 (List.mem_cons_of_mem _ h), fun h => hk.2 (List.mem_cons_of_mem _ h)⟩]

theorem mem_iff_of_plusRead (h : List.Forall₂ (PlusReadChar ' ') l' l) {c : Char}
    (hc : c ≠ ' ' ∧ c ≠ '+') : c ∈ l' ↔ c ∈ l := by
  induction h with
  | nil => simp
  | cons hab _ ih =>
    rw [List.mem_cons, List.mem_cons, ih]
    rcases hab with rfl | ⟨rfl, rfl⟩
    · rfl
    · simp [hc]

theorem formOf_of_plusRead (h : List.Forall₂ (PlusReadChar ' ') l' l) : formOf l' = formOf l := by
  unfold formOf
  simp only [eq_iff_of_plusRead (List.forall₂_take 2 h) (k := [':', '.']) (by decide),
    eq_iff_of_plusRead (List.forall₂_take 3 h) (k := [':', '*', ':']) (by decide),
    mem_iff_of_plusRead (List.forall₂_drop 2 h) (c := ':') (by decide)]

/-- Two readings of a name that parse alike are the same name. -/
theorem parse_inj_of_plusRead {s t : String} (h : List.Forall₂ (PlusReadChar ' ') s.toList t.toList)
    (heq : QualifiedSubject.parse s = QualifiedSubject.parse t) : s = t := by
  have := written_parse s
  rw [formOf_of_plusRead h, heq, written_parse t] at this
  exact (String.toList_inj.mp this).symm

end Naming

section Deriving

variable {seg name : String}

theorem capturedText_eq_some : capturedText seg = some name ↔
    unescape 0x2B (utf8 seg) = utf8 name := by
  have hbytes : ∀ b : Bytes, b = utf8 name ↔ (⟨b.toArray⟩ : ByteArray) = name.toByteArray := by
    intro b
    rw [ByteArray.ext_iff, utf8, ← Array.toList_inj]
  rw [hbytes, capturedText, String.fromUTF8?]
  split
  · next hvalid => rw [Option.some.injEq, ← String.toByteArray_inj, String.fromUTF8]
  · next hvalid =>
      refine iff_of_false (by simp) fun h => hvalid ?_
      rw [h]
      exact name.isValidUTF8

theorem plus_mem_utf8 : 0x2B ∈ utf8 seg ↔ '+' ∈ seg.toList := mem_utf8 (by decide) rfl

/-- The decision reads a captured name with some of its `+` as spaces, and reads it as the
handler does exactly when it holds no `+`. -/
theorem percentDecode_spec (hname : capturedText seg = some name) :
    List.Forall₂ (PlusReadChar ' ') (percentDecode seg).toList name.toList ∧
      (percentDecode seg = name ↔ '+' ∉ seg.toList) := by
  rw [capturedText_eq_some] at hname
  have hread := unescape_forall₂ space (utf8 seg)
  rw [hname] at hread
  have hencoded : String.utf8EncodeChar ' ' = [space] := by decide
  obtain ⟨t, ht, hchars⟩ := exists_text_of_plusRead hencoded hread
  have hdecode : percentDecode seg = t := by rw [percentDecode, ht, fromUtf8Lossy_utf8]
  have hspace : space ≠ 0x2B := by decide
  rw [hdecode, ← plus_mem_utf8, ← unescape_eq_iff hspace, ht, hname]
  exact ⟨hchars, utf8_injective.eq_iff.symm⟩

/-- A name the router hands over with a `+` from the path is no context name. -/
theorem plus_not_mem_of_normalizeContext {ctx : String} (hname : capturedText seg = some name)
    (hctx : normalizeContext name = some ctx) : '+' ∉ seg.toList := by
  rw [← plus_mem_utf8]
  intro hplus
  have hmem : '+' ∈ name.toList := by
    rw [← plus_mem_utf8, ← capturedText_eq_some.mp hname]
    exact plus_mem_unescape hplus
  have hne : ¬ (name.isEmpty || name == defaultContext) ∧ name ≠ wildcardContext := by
    refine ⟨fun h => ?_, fun h => ?_⟩
    · rcases Bool.or_eq_true_iff.mp h with h | h
      · rw [String.isEmpty_iff.mp h] at hmem
        exact absurd hmem (by decide)
      · rw [beq_iff_eq.mp h] at hmem
        exact absurd hmem (by decide)
    · rw [h] at hmem
      exact absurd hmem (by decide)
  unfold normalizeContext at hctx
  rw [if_neg hne.1, if_neg (by simpa using hne.2)] at hctx
  -- Past the leading dot the name holds no `+`.
  have hfull : '+' ∈ (if name.toList.head? = some '.' then name else "." ++ name).toList.tail := by
    split
    · next hdot =>
        obtain ⟨rest, hrest⟩ : ∃ rest, name.toList = '.' :: rest := by
          cases hlist : name.toList with
          | nil => simp [hlist] at hdot
          | cons c rest => exact ⟨rest, by simpa [hlist] using hdot⟩
        rw [hrest] at hmem ⊢
        exact (List.mem_cons.mp hmem).resolve_left (by decide)
    · simpa using hmem
  dsimp only at hctx
  generalize (if name.toList.head? = some '.' then name else "." ++ name) = full at hctx hfull
  split at hctx
  · next hvalid =>
      rw [Bool.and_eq_true, List.all_eq_true] at hvalid
      exact absurd (hvalid.2 '+' hfull) (by decide)
  · cases hctx

end Deriving

/-- The routes to handlers that take a name from the path. -/
def namingRoutes : List Route := routes.filter fun r => r.handler.naming.isSome

theorem solid_of_naming : ∀ r ∈ namingRoutes, r.solid = true ∧ r.path ≠ [] := by decide

theorem names_context (ctx : String) : (Target.context ctx).names = some (ctx, "") := rfl

theorem names_subjectOrContext (raw : String) :
    (subjectOrContext raw).names = (subjectOnly raw).names := by
  by_cases h : (QualifiedSubject.parse (percentDecode raw)).isContextOnly
  · simp only [subjectOrContext, h, if_true, subjectOnly, Target.names, String.isEmpty_iff.mp h]
  · simp only [subjectOrContext, h, Bool.false_eq_true, if_false, subjectOnly]

/-- The decision is about the segment the handler captures first. -/
theorem names_of_route {r : Route} (hr : r ∈ namingRoutes) {path seg : String}
    {segs caps : List String} (hraw : rawSegments path = "" :: segs)
    (hmatch : matchSegs r.path segs = some (seg :: caps)) :
    (targetOf path).names = if r.handler.naming = some .subject then (subjectOnly seg).names
      else some ((normalizeContext (percentDecode seg)).getD "", "") := by
  obtain ⟨hsolid, hne⟩ := solid_of_naming r hr
  obtain ⟨-, hsegs⟩ := segments_of_route hsolid hne hraw hmatch
  simp only [targetOf, hsegs]
  clear hsegs hraw hsolid hne
  simp only [namingRoutes, routes, Handler.naming, List.filter_cons, List.filter_nil, if_true,
    Option.isSome_some, Option.isSome_none,
    Bool.false_eq_true, if_false, List.mem_cons, List.not_mem_nil, or_false] at hr
  rcases hr with rfl | rfl | rfl | rfl | rfl | rfl | rfl | rfl | rfl | rfl | rfl | rfl | rfl | rfl
    | rfl | rfl | rfl | rfl | rfl
  all_goals
    simp only [matchSegs_lit, matchSegs_capture, matchSegs_nil] at hmatch
    revert hmatch
    simp only [forall_exists_index, and_imp, List.cons.injEq]
    intros
    subst_vars
    simp [Handler.naming, names_subjectOrContext, names_context]

/-- Where a handler derives a (context, subject) from its path segment, the role decision is
about the same one exactly when the segment holds no `+`. -/
theorem names_targetOf_iff (method : Method) (path : String) (h : Handler) (seg : String)
    (caps : List String) (hd : dispatch method path = some (h, seg :: caps))
    (derived : String × String) (hderives : h.derives seg = some derived) :
    (targetOf path).names = some derived ↔ '+' ∉ seg.toList := by
  obtain ⟨r, hr, segs, rfl, -, hraw, hmatch⟩ := dispatch_spec hd
  simp only [Handler.derives, Option.bind_eq_bind, Option.bind_eq_some_iff] at hderives
  obtain ⟨naming, hnaming, name, hname, hderived⟩ := hderives
  obtain ⟨hread, hsame⟩ := percentDecode_spec hname
  rw [names_of_route (List.mem_filter.mpr ⟨hr, by rw [hnaming]; rfl⟩) hraw hmatch, hnaming]
  cases naming with
  | subject =>
    cases hderived
    rw [if_pos rfl, ← hsame, subjectOnly, Target.names, Option.some.injEq, Prod.mk.injEq]
    constructor
    · rintro ⟨hctx, hsubject⟩
      refine parse_inj_of_plusRead hread ?_
      cases hq : QualifiedSubject.parse name
      cases hq' : QualifiedSubject.parse (percentDecode seg)
      simp_all
    · intro heq
      rw [heq]
      exact ⟨rfl, rfl⟩
  | context =>
    obtain ⟨ctx, hctx, rfl⟩ := Option.map_eq_some_iff.mp hderived
    have hplus := plus_not_mem_of_normalizeContext hname hctx
    refine iff_of_true ?_ hplus
    rw [if_neg nofun, hsame.mpr hplus, hctx]
    rfl

/-- A segment with an escaped space is one name for both. -/
theorem names_targetOf_escapedSpace :
    (targetOf "/subjects/a%20b/versions").names = some (".", "a b") :=
  (names_targetOf_iff .get "/subjects/a%20b/versions" .listVersions "a%20b" [] (by decide)
    (".", "a b") (by decide)).mpr (by decide)

/-- A segment with a bare `+` is decided on as one subject and handled as another. -/
theorem names_targetOf_plus :
    dispatch .get "/subjects/a+b/versions" = some (.listVersions, ["a+b"]) ∧
      Handler.listVersions.derives "a+b" = some (".", "a+b") ∧
      (targetOf "/subjects/a+b/versions").names = some (".", "a b") := by
  decide

end SchemaRegistry.Authz

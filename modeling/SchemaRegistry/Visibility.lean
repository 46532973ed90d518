import SchemaRegistry.Lib.Lists
import SchemaRegistry.Authorization
import SchemaRegistry.ContextNames
import SchemaRegistry.Caching

/-!
What a reader bound to some subjects can learn from reads of a subject. The role decision is
about the subject a request names; the handler reads the rows of that subject, but goes on to
the same name in other contexts when the default context has nothing, takes defaults from the
settings around the subject, and asks the hash index of the whole context. Where it does none
of that, or where what it finds that way is the caller's to see, two registries that agree on
the caller's subjects give the same answer.
-/

namespace SchemaRegistry

open Lib

variable {srv : Server} {reg reg' : Registry} {now : Int} {guid : String} {verb : Verb}
  {ws : List Write} {evs : List LogEvent} {d : Draft} {normalize deleted : Bool}

/-! ### One subject in two registries -/

/-- Two views hold the same versions of a subject, with the same content. -/
structure Reader.SameSubject (r r' : Reader) (q : QualifiedSubject) : Prop where
  getVersion : ∀ v, r.getVersion q.context q.subject v = r'.getVersion q.context q.subject v
  listVersions : r.listVersions q.context q.subject = r'.listVersions q.context q.subject
  getSchema : ∀ p ∈ r.listVersions q.context q.subject,
    r.getSchema q.context p.2.id = r'.getSchema q.context p.2.id
  idUsages : ∀ id v, (q.subject, v) ∈ r.idUsages q.context id ↔
    (q.subject, v) ∈ r'.idUsages q.context id

section Subject

variable {r r' : Reader} {q : QualifiedSubject}

theorem Reader.SameSubject.getExact (h : Reader.SameSubject r r' q) (spec : VersionSpec)
    (deleted : Bool) : getExact r q spec deleted = getExact r' q spec deleted := by
  simp only [SchemaRegistry.getExact, h.listVersions]

theorem Reader.SameSubject.entity (h : Reader.SameSubject r r' q) {p : UInt32 × VersionRecord}
    (hp : p ∈ r.listVersions q.context q.subject) : entity r q p.1 p.2 = entity r' q p.1 p.2 := by
  simp only [SchemaRegistry.entity, h.getSchema p hp]

theorem Reader.SameSubject.firstLookup {Inner : Type} (h : Reader.SameSubject r r' q)
    (c : Canon Inner) {vs : List (UInt32 × VersionRecord)}
    (hvs : vs ⊆ r.listVersions q.context q.subject) :
    firstLookup r q c vs = firstLookup r' q c vs := by
  induction vs with
  | nil => rfl
  | cons p vs ih =>
    obtain ⟨v, vr⟩ := p
    rw [List.cons_subset] at hvs
    have hentity : SchemaRegistry.entity r q v vr = SchemaRegistry.entity r' q v vr :=
      h.entity hvs.1
    simp only [SchemaRegistry.firstLookup, hentity, ih hvs.2]

/-- What the hash index has to say about a subject's own versions. -/
def ownHit (srv : Server) (r : Reader) (q : QualifiedSubject) (c : Canon srv.fmt.Inner)
    (deleted : Bool) : Option (UInt32 × UInt32) :=
  match hashLookup srv r q c with
  | some (id, some (v, vr)) => if deleted || !vr.deleted then some (v, id) else none
  | _ => none

/-- The newest of the subject's own versions that hold an id. -/
def newestOwn (r : Reader) (q : QualifiedSubject) (id : UInt32) : Option UInt32 :=
  (((r.idUsages q.context id).filter fun p => p.1 == q.subject).map Prod.snd).max?

theorem newestOwn_spec {id v : UInt32} (h : newestOwn r q id = some v) :
    (q.subject, v) ∈ r.idUsages q.context id := by
  obtain ⟨hmem, -⟩ := List.max?_eq_some_iff.mp h
  obtain ⟨⟨subject, v'⟩, hp, rfl⟩ := List.mem_map.mp hmem
  obtain ⟨hp, hsubject⟩ := List.mem_filter.mp hp
  rwa [← beq_iff_eq.mp hsubject]

theorem ownHit_eq (srv : Server) (r : Reader) (q : QualifiedSubject) (c : Canon srv.fmt.Inner)
    (deleted : Bool) : ownHit srv r q c deleted =
      (r.idForFingerprint q.context c.fingerprint).bind fun id =>
        (newestOwn r q id).bind fun v => (r.getVersion q.context q.subject v).bind fun vr =>
          if deleted || !vr.deleted then some (v, id) else none := by
  unfold ownHit hashLookup newestOwn
  cases r.idForFingerprint q.context c.fingerprint with
  | none => rfl
  | some id =>
    simp only [Option.bind_eq_bind, Option.bind_some]
    generalize r.idUsages q.context id = usages
    cases usages with
    | nil => rfl
    | cons p usages =>
      simp only [List.isEmpty_cons, Bool.false_eq_true, if_false]
      cases (((p :: usages).filter fun p => p.1 == q.subject).map Prod.snd).max? with
      | none => rfl
      | some v => cases hv : r.getVersion q.context q.subject v <;> simp [hv]

theorem Reader.SameSubject.ownHit (h : Reader.SameSubject r r' q) (c : Canon srv.fmt.Inner)
    (deleted : Bool) (hindex : r.idForFingerprint q.context c.fingerprint
      = r'.idForFingerprint q.context c.fingerprint) :
    ownHit srv r q c deleted = ownHit srv r' q c deleted := by
  have hnewest : ∀ id, newestOwn r q id = newestOwn r' q id := by
    refine fun id => max?_congr fun v => ?_
    simp only [List.mem_map, List.mem_filter, beq_iff_eq, Prod.exists, exists_eq_right]
    exact h.idUsages id v
  rw [ownHit_eq, ownHit_eq, hindex]
  simp only [hnewest, h.getVersion]

theorem lookupUnderSubject_eq (srv : Server) (r : Reader) (q : QualifiedSubject) (d : Draft)
    (normalize deleted : Bool) : lookupUnderSubject srv r q d normalize deleted false =
      (canonicalize srv r q d false normalize).bind fun canon =>
        match canon with
        | none => .ok none
        | some c =>
            match ownHit srv r q c deleted with
            | some (v, id) => .ok (some (.fromCanon q v id c))
            | none => firstLookup r q c
                ((r.listVersions q.context q.subject).reverse.filter
                  fun p => deleted || !p.2.deleted) := by
  unfold lookupUnderSubject
  cases canonicalize srv r q d false normalize with
  | error e => rfl
  | ok canon =>
    cases canon with
    | none => rfl
    | some c =>
      unfold ownHit
      rfl

/-- Without references a schema is canonicalized alike everywhere. -/
theorem canonicalize_of_noRefs (hrefs : d.refs = []) (r r' : Reader)
    (q : QualifiedSubject) (isNew normalize : Bool) :
    canonicalize srv r q d isNew normalize = canonicalize srv r' q d isNew normalize := by
  simp only [canonicalize, hrefs, resolveReferences, resolveLoop]

theorem canonicalize_elsewhere (hrefs : d.refs = []) {q' : QualifiedSubject}
    {isNew normalize : Bool} {c : Option (Canon srv.fmt.Inner)}
    (h : canonicalize srv r q d isNew normalize = .ok c) :
    canonicalize srv r q' d isNew normalize = .ok c := by
  simp only [canonicalize, hrefs, resolveReferences, resolveLoop] at h ⊢
  split at h
  · exact h
  · obtain ⟨schemaType, htype, h⟩ := bind_eq_ok.mp h
    refine bind_eq_ok.mpr ⟨schemaType, htype, ?_⟩
    dsimp only [ok_bind] at h ⊢
    split at h
    · cases h
    · split at h
      · cases h
      · exact h

theorem Reader.SameSubject.lookupUnderSubject (h : Reader.SameSubject r r' q)
    (hrefs : d.refs = []) {normalize : Bool} (deleted : Bool)
    (hindex : ∀ c, canonicalize srv r q d false normalize = .ok (some c) →
      r.idForFingerprint q.context c.fingerprint = r'.idForFingerprint q.context c.fingerprint) :
    lookupUnderSubject srv r q d normalize deleted false
      = lookupUnderSubject srv r' q d normalize deleted false := by
  rw [lookupUnderSubject_eq, lookupUnderSubject_eq, canonicalize_of_noRefs hrefs r' r]
  cases hcanon : canonicalize srv r q d false normalize with
  | error e => rfl
  | ok canon =>
    cases canon with
    | none => rfl
    | some c =>
      have hlookup :
          SchemaRegistry.firstLookup r q c ((r.listVersions q.context q.subject).reverse.filter
            fun p => deleted || !p.2.deleted)
          = SchemaRegistry.firstLookup r' q c ((r'.listVersions q.context q.subject).reverse.filter
            fun p => deleted || !p.2.deleted) := by
        rw [← h.listVersions]
        exact h.firstLookup c fun p hp => List.mem_reverse.mp (List.mem_filter.mp hp).1
      simp only [Except.bind, h.ownHit c deleted (hindex c hcanon), hlookup]

/-- A schema is found under a version of the subject. -/
theorem firstLookup_spec {Inner : Type} {c : Canon Inner} {e : Entity}
    {vs : List (UInt32 × VersionRecord)} (h : firstLookup r q c vs = .ok (some e)) :
    e.subject = q.qualified ∧ ∃ p ∈ vs, p.2.id = e.id := by
  induction vs with
  | nil => cases h
  | cons p vs ih =>
    obtain ⟨v, vr⟩ := p
    obtain ⟨prev, hprev, h⟩ := bind_eq_ok.mp h
    split at h
    · cases h
      unfold entity at hprev
      split at hprev
      · cases hprev
        exact ⟨rfl, (v, vr), List.mem_cons_self, rfl⟩
      · cases hprev
    · obtain ⟨hsubject, p, hp, hid⟩ := ih h
      exact ⟨hsubject, p, List.mem_cons_of_mem _ hp, hid⟩

theorem lookupUnderSubject_spec (hc : reg.snapshot.Consistent) {e : Entity}
    (h : lookupUnderSubject srv reg.reader q d normalize deleted false = .ok (some e)) :
    e.subject = q.qualified ∧
      ∃ p ∈ reg.reader.listVersions q.context q.subject, p.2.id = e.id := by
  rw [lookupUnderSubject_eq] at h
  obtain ⟨canon, -, h⟩ := bind_eq_ok.mp h
  cases canon with
  | none => cases h
  | some c =>
    dsimp only at h
    split at h
    · next v id hhit =>
        cases h
        rw [ownHit_eq] at hhit
        obtain ⟨id', -, hhit⟩ := Option.bind_eq_some_iff.mp hhit
        obtain ⟨v', hnewest, hhit⟩ := Option.bind_eq_some_iff.mp hhit
        obtain ⟨vr, hrow, hhit⟩ := Option.bind_eq_some_iff.mp hhit
        obtain ⟨-, heq⟩ := Option.ite_none_right_eq_some.mp hhit
        cases heq
        obtain ⟨vr', hrow', hid⟩ := (Registry.mem_idUsages hc).mp (newestOwn_spec hnewest)
        exact ⟨rfl, (v, vr'), Registry.mem_listVersions.mpr hrow', hid⟩
    · obtain ⟨hsubject, p, hp, hid⟩ := firstLookup_spec h
      exact ⟨hsubject, p, List.mem_reverse.mp (List.mem_filter.mp hp).1, hid⟩

end Subject

/-! ### The same name in other contexts -/

section Contexts

/-- The other contexts in which a name has versions. -/
def usedContexts (r : Reader) (subject : String) : List String :=
  (r.listContexts.filter (· != defaultContext)).filter
    fun ctx => !(r.listVersions ctx subject).isEmpty

theorem sorted_usedContexts (r : Reader) (subject : String) :
    (usedContexts r subject).Pairwise fun a b => compare (id a) (id b) = .lt := by
  have hsorted : r.listContexts.Pairwise fun a b => compare a b = .lt :=
    Std.ExtTreeSet.ordered_toList
  exact (hsorted.filter _).filter _

theorem usedContexts_congr (hfiled : reg.rows.Filed) (hfiled' : reg'.rows.Filed) {subject : String}
    (hsame : ∀ ctx ∈ reg.reader.listContexts ++ reg'.reader.listContexts,
      Reader.SameSubject reg.reader reg'.reader ⟨ctx, subject⟩) :
    usedContexts reg.reader subject = usedContexts reg'.reader subject := by
  have hlisted : ∀ (reg : Registry), reg.rows.Filed → ∀ ctx,
      reg.reader.listVersions ctx subject ≠ [] → ctx ∈ reg.reader.listContexts := by
    intro reg hfiled ctx hne
    obtain ⟨p, hp⟩ := List.exists_mem_of_ne_nil _ hne
    exact Snapshot.mem_listContexts.mpr
      (.inr (hfiled ctx subject p.1 p.2 (Registry.mem_listVersions.mp hp)))
  refine eq_of_sorted_of_mem_iff (sorted_usedContexts _ _) (sorted_usedContexts _ _) fun ctx => ?_
  simp only [usedContexts, List.mem_filter, bne_iff_ne, Bool.not_eq_true',
    List.isEmpty_eq_false_iff]
  constructor
  · rintro ⟨⟨hctx, hother⟩, hne⟩
    have hversions := (hsame ctx (List.mem_append_left _ hctx)).listVersions
    dsimp only at hversions
    rw [hversions] at hne
    exact ⟨⟨hlisted reg' hfiled' ctx hne, hother⟩, hne⟩
  · rintro ⟨⟨hctx, hother⟩, hne⟩
    have hversions := (hsame ctx (List.mem_append_right _ hctx)).listVersions
    dsimp only at hversions
    rw [← hversions] at hne
    exact ⟨⟨hlisted reg hfiled ctx hne, hother⟩, hne⟩

variable {r r' : Reader} {subject : String}

theorem getExact_of_isEmpty {q : QualifiedSubject}
    (h : (r.listVersions q.context q.subject).isEmpty = true) (spec : VersionSpec)
    (deleted : Bool) :
    getExact r q spec deleted = none := by
  cases spec <;> simp [getExact, List.isEmpty_iff.mp h]

theorem searchContexts_eq (r : Reader) (subject : String) (spec : VersionSpec) (deleted : Bool) :
    ((r.listContexts.filter (· != defaultContext)).findSome? fun ctx =>
        (getExact r ⟨ctx, subject⟩ spec deleted).map ((⟨ctx, subject⟩ : QualifiedSubject), ·))
      = (usedContexts r subject).findSome? fun ctx =>
        (getExact r ⟨ctx, subject⟩ spec deleted).map ((⟨ctx, subject⟩ : QualifiedSubject), ·) := by
  refine (findSome?_filter fun ctx _ hempty => ?_).symm
  rw [getExact_of_isEmpty (q := ⟨ctx, subject⟩) (by simpa using hempty)]
  rfl

theorem lookupInContexts_filter {p : String → Bool}
    {ctxs : List String} (h : ∀ ctx ∈ ctxs, p ctx = false →
      lookupUnderSubject srv r ⟨ctx, subject⟩ d normalize deleted false = .ok none) :
    lookupInContexts srv r subject d normalize deleted (ctxs.filter p)
      = lookupInContexts srv r subject d normalize deleted ctxs := by
  induction ctxs with
  | nil => rfl
  | cons ctx ctxs ih =>
    have ih := ih fun c hc => h c (List.mem_cons_of_mem ctx hc)
    cases hp : p ctx with
    | true =>
      rw [List.filter_cons_of_pos hp]
      simp only [lookupInContexts, ih]
    | false =>
      rw [List.filter_cons_of_neg (by simp [hp]), ih]
      simp only [lookupInContexts, h ctx List.mem_cons_self hp]

/-- A context in which the name has no version has nothing to look up. -/
theorem lookupUnderSubject_of_isEmpty (hrefs : d.refs = [])
    (hc : reg.snapshot.Consistent) {q q' : QualifiedSubject}
    (hq : lookupUnderSubject srv reg.reader q d normalize deleted false = .ok none)
    (hempty : (reg.reader.listVersions q'.context q'.subject).isEmpty = true) :
    lookupUnderSubject srv reg.reader q' d normalize deleted false = .ok none := by
  rw [lookupUnderSubject_eq] at hq ⊢
  obtain ⟨canon, hcanon, -⟩ := bind_eq_ok.mp hq
  rw [canonicalize_elsewhere hrefs hcanon]
  cases canon with
  | none => rfl
  | some c =>
    have hnil := List.isEmpty_iff.mp hempty
    have hhit : ownHit srv reg.reader q' c deleted = none := by
      rw [ownHit_eq]
      refine Option.bind_eq_none_iff.mpr fun id _ => Option.bind_eq_none_iff.mpr fun v hv => ?_
      obtain ⟨vr, hrow, -⟩ := (Registry.mem_idUsages hc).mp (newestOwn_spec hv)
      have hmem : (v, vr) ∈ reg.reader.listVersions q'.context q'.subject :=
        Registry.mem_listVersions.mpr hrow
      rw [hnil] at hmem
      cases hmem
    simp only [Except.bind, hhit, hnil, List.reverse_nil, List.filter_nil, firstLookup]

theorem searchLookups_eq (hrefs : d.refs = []) (hc : reg.snapshot.Consistent) {q : QualifiedSubject}
    (hq : lookupUnderSubject srv reg.reader q d normalize deleted false = .ok none) :
    lookupInContexts srv reg.reader q.subject d normalize deleted
        (reg.reader.listContexts.filter (· != defaultContext))
      = lookupInContexts srv reg.reader q.subject d normalize deleted
        (usedContexts reg.reader q.subject) :=
  (lookupInContexts_filter fun _ _ hempty =>
    lookupUnderSubject_of_isEmpty hrefs hc hq (by simpa using hempty)).symm

theorem lookupInContexts_congr {ctxs : List String}
    (h : ∀ ctx ∈ ctxs, lookupUnderSubject srv r ⟨ctx, subject⟩ d normalize deleted false
      = lookupUnderSubject srv r' ⟨ctx, subject⟩ d normalize deleted false) :
    lookupInContexts srv r subject d normalize deleted ctxs
      = lookupInContexts srv r' subject d normalize deleted ctxs := by
  induction ctxs with
  | nil => rfl
  | cons ctx ctxs ih =>
    simp only [lookupInContexts, h ctx List.mem_cons_self,
      ih fun c hc => h c (List.mem_cons_of_mem ctx hc)]

theorem lookupInContexts_spec (hc : reg.snapshot.Consistent) {ctxs : List String} {e : Entity}
    (h : lookupInContexts srv reg.reader subject d normalize deleted ctxs = .ok (some e)) :
    ∃ ctx ∈ ctxs, e.subject = QualifiedSubject.qualified ⟨ctx, subject⟩ ∧
      ∃ p ∈ reg.reader.listVersions ctx subject, p.2.id = e.id := by
  induction ctxs with
  | nil => cases h
  | cons ctx ctxs ih =>
    have hrest : (∃ c ∈ ctxs, e.subject = QualifiedSubject.qualified ⟨c, subject⟩ ∧
        ∃ p ∈ reg.reader.listVersions c subject, p.2.id = e.id) →
        ∃ c ∈ ctx :: ctxs, e.subject = QualifiedSubject.qualified ⟨c, subject⟩ ∧
          ∃ p ∈ reg.reader.listVersions c subject, p.2.id = e.id :=
      fun ⟨c, hmem, hfound⟩ => ⟨c, List.mem_cons_of_mem ctx hmem, hfound⟩
    unfold lookupInContexts at h
    split at h
    · next hfound =>
        cases h
        exact ⟨ctx, List.mem_cons_self, lookupUnderSubject_spec hc hfound⟩
    · exact hrest (ih h)
    · split at h
      · exact hrest (ih h)
      · cases h

end Contexts

/-! ### Who may read -/

namespace Authz

/-- Parts that are all found in the empty name are no parts. -/
theorem afterParts_empty {anchored : Bool} {found : List String} (hfound : ∀ s ∈ found, s ≠ "")
    {rest : List Char} (h : afterParts anchored found [] = some rest) : found = [] := by
  cases found with
  | nil => rfl
  | cons part parts =>
    have hne : part.toList ≠ [] := fun e =>
      hfound part List.mem_cons_self (String.toList_eq_nil_iff.mp e)
    obtain ⟨c, cs, hpart⟩ := List.exists_cons_of_ne_nil hne
    cases anchored <;> simp [afterParts, afterFirst, hpart] at h

/-- A glob that is not empty and matches the empty name matches every name. -/
theorem Glob.matches_of_empty {raw : String} (hne : raw ≠ "")
    (h : (Glob.parse raw).matches "" = true) (s : String) : (Glob.parse raw).matches s = true := by
  unfold Glob.parse at h ⊢
  split at h
  · next hstar => simp [hstar, Glob.matches]
  · next hstar =>
      rw [if_neg hstar]
      split at h
      · next hlit => exact absurd (beq_iff_eq.mp h) hne
      · next hlit =>
          rw [if_neg hlit]
          have hfound :
              ∀ s ∈ ((raw.toList.splitOn '*').filter fun p => !p.isEmpty).map String.ofList,
              s ≠ "" := by
            intro s hs e
            obtain ⟨l, hl, rfl⟩ := List.mem_map.mp hs
            have hl := (List.mem_filter.mp hl).2
            rw [← String.toList_eq_nil_iff, String.toList_ofList] at e
            simp [e] at hl
          simp only [Glob.matches, String.toList_empty] at h ⊢
          split at h
          · next rest hrest =>
              -- Nothing but stars, so the pattern is open at its end.
              have hnil := afterParts_empty hfound hrest
              have hstars : ∀ c ∈ raw.toList, c = '*' := by
                intro c hc
                by_contra hne
                obtain ⟨l, hl, hmem⟩ := mem_splitOn_of_ne hc hne
                have hkept : String.ofList l ∈ ((raw.toList.splitOn '*').filter
                    fun p => !p.isEmpty).map String.ofList :=
                  List.mem_map_of_mem (List.mem_filter.mpr ⟨hl, by simp [List.ne_nil_of_mem hmem]⟩)
                rw [hnil] at hkept
                cases hkept
              have hopen : raw.toList.getLast? = some '*' := by
                cases hlast : raw.toList.getLast? with
                | none =>
                  rw [List.getLast?_eq_none_iff, String.toList_eq_nil_iff] at hlast
                  exact absurd hlast hne
                | some c => rw [hstars c (List.mem_of_mem_getLast? hlast)]
              rw [hnil]
              simp [afterParts, hopen]
          · cases h

/-- A subject pattern that matches the empty name matches every name. -/
theorem Pattern.matches_of_empty {raw : String} {p : Pattern} (h : Pattern.parse raw = .ok p)
    {ctx : String} (hempty : p.matches ctx "" = true) (subject : String) :
    p.matches ctx subject = true := by
  unfold Pattern.parse at h
  split at h
  all_goals
    simp only [ite_error_eq_ok, Except.ok.injEq] at h
    obtain ⟨hne, rfl⟩ := h
    simp only [Pattern.matches, Bool.and_eq_true] at hempty ⊢
    exact ⟨hempty.1, Glob.matches_of_empty (fun e => hne (by rw [e]; rfl)) hempty.2 subject⟩

theorem bound_of_empty {u : UserConfig} {ctx : String}
    (h : (Principal.fromUser u).bound ctx "" = true) (subject : String) :
    (Principal.fromUser u).bound ctx subject = true := by
  simp only [Principal.bound, Principal.fromUser, List.any_eq_true, List.mem_map] at h ⊢
  obtain ⟨b, ⟨b', hb', rfl⟩, pattern, hpattern, hmatches⟩ := h
  refine ⟨_, ⟨b', hb', rfl⟩, pattern, hpattern, ?_⟩
  obtain ⟨raw, -, hraw⟩ := List.mem_filterMap.mp hpattern
  cases hparse : Pattern.parse raw with
  | error e => simp [hparse, Except.toOption] at hraw
  | ok p =>
    simp only [hparse, Except.toOption, Option.some.injEq] at hraw
    subst hraw
    exact Pattern.matches_of_empty hparse hmatches subject

theorem allows_nil (method : Method) (path : String) (target : Target) :
    allows [] method path target = false := by
  simp [allows]

/-- The handlers that answer with one version of a subject. -/
def Handler.readsSubject : Handler → Bool
  | getVersion | getVersionRaw | lookupSchema => true
  | _ => false

theorem targetOf_of_readsSubject {method : Method} {path seg : String} {h : Handler}
    {caps : List String} (hd : dispatch method path = some (h, seg :: caps))
    (hr : h.readsSubject = true) : targetOf path = subjectOnly seg := by
  obtain ⟨r, hmem, segs, rfl, -, hraw, hmatch⟩ := dispatch_spec hd
  have hread : r ∈ routes.filter fun r => r.handler.readsSubject := List.mem_filter.mpr ⟨hmem, hr⟩
  have hsolid : ∀ r ∈ routes.filter (fun r => r.handler.readsSubject),
      r.solid = true ∧ r.path ≠ [] := by decide
  obtain ⟨-, hsegs⟩ := segments_of_route (hsolid r hread).1 (hsolid r hread).2 hraw hmatch
  simp only [targetOf, hsegs]
  clear hsegs hraw hsolid hd
  simp only [routes, Handler.readsSubject, List.filter_cons, List.filter_nil, if_true,
    Bool.false_eq_true, if_false, List.mem_cons, List.not_mem_nil, or_false] at hread
  rcases hread with rfl | rfl | rfl
  all_goals
    simp only [matchSegs_lit, matchSegs_capture, matchSegs_nil] at hmatch
    revert hmatch
    simp only [forall_exists_index, and_imp, List.cons.injEq]
    intros
    subst_vars
    rfl

/-- Whoever holds bindings only and may read a subject has a binding that matches it, if the
name in the path holds no `+`. -/
theorem bound_of_authorized {p : Principal} (hroles : p.roles = []) {method : Method}
    {path seg name : String} {h : Handler} {caps : List String}
    (hd : dispatch method path = some (h, seg :: caps)) (hr : h.readsSubject = true)
    (hname : capturedText seg = some name) (hplus : '+' ∉ seg.toList)
    (hauth : authorized p method path = true) :
    p.bound (QualifiedSubject.parse name).context (QualifiedSubject.parse name).subject = true := by
  have hsame : percentDecode seg = name := (percentDecode_spec hname).2.mpr hplus
  rw [authorized, targetOf_of_readsSubject hd hr, subjectOnly, hsame] at hauth
  dsimp only at hauth
  have hne : p.rolesForSubject (QualifiedSubject.parse name) ≠ [] := by
    intro hnil
    rw [hnil, allows_nil] at hauth
    cases hauth
  exact (rolesForSubject_ne_nil.mp hne).resolve_left (absurd hroles)

end Authz

/-! ### Two registries that agree on what a caller may see -/

/-- The registries hold the same rows of every subject that a binding matches: its versions
with their content, the references to them, its config and its mode. -/
structure SameVisible (p : Authz.Principal) (reg reg' : Registry) : Prop where
  version : ∀ ctx s v, p.bound ctx s = true →
    reg.rows (.version ctx s v) = reg'.rows (.version ctx s v)
  body : ∀ ctx s v vr, p.bound ctx s = true → reg.rows (.version ctx s v) = some vr →
    reg.rows (.body ctx vr.id) = reg'.rows (.body ctx vr.id)
  refby : ∀ ctx s v id, p.bound ctx s = true →
    reg.rows (.refby ctx s v id) = reg'.rows (.refby ctx s v id)
  config : ∀ ctx s, p.bound ctx s = true →
    reg.rows (.config (.subject ctx s)) = reg'.rows (.config (.subject ctx s))
  mode : ∀ ctx s, p.bound ctx s = true →
    reg.rows (.mode (.subject ctx s)) = reg'.rows (.mode (.subject ctx s))

/-- The schemas of the subjects that a binding matches reference nothing. -/
def NoVisibleRefs (p : Authz.Principal) (reg : Registry) : Prop :=
  ∀ ctx s v vr rec, p.bound ctx s = true → reg.rows (.version ctx s v) = some vr →
    reg.rows (.body ctx vr.id) = some rec → rec.references = []

theorem SameVisible.sameSubject {p : Authz.Principal} (h : SameVisible p reg reg')
    (hc : reg.snapshot.Consistent) (hc' : reg'.snapshot.Consistent) {q : QualifiedSubject}
    (hq : p.bound q.context q.subject = true) :
    Reader.SameSubject reg.reader reg'.reader q where
  getVersion v := h.version q.context q.subject v hq
  listVersions := Snapshot.listVersions_congr fun v => h.version q.context q.subject v hq
  getSchema row hrow := h.body q.context q.subject row.1 row.2 hq
    (Registry.mem_listVersions.mp hrow)
  idUsages id v := by
    rw [Registry.mem_idUsages hc, Registry.mem_idUsages hc', h.version q.context q.subject v hq]

/-- A read of one subject, as its handler is asked for it. -/
inductive SubjectRead where
  | version (spec : VersionSpec) (deleted : Bool) (format : Option String)
  | lookup (req : RegisterSchemaRequest) (normalize deleted : Bool) (format : Option String)

namespace SubjectRead

def servedBy : SubjectRead → Authz.Handler → Bool
  | .version .., h => h == .getVersion || h == .getVersionRaw
  | .lookup .., h => h == .lookupSchema

def answer (srv : Server) (out : Rendering srv.fmt.Inner) (s : Cached srv.fmt) (subject : String) :
    SubjectRead → ApiResult Entity
  | .version spec deleted format =>
      getVersionFormatted srv out s.parser s.reg.reader subject spec deleted format
  | .lookup req normalize deleted format =>
      lookupFormatted srv out s.parser s.reg.reader subject req normalize deleted format

/-- The answer may hold a parse of the stored schema. -/
def Serializes : SubjectRead → Prop
  | .version _ _ format | .lookup _ _ _ format => formatAsked format = some "serialized"

/-- The request comes without references. -/
def NoRefs : SubjectRead → Prop
  | .version .. => True
  | .lookup req _ _ _ => (Draft.ofRequest req).refs = []

/-- Nothing is found under the name in its own context. -/
def Missing (srv : Server) (r : Reader) (q : QualifiedSubject) : SubjectRead → Prop
  | .version spec deleted _ => getExact r q spec deleted = none
  | .lookup req normalize deleted _ => lookupUnderSubject srv r q (Draft.ofRequest req)
      (normalize || normalizeInScope srv r q) deleted false = .ok none

/-- The contexts in which a read looks for its name: its own, and for one that the default
context does not have, all others. -/
def Consults (srv : Server) (r r' : Reader) (q : QualifiedSubject) (read : SubjectRead)
    (ctx : String) : Prop :=
  ctx = q.context ∨ q.context = defaultContext ∧ read.Missing srv r q ∧
    ctx ∈ r.listContexts ++ r'.listContexts

/-- What a lookup needs beyond the rows of its subject: the same setting for normalization,
the same answer of the hash indexes, and, to be formatted, a name that is read back as it was
written. -/
def LookupAlike (srv : Server) (r r' : Reader) (q : QualifiedSubject) (consults : String → Prop) :
    SubjectRead → Prop
  | .version .. => True
  | .lookup req normalize _ format =>
      (normalize || normalizeInScope srv r q) = (normalize || normalizeInScope srv r' q) ∧
      (∀ c, canonicalize srv r q (Draft.ofRequest req) false
          (normalize || normalizeInScope srv r q) = .ok (some c) →
        ∀ ctx, consults ctx →
          r.idForFingerprint ctx c.fingerprint = r'.idForFingerprint ctx c.fingerprint) ∧
      (formatAsked format = none ∨ ∀ ctx, consults ctx →
        QualifiedSubject.parse (QualifiedSubject.qualified ⟨ctx, q.subject⟩) = ⟨ctx, q.subject⟩)

/-- A read that stays with what the caller may see: wherever else it looks for its name, the
caller has a binding that matches, and a lookup is answered alike by the settings and the
indexes. -/
structure Confined (srv : Server) (p : Authz.Principal) (r r' : Reader) (q : QualifiedSubject)
    (read : SubjectRead) : Prop where
  elsewhere : ∀ ctx, read.Consults srv r r' q ctx → ctx ≠ q.context → p.bound ctx q.subject = true
  alike : read.LookupAlike srv r r' q (read.Consults srv r r' q)

theorem Confined.visible {p : Authz.Principal} {r r' : Reader} {q : QualifiedSubject}
    {read : SubjectRead} (h : read.Confined srv p r r' q)
    (hown : p.bound q.context q.subject = true) :
    ∀ ctx, read.Consults srv r r' q ctx → p.bound ctx q.subject = true := by
  intro ctx hctx
  by_cases hsame : ctx = q.context
  · rw [hsame]
    exact hown
  · exact h.elsewhere ctx hctx hsame

end SubjectRead

section Reads

variable {u : Authz.UserConfig} {q : QualifiedSubject} {out : Rendering srv.fmt.Inner}

theorem parseRecord_of_noRefs {rec : SchemaRecord} (hrefs : rec.references = []) (r r' : Reader)
    (ctx : String) : parseRecord srv r ctx rec = parseRecord srv r' ctx rec := by
  simp only [parseRecord, resolveStored, hrefs, List.map_nil, resolveReferences, resolveLoop]

/-- Two coherent caches answer alike about a body that both containers store. -/
theorem formatted_congr {s s' : Cached srv.fmt} {ctx : String} {id : UInt32} {rec : SchemaRecord}
    {format : String} (hrefs : rec.references = [])
    (hrec : s.reg.reader.getSchema ctx id = some rec)
    (hrec' : s'.reg.reader.getSchema ctx id = some rec)
    (hcache : format = "serialized" → s.RecordsCoherent ∧ s'.RecordsCoherent) :
    formatted srv out s.parser ctx id rec format
      = formatted srv out s'.parser ctx id rec format := by
  unfold formatted
  split
  · split
    · rfl
    · obtain ⟨hs, hs'⟩ := hcache rfl
      rw [hs ctx id rec hrec, hs' ctx id rec hrec', parseRecord_of_noRefs hrefs]
    · rfl
  · rfl

/-- A subject is there for both, and so is a context that a binding covers. -/
theorem hasSubjects_congr (h : SameVisible (.fromUser u) reg reg') (hc : reg.snapshot.Consistent)
    (hc' : reg'.snapshot.Consistent)
    (hq : (Authz.Principal.fromUser u).bound q.context q.subject = true) (deleted : Bool) :
    hasSubjects reg.reader q deleted = hasSubjects reg'.reader q deleted := by
  unfold hasSubjects
  rw [(h.sameSubject hc hc' hq).listVersions]
  by_cases honly : q.isContextOnly = true
  · have hall : ∀ s, (Authz.Principal.fromUser u).bound q.context s = true := by
      rw [String.isEmpty_iff.mp honly] at hq
      exact Authz.bound_of_empty hq
    have hnames : reg.reader.listSubjectNames q.context = reg'.reader.listSubjectNames q.context :=
      Snapshot.listSubjectNames_congr hc hc' fun s v => h.version q.context s v (hall s)
    have hversions : ∀ s, reg.reader.listVersions q.context s
        = reg'.reader.listVersions q.context s :=
      fun s => Snapshot.listVersions_congr fun v => h.version q.context s v (hall s)
    simp only [hnames, hversions]
  · simp [honly]

/-- What a read finds is a version of its name, in a context it looks in. -/
theorem getUsingContexts_spec {r : Reader} {spec : VersionSpec} {deleted : Bool}
    {found : QualifiedSubject × UInt32 × VersionRecord}
    (h : getUsingContexts r q spec deleted = some found) :
    found.1.subject = q.subject ∧ found.2 ∈ r.listVersions found.1.context found.1.subject ∧
      (found.1.context = q.context ∨ q.context = defaultContext ∧
        getExact r q spec deleted = none ∧ found.1.context ∈ r.listContexts) := by
  unfold getUsingContexts at h
  split at h
  · next row hexact =>
      cases h
      exact ⟨rfl, mem_of_getExact hexact, .inl rfl⟩
  · next hexact =>
      split at h
      · cases h
      · next hdefault =>
          obtain ⟨ctx, hctx, hfound⟩ := List.exists_of_findSome?_eq_some h
          obtain ⟨row, hrow, rfl⟩ := Option.map_eq_some_iff.mp hfound
          exact ⟨rfl, mem_of_getExact hrow,
            .inr ⟨not_not.mp hdefault, hexact, (List.mem_filter.mp hctx).1⟩⟩

/-- Both registries find the same version. -/
theorem getUsingContexts_congr (hfiled : reg.rows.Filed) (hfiled' : reg'.rows.Filed)
    (hown : Reader.SameSubject reg.reader reg'.reader q) {spec : VersionSpec} {deleted : Bool}
    (hothers : q.context = defaultContext → getExact reg.reader q spec deleted = none →
      ∀ ctx ∈ reg.reader.listContexts ++ reg'.reader.listContexts,
        Reader.SameSubject reg.reader reg'.reader ⟨ctx, q.subject⟩) :
    getUsingContexts reg.reader q spec deleted = getUsingContexts reg'.reader q spec deleted := by
  unfold getUsingContexts
  rw [← hown.getExact]
  cases hexact : getExact reg.reader q spec deleted with
  | some row => rfl
  | none =>
    by_cases hdefault : q.context = defaultContext
    · have hsame := hothers hdefault hexact
      simp only [hdefault, ne_eq, not_true_eq_false, if_false]
      rw [searchContexts_eq, searchContexts_eq, ← usedContexts_congr hfiled hfiled' hsame]
      refine findSome?_congr fun ctx hctx => ?_
      have hlisted : ctx ∈ reg.reader.listContexts :=
        (List.mem_filter.mp (List.mem_filter.mp hctx).1).1
      rw [(hsame ctx (List.mem_append_left _ hlisted)).getExact]
    · simp only [ne_eq, hdefault, not_false_eq_true, if_true]

/-- A GET of a version is answered alike. -/
theorem getVersionFormatted_congr {s s' : Cached srv.fmt}
    (h : SameVisible (.fromUser u) s.reg s'.reg) (hrefs : NoVisibleRefs (.fromUser u) s.reg)
    (hc : s.reg.snapshot.Consistent) (hc' : s'.reg.snapshot.Consistent)
    (hfiled : s.reg.rows.Filed) (hfiled' : s'.reg.rows.Filed)
    {subject : String} {spec : VersionSpec} {deleted : Bool} {format : Option String}
    (hvisible : ∀ ctx, (SubjectRead.version spec deleted format).Consults srv s.reg.reader
      s'.reg.reader (QualifiedSubject.parse subject) ctx →
      (Authz.Principal.fromUser u).bound ctx (QualifiedSubject.parse subject).subject = true)
    (hcache : formatAsked format = some "serialized" → s.RecordsCoherent ∧ s'.RecordsCoherent) :
    getVersionFormatted srv out s.parser s.reg.reader subject spec deleted format
      = getVersionFormatted srv out s'.parser s'.reg.reader subject spec deleted format := by
  have hown := h.sameSubject hc hc' (hvisible _ (.inl rfl))
  have hfound : getUsingContexts s.reg.reader (QualifiedSubject.parse subject) spec deleted
      = getUsingContexts s'.reg.reader (QualifiedSubject.parse subject) spec deleted :=
    getUsingContexts_congr hfiled hfiled' hown fun hdefault hmissing ctx hctx =>
      h.sameSubject hc hc' (hvisible ctx (.inr ⟨hdefault, hmissing, hctx⟩))
  unfold getVersionFormatted versionOrError
  dsimp only
  rw [← hfound, ← hasSubjects_congr h hc hc' (hvisible _ (.inl rfl))]
  cases hget : getUsingContexts s.reg.reader (QualifiedSubject.parse subject) spec deleted with
  | none => simp only [error_bind]
  | some found =>
    obtain ⟨⟨ctx, name⟩, v, vr⟩ := found
    obtain ⟨hs, hrow, hctx⟩ := getUsingContexts_spec hget
    dsimp only at hs hrow hctx
    subst hs
    have hbound : (Authz.Principal.fromUser u).bound ctx (QualifiedSubject.parse subject).subject
        = true :=
      hvisible ctx (hctx.imp id fun ⟨hd, hm, hl⟩ => ⟨hd, hm, List.mem_append_left _ hl⟩)
    have hsame := h.sameSubject hc hc' (q := ⟨ctx, _⟩) hbound
    have hrow := Registry.mem_listVersions.mp hrow
    have hbody : s.reg.reader.getSchema ctx vr.id = s'.reg.reader.getSchema ctx vr.id :=
      hsame.getSchema (v, vr) (Registry.mem_listVersions.mpr hrow)
    simp only [ok_bind, ← hbody]
    cases hrec : s.reg.reader.getSchema ctx vr.id with
    | none => rfl
    | some rec =>
      cases hformat : formatAsked format with
      | none => rfl
      | some f =>
        have hnone := hrefs ctx _ v vr rec hbound hrow hrec
        simp only [formatted_congr hnone hrec (hbody ▸ hrec) fun hf => hcache (hf ▸ hformat)]

/-- A lookup finds the same in its own context. -/
theorem lookupUsingContexts_congr (hc : reg.snapshot.Consistent) (hc' : reg'.snapshot.Consistent)
    (hfiled : reg.rows.Filed) (hfiled' : reg'.rows.Filed) (hd : d.refs = [])
    (hown : Reader.SameSubject reg.reader reg'.reader q)
    (hindex : ∀ c, canonicalize srv reg.reader q d false normalize = .ok (some c) →
      reg.reader.idForFingerprint q.context c.fingerprint
        = reg'.reader.idForFingerprint q.context c.fingerprint)
    (hothers : q.context = defaultContext →
      lookupUnderSubject srv reg.reader q d normalize deleted false = .ok none →
      ∀ ctx ∈ reg.reader.listContexts ++ reg'.reader.listContexts,
        Reader.SameSubject reg.reader reg'.reader ⟨ctx, q.subject⟩ ∧
        ∀ c, canonicalize srv reg.reader q d false normalize = .ok (some c) →
          reg.reader.idForFingerprint ctx c.fingerprint
            = reg'.reader.idForFingerprint ctx c.fingerprint) :
    lookupUsingContexts srv reg.reader q d normalize deleted
      = lookupUsingContexts srv reg'.reader q d normalize deleted := by
  unfold lookupUsingContexts
  rw [← hown.lookupUnderSubject hd deleted hindex]
  cases hlookup : lookupUnderSubject srv reg.reader q d normalize deleted false with
  | error e => rfl
  | ok found =>
    cases found with
    | some e => rfl
    | none =>
      by_cases hdefault : q.context = defaultContext
      · have hsame := hothers hdefault hlookup
        simp only [ok_bind, hdefault, ne_eq, not_true_eq_false, if_false]
        rw [searchLookups_eq hd hc hlookup,
          searchLookups_eq hd hc' ((hown.lookupUnderSubject hd deleted hindex).symm.trans hlookup),
          ← usedContexts_congr hfiled hfiled' fun ctx hctx => (hsame ctx hctx).1]
        refine lookupInContexts_congr fun ctx hctx => ?_
        have hlisted : ctx ∈ reg.reader.listContexts :=
          (List.mem_filter.mp (List.mem_filter.mp hctx).1).1
        obtain ⟨hsubject, hindex'⟩ := hsame ctx (List.mem_append_left _ hlisted)
        refine hsubject.lookupUnderSubject hd deleted fun c hcanon => hindex' c ?_
        exact canonicalize_elsewhere hd hcanon
      · simp only [ok_bind, ne_eq, hdefault, not_false_eq_true, if_true]

/-- What a lookup finds is a version of its name, in a context it looks in. -/
theorem lookupUsingContexts_spec (hc : reg.snapshot.Consistent) {e : Entity}
    (h : lookupUsingContexts srv reg.reader q d normalize deleted = .ok (some e)) :
    ∃ ctx, (ctx = q.context ∨ q.context = defaultContext ∧
        lookupUnderSubject srv reg.reader q d normalize deleted false = .ok none ∧
        ctx ∈ reg.reader.listContexts) ∧
      e.subject = QualifiedSubject.qualified ⟨ctx, q.subject⟩ ∧
      ∃ p ∈ reg.reader.listVersions ctx q.subject, p.2.id = e.id := by
  obtain ⟨found, hown, h⟩ := bind_eq_ok.mp h
  cases found with
  | some e' =>
    cases h
    exact ⟨q.context, .inl rfl, lookupUnderSubject_spec hc hown⟩
  | none =>
    dsimp only at h
    split at h
    · cases h
    · next hdefault =>
        obtain ⟨ctx, hctx, hfound⟩ := lookupInContexts_spec hc h
        exact ⟨ctx, .inr ⟨not_not.mp hdefault, hown, (List.mem_filter.mp hctx).1⟩, hfound⟩

section Lookup

variable {subject : String} {req : RegisterSchemaRequest}
  {format : Option String}

theorem lookup_congr (h : SameVisible (.fromUser u) reg reg') (hc : reg.snapshot.Consistent)
    (hc' : reg'.snapshot.Consistent) (hfiled : reg.rows.Filed) (hfiled' : reg'.rows.Filed)
    (hd : (Draft.ofRequest req).refs = [])
    (hown : (Authz.Principal.fromUser u).bound (QualifiedSubject.parse subject).context
      (QualifiedSubject.parse subject).subject = true)
    (hconf : (SubjectRead.lookup req normalize deleted format).Confined srv (.fromUser u)
      reg.reader reg'.reader (QualifiedSubject.parse subject)) :
    lookup srv reg.reader subject req normalize deleted
      = lookup srv reg'.reader subject req normalize deleted := by
  obtain ⟨hnormalize, hindex, -⟩ := hconf.alike
  unfold lookup
  dsimp only
  rw [← hnormalize, ← hasSubjects_congr h hc hc' hown,
    lookupUsingContexts_congr hc hc' hfiled hfiled'
    hd (h.sameSubject hc hc' hown) (fun c hcanon => hindex c hcanon _ (.inl rfl))]
  intro hdefault hmissing ctx hctx
  have hconsults : (SubjectRead.lookup req normalize deleted format).Consults srv
      reg.reader reg'.reader (QualifiedSubject.parse subject) ctx := .inr ⟨hdefault, hmissing, hctx⟩
  exact ⟨h.sameSubject hc hc' (hconf.visible hown ctx hconsults),
    fun c hcanon => hindex c hcanon ctx hconsults⟩

theorem lookupFormatted_congr {s s' : Cached srv.fmt}
    (h : SameVisible (.fromUser u) s.reg s'.reg) (hrefs : NoVisibleRefs (.fromUser u) s.reg)
    (hc : s.reg.snapshot.Consistent) (hc' : s'.reg.snapshot.Consistent)
    (hfiled : s.reg.rows.Filed) (hfiled' : s'.reg.rows.Filed) (hd : (Draft.ofRequest req).refs = [])
    (hown : (Authz.Principal.fromUser u).bound (QualifiedSubject.parse subject).context
      (QualifiedSubject.parse subject).subject = true)
    (hconf : (SubjectRead.lookup req normalize deleted format).Confined srv (.fromUser u)
      s.reg.reader s'.reg.reader (QualifiedSubject.parse subject))
    (hcache : formatAsked format = some "serialized" → s.RecordsCoherent ∧ s'.RecordsCoherent) :
    lookupFormatted srv out s.parser s.reg.reader subject req normalize deleted format
      = lookupFormatted srv out s'.parser s'.reg.reader subject req normalize deleted format := by
  unfold lookupFormatted
  rw [← lookup_congr h hc hc' hfiled hfiled' hd hown hconf]
  cases hlookup : lookup srv s.reg.reader subject req normalize deleted with
  | error e => simp only [error_bind]
  | ok e =>
    simp only [ok_bind]
    cases hformat : formatAsked format with
    | none => rfl
    | some f =>
      obtain ⟨found, hfound, hlookup⟩ := bind_eq_ok.mp hlookup
      cases found with
      | none => cases hlookup
      | some e' =>
        cases hlookup
        obtain ⟨ctx, hctx, hsubject, row, hrow, hid⟩ := lookupUsingContexts_spec hc hfound
        have hconsults : (SubjectRead.lookup req normalize deleted format).Consults srv
            s.reg.reader s'.reg.reader (QualifiedSubject.parse subject) ctx :=
          hctx.imp id fun ⟨hdefault, hmissing, hlisted⟩ =>
            ⟨hdefault, hmissing, List.mem_append_left _ hlisted⟩
        have hbound := hconf.visible hown ctx hconsults
        have hparse := hconf.alike.2.2.resolve_left (by simp [hformat]) ctx hconsults
        have hsame := (h.sameSubject hc hc' (q := ⟨ctx, _⟩) hbound).getSchema row hrow
        rw [hsubject, hparse]
        dsimp only at hsame ⊢
        rw [hid] at hsame
        rw [← hsame]
        cases hrec : s.reg.reader.getSchema ctx e.id with
        | none => rfl
        | some rec =>
          have hnone := hrefs ctx _ row.1 row.2 rec hbound
            (Registry.mem_listVersions.mp hrow) (by rw [hid]; exact hrec)
          simp only [formatted_congr hnone hrec (hsame ▸ hrec) fun hf => hcache (hf ▸ hformat)]

end Lookup

end Reads

/-- May read the orders of the default context, and nothing else. -/
def ordersReader : Authz.UserConfig := ⟨[], [(.readonly, ["orders"])]⟩

/-- No format is rendered. -/
def plainRendering : Rendering plainServer.fmt.Inner := ⟨some, fun _ => none⟩

/-- A GET of the first version. -/
def firstVersion : SubjectRead := .version (.exact 1) false none

theorem bound_ordersReader {ctx subject : String} :
    (Authz.Principal.fromUser ordersReader).bound ctx subject = true ↔
      ctx = "." ∧ subject = "orders" := by
  have hbindings : (Authz.Principal.fromUser ordersReader).bindings
      = [(.readonly, [⟨.literal ".", .literal "orders"⟩])] := by decide
  rw [Authz.Principal.bound, hbindings]
  simp only [List.any_cons, List.any_nil, Bool.or_false, Authz.Pattern.matches, Authz.Glob.matches,
    Bool.and_eq_true, beq_iff_eq]
  constructor
  · rintro ⟨rfl, rfl⟩
    exact ⟨rfl, rfl⟩
  · rintro ⟨rfl, rfl⟩
    exact ⟨rfl, rfl⟩

/-- Making the items read-only leaves every row but their mode. -/
theorem rows_lockItems (reg : Registry) {k : RowKey} (hk : k ≠ .mode (.subject "." "items")) :
    reg.rows k
      = (reg.step plainServer (plainRequest (.setMode (some "items") .readonly false))).rows k := by
  rcases Registry.step_cases plainServer reg
    (plainRequest (.setMode (some "items") .readonly false)) with hstep | ⟨plan, hplan, hstep⟩
  · rw [hstep]
  · have hscope : scopeOf (SetMode.new (some "items") .readonly false).subject
        = .subject "." "items" := by decide
    rw [hstep, Registry.rows_apply]
    cases hplan
    rw [hscope]
    rcases writeAll_cases Write.touch reg.rows [.putMode (.subject "." "items") .readonly] k with
      ⟨hsame, -⟩ | ⟨w, hw, hx⟩
    · exact hsame.symm
    · obtain rfl := List.mem_singleton.mp hw
      cases k <;> simp [Write.touch] at hx
      exact (hk (congrArg RowKey.mode hx.1.symm)).elim

end SchemaRegistry

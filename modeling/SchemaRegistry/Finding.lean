import SchemaRegistry.Repeat

/-!
Looking up what was registered. A lookup compares the request as it was sent, a
registration stores what it inherited and merged: the two meet when merging leaves
the request's metadata and rules as they were sent, and not otherwise.
-/

namespace SchemaRegistry

open Lib

variable {srv : Server} {reg reg' : Registry} {now : Int} {guid : String} {m : RegisterSchema}

/-- The validation a normalizing registration asks for may refuse a schema; it does not change
how an accepted one is read. -/
def Formats.ValidationOnlyRefuses (fmt : Formats) : Prop :=
  ∀ schemaType text refs parsed, fmt.parseWith schemaType text refs true = .ok parsed →
    fmt.parseWith schemaType text refs false = .ok parsed

/-- A request that is stored with the metadata and rules it came with. -/
structure RegisterSchema.StoredAsSent (srv : Server) (view : ReadView) (m : RegisterSchema) : Prop
    extends m.Fits view.reader where
  metadata : m.mergedMetadata srv view.reader = m.draft.metadata
  ruleSet : mergeRuleSets (m.ruleLayers srv view.reader) = m.draft.ruleSet
  /-- With defaults or overrides there is no fast path: the content is new then. -/
  stores : (configInScope srv view.reader m.subject).hasDefaultsOrOverrides = true →
    ∃ x, m.resolve srv view = .ok (.inr x)

/-- What such a request inherits changes nothing. -/
theorem RegisterSchema.StoredAsSent.inherited (h : m.StoredAsSent srv (reg.view now guid))
    (hmode : modeFor reg.reader (.subject m.subject) = .readwrite) {d : Draft} {modified : Bool}
    (hd : m.inherited srv (reg.view now guid) = .ok (d, modified)) : d = m.draft := by
  have hnormal : modeFor reg.reader (.subject m.subject) ≠ .«import» := by
    rw [hmode]
    decide
  obtain rfl | rfl := inherited_eq h.text hnormal hd
  · rfl
  · rw [h.metadata, h.ruleSet]

/-- A validated reading is the plain reading. -/
theorem Canonicalizes.unvalidated (hval : srv.fmt.ValidationOnlyRefuses) {r : Reader}
    {q : QualifiedSubject} {d : Draft} {isNew normalize : Bool} {c : Canon srv.fmt.Inner}
    (h : Canonicalizes srv r q d isNew normalize c) :
    Canonicalizes srv r q d false normalize c := by
  obtain ⟨text, resolved, hschema, hblank, hres, hparse⟩ := h.parsed
  refine ⟨h.schemaType, ⟨text, resolved, hschema, hblank, hres, ?_⟩, h.normalizes, h.text,
    h.metadata, h.ruleSet⟩
  rw [Bool.and_false]
  cases hflag : normalize && isNew with
  | false => rwa [hflag] at hparse
  | true => exact hval _ _ _ _ (hflag ▸ hparse)

/-- The search for an equal version finds none where a lookup does not. -/
theorem findEqual_of_firstLookup {r : Reader} {q : QualifiedSubject} {c : Canon srv.fmt.Inner}
    {schemaId : Int32} {vs : List (UInt32 × VersionRecord)}
    (h : firstLookup r q c vs = .ok none) :
    RegisterSchema.findEqual r q c schemaId vs = .ok none := by
  induction vs with
  | nil => rfl
  | cons p vs ih =>
    obtain ⟨e, he, h⟩ := bind_eq_ok.mp h
    split at h
    · cases h
    · next hcan =>
        unfold RegisterSchema.findEqual
        split
        · exact ih h
        · rw [he, ok_bind, if_neg hcan]
          exact ih h

/-- A lookup that finds nothing: neither the hash index nor a search through the live versions
does. -/
theorem lookup_eq_none {r : Reader} {q : QualifiedSubject} {d : Draft} {normalize : Bool}
    {c : Canon srv.fmt.Inner} (hc : canonicalize srv r q d false normalize = .ok (some c))
    (h : lookupUnderSubject srv r q d normalize false false = .ok none) :
    (∀ id v vr, hashLookup srv r q c = some (id, some (v, vr)) → vr.deleted = true) ∧
      firstLookup r q c (RegisterSchema.undeleted r q) = .ok none := by
  unfold lookupUnderSubject at h
  rw [hc, ok_bind] at h
  simp only [Bool.false_eq_true, if_false, Bool.false_or] at h
  split at h
  · cases h
  · next hhit =>
      refine ⟨fun id v vr hlookup => ?_, h⟩
      rw [hlookup] at hhit
      simpa using hhit

/-- A registration whose lookup found nothing, and whose content is the request's, stores. -/
theorem resolve_ne_inl (hval : srv.fmt.ValidationOnlyRefuses)
    (h : m.StoredAsSent srv (reg.view now guid))
    (hmode : modeFor reg.reader (.subject m.subject) = .readwrite)
    (hversion : m.draft.version = 0)
    (hnone : lookupUnderSubject srv reg.reader m.subject m.draft
      (m.normalize srv (reg.view now guid)) false false = .ok none) (out : RegisterResponse) :
    m.resolve srv (reg.view now guid) ≠ .ok (.inl out) := by
  intro hresolve
  simp only [RegisterSchema.resolve, bind_eq_ok] at hresolve
  obtain ⟨⟨d, modified⟩, hd, canon, hcanon, hresolve⟩ := hresolve
  obtain rfl := h.inherited hmode hd
  cases canon with
  | none => cases hresolve
  | some c =>
    have hc := (canonicalize_eq_some.mp hcanon).unvalidated hval
    obtain ⟨hlive, hsearch⟩ := lookup_eq_none (canonicalize_eq_some.mpr hc) hnone
    have hafter : ∀ schemaId out', RegisterSchema.resolve.afterHash srv reg.reader m.subject
        m.draft modified c schemaId ≠ .ok (.inl out') := by
      intro schemaId out' hafter
      have hequal : RegisterSchema.equalVersion reg.reader m.subject m.draft c schemaId
          = .ok none := by
        unfold RegisterSchema.equalVersion
        rw [hversion]
        exact findEqual_of_firstLookup hsearch
      unfold RegisterSchema.resolve.afterHash at hafter
      rw [hequal, ok_bind] at hafter
      cases hafter
    dsimp only at hresolve
    split at hresolve
    · next id v vr hhit =>
        have hdel := hlive id v vr (Option.filter_eq_some_iff.mp hhit).1
        rw [if_neg (by simp [hdel])] at hresolve
        exact hafter _ _ hresolve
    · exact hafter _ _ hresolve
    · exact hafter _ _ hresolve

/-- What the hash index files under a live newest version is looked up as that version. -/
theorem lookup_of_hash {r : Reader} {q : QualifiedSubject} {d : Draft} {normalize : Bool}
    {c : Canon srv.fmt.Inner} (hc : canonicalize srv r q d false normalize = .ok (some c))
    {id v : UInt32} {vr : VersionRecord} (hlookup : hashLookup srv r q c = some (id, some (v, vr)))
    (hlive : vr.deleted = false) :
    lookupUnderSubject srv r q d normalize false false = .ok (some (.fromCanon q v id c)) := by
  unfold lookupUnderSubject
  rw [hc, ok_bind]
  simp only [Bool.false_eq_true, if_false, hlookup, hlive, Bool.false_or, Bool.not_false, if_true]

/-- The fast path of a request without a number is a lookup. -/
theorem fastPath_eq {r : Reader} (hplain : (configInScope srv r m.subject).hasDefaultsOrOverrides
      = false) (hid : m.draft.id < 0) (hversion : m.draft.version = 0) {normalize : Bool}
    {fast : Option RegisterResponse}
    (h : registerFastPath srv r m.subject m.draft normalize = .ok fast) :
    ∃ found, lookupUnderSubject srv r m.subject m.draft normalize false false = .ok found ∧
      fast = found.map fun e => .ofId e.id := by
  unfold registerFastPath at h
  rw [hplain, if_neg (by simp)] at h
  dsimp only at h
  rw [hversion] at h
  obtain ⟨found, hfound, h⟩ := bind_eq_ok.mp h
  refine ⟨found, hfound, ?_⟩
  cases found with
  | none =>
    cases h
    rfl
  | some e =>
    simp only [beq_self_eq_true, Bool.true_or, if_true, hid, decide_true] at h
    cases h
    rfl

/-- With defaults or overrides the fast path has no answer. -/
theorem plain_of_fastPath {r : Reader} {normalize : Bool} {out : RegisterResponse}
    (h : registerFastPath srv r m.subject m.draft normalize = .ok (some out)) :
    (configInScope srv r m.subject).hasDefaultsOrOverrides = false := by
  unfold registerFastPath at h
  split at h
  · cases h
  · next hplain => exact Bool.eq_false_iff.mpr hplain

/-- What a registration has answered with is found by a lookup of the same request. -/
theorem found_of_decide (hval : srv.fmt.ValidationOnlyRefuses) (hs : reg.Sound srv.fmt)
    (hsent : registerFastPath srv reg.reader m.subject m.draft (m.normalize srv (reg.view now guid))
      = .ok none → m.StoredAsSent srv (reg.view now guid))
    (hmode : modeFor reg.reader (.subject m.subject) = .readwrite) (hid : m.draft.id < 0)
    (hversion : m.draft.version = 0) {subject : String} {req : RegisterSchemaRequest}
    {normalize : Bool} (hm : RegisterSchema.new subject req normalize = .ok m)
    {plan : Plan RegisterResponse}
    (hdecide : (m.mutation srv).decide (reg.view now guid) = .ok plan) :
    ∃ e, lookupUnderSubject srv (reg.apply plan).reader m.subject m.draft
      (m.normalize srv ((reg.apply plan).view now guid)) false false = .ok (some e) ∧
      e.id = plan.output.id := by
  obtain ⟨fast, hfast⟩ := fastPath_of_decide hdecide
  rw [decide_mutation hid hmode hfast] at hdecide
  cases fast with
  | some out =>
    cases hdecide
    obtain ⟨found, hfound, hout⟩ := fastPath_eq (plain_of_fastPath hfast) hid hversion hfast
    obtain ⟨e, rfl, rfl⟩ := Option.map_eq_some_iff.mp hout.symm
    exact ⟨e, hfound, rfl⟩
  | none =>
    have hsent := hsent hfast
    rcases registerPlan_cases hdecide with ⟨out, hresolve, -⟩ | ⟨x, version, id, hx, hv, hid', hp⟩
    · cases hplain : (configInScope srv reg.reader m.subject).hasDefaultsOrOverrides with
      | false =>
        obtain ⟨found, hfound, hnone⟩ := fastPath_eq hplain hid hversion hfast
        obtain rfl := Option.map_eq_none_iff.mp hnone.symm
        exact (resolve_ne_inl hval hsent hmode hversion hfound out hresolve).elim
      | true =>
        obtain ⟨x, hx⟩ := hsent.stores hplain
        cases hresolve.symm.trans hx
    · have hs' := hs.apply (effect_register hm hdecide)
      have happ := appended_of_plan hs hsent.toFits hversion hx hv hid' hs'.consistent
        ((Registry.rows_apply reg plan).trans (by rw [hp, Registry.view_reader]))
      have houtput : plan.output.id = id := by
        rw [hp]
        exact id_answer _ _
      obtain ⟨⟨modified, hinherited⟩, hcanon⟩ := inherited_of_resolve hx
      rw [hsent.inherited hmode hinherited] at hcanon
      have hc := canonicalize_eq_some.mpr ((canonicalize_eq_some.mp hcanon).unvalidated hval)
      rw [Registry.view_reader, ← happ.canonicalize hsent.refs,
        ← happ.normalize srv now now guid guid] at hc
      exact ⟨_, lookup_of_hash hc (happ.hashLookup happ.index) happ.rowLive, houtput.symm⟩

theorem lookup_eq_ok {r : Reader} {subject : String} {req : RegisterSchemaRequest}
    {normalize : Bool} {e : Entity}
    (h : lookupUnderSubject srv r (QualifiedSubject.parse subject) (Draft.ofRequest req)
      (normalize || normalizeInScope srv r (QualifiedSubject.parse subject)) false false
        = .ok (some e)) :
    lookup srv r subject req normalize false = .ok e := by
  unfold lookup lookupUsingContexts
  dsimp only
  rw [h]
  rfl

/-- A version with metadata. -/
def taggedHistory : List Request :=
  [plainRequest (.register "s"
    { schema := some "\"string\"", metadata := some (oneProperty "team" "b") } false)]

/-- The id a registration is answered with, and why a lookup of the same request fails then. -/
def lookupAfter (srv : Server) (reg : Registry) (subject : String) (req : RegisterSchemaRequest) :
    Option (UInt32 × Option Nat) :=
  match (Verb.register subject req false).run srv reg 0 "guid" with
  | .error _ => none
  | .ok (out, reg') =>
      some (RegisterResponse.id out, refusal (lookup srv reg'.reader subject req false false))

end SchemaRegistry

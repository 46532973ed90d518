import SchemaRegistry.References

/-!
The dry run of a registration and the registration itself. Both canonicalize the
request's schema alike; they may compare it with different versions, because a
compatibility group is read off the request's own metadata by the one and off the
inherited and merged metadata by the other.
-/

namespace SchemaRegistry

open Lib

variable {srv : Server} {r : Reader} {q : QualifiedSubject}

/-! ### What a canonical form is -/

/-- Everything that goes into the canonical form of a draft. -/
structure Canonicalizes (srv : Server) (r : Reader) (q : QualifiedSubject) (d : Draft)
    (isNew normalize : Bool) (c : Canon srv.fmt.Inner) : Prop where
  schemaType : SchemaType.parse d.schemaType = .ok c.schemaType
  parsed : ∃ text resolved, d.schema = some text ∧ isBlank text = false ∧
    resolveReferences r q.context d.refs = .ok (c.refs, resolved, c.targets) ∧
    srv.fmt.parseWith c.schemaType text resolved (normalize && isNew) = .ok c.parsed
  normalizes : (if normalize then c.parsed.normalizeError else none) = none
  text : c.text = if normalize then c.parsed.normalized else c.parsed.canonical
  metadata : c.metadata = d.metadata
  ruleSet : c.ruleSet = d.ruleSet

theorem canonicalize_eq_some {d : Draft} {isNew normalize : Bool} {c : Canon srv.fmt.Inner} :
    canonicalize srv r q d isNew normalize = .ok (some c) ↔
      Canonicalizes srv r q d isNew normalize c := by
  constructor
  · intro h
    unfold canonicalize at h
    split at h
    · cases h
    · next text htext =>
        obtain ⟨hschema, hblank⟩ := Option.filter_eq_some_iff.mp htext
        obtain ⟨schemaType, htype, h⟩ := bind_eq_ok.mp h
        split at h
        · cases h
        · next refs resolved targets hres =>
            split at h
            · cases h
            · next parsed hparse =>
                split at h
                · cases h
                · next hnorm =>
                    cases h
                    exact ⟨htype, ⟨text, resolved, hschema, by simpa using hblank, hres, hparse⟩,
                      hnorm, rfl, rfl, rfl⟩
  · rintro ⟨htype, ⟨text, resolved, hschema, hblank, hres, hparse⟩, hnorm, htext, hmeta, hrules⟩
    have hfilter : d.schema.filter (fun s => !isBlank s) = some text := by simp [hschema, hblank]
    obtain ⟨schemaType, ctext, refs, targets, metadata, ruleSet, parsed⟩ := c
    dsimp only at htype hres hparse hnorm htext hmeta hrules
    unfold canonicalize
    rw [hfilter]
    dsimp only
    rw [htype, ok_bind, hres]
    dsimp only
    rw [hparse]
    dsimp only
    rw [hnorm, htext, hmeta, hrules]

theorem Canonicalizes.not_blank {d : Draft} {isNew normalize : Bool} {c : Canon srv.fmt.Inner}
    (h : Canonicalizes srv r q d isNew normalize c) : d.schema.all isBlank = false := by
  obtain ⟨text, -, hschema, hblank, -⟩ := h.parsed
  simp [hschema, hblank]

/-- Two drafts with the same schema, and perhaps other metadata and rules. -/
structure Draft.SameSchema (d d' : Draft) : Prop where
  schema : d'.schema = d.schema
  schemaType : d'.schemaType = d.schemaType
  refs : d'.refs = d.refs

/-- The schema part of a canonical form comes from the schema part of the draft. -/
theorem Canonicalizes.sameSchema {d d' : Draft} (hd : d.SameSchema d') {isNew normalize : Bool}
    {c : Canon srv.fmt.Inner} (h : Canonicalizes srv r q d isNew normalize c) :
    Canonicalizes srv r q d' isNew normalize
      { c with metadata := d'.metadata, ruleSet := d'.ruleSet } := by
  obtain ⟨text, resolved, hschema, hblank, hres, hparse⟩ := h.parsed
  exact ⟨hd.schemaType ▸ h.schemaType, ⟨text, resolved, hd.schema ▸ hschema, hblank,
    hd.refs ▸ hres, hparse⟩, h.normalizes, h.text, rfl, rfl⟩

/-- A draft that is not blank keeps its schema. -/
theorem populateFromPrevious_eq {cfg : ConfigRecord} {d d' : Draft}
    {latest : Option (UInt32 × VersionRecord)} {next : UInt32} {modified : Bool}
    (hd : d.schema.all isBlank = false)
    (h : populateFromPrevious r q cfg d latest next = .ok (d', modified)) :
    ∃ previous, latest.mapM (fun p => entity r q p.1 p.2) = .ok previous ∧
      (d', modified) = inheritMetadata cfg d false previous next := by
  simp only [populateFromPrevious, bind_eq_ok, Except.ok.injEq] at h
  obtain ⟨previous, hprev, ⟨d₁, populated⟩, hschema, h⟩ := h
  simp only [inheritSchema, hd, Bool.false_eq_true, if_false, Except.ok.injEq, Prod.mk.injEq]
    at hschema
  obtain ⟨rfl, rfl⟩ := hschema
  exact ⟨previous, hprev, h.symm⟩

theorem sameSchema_inheritMetadata (cfg : ConfigRecord) (d : Draft) (populated : Bool)
    (previous : Option Entity) (next : UInt32) :
    d.SameSchema (inheritMetadata cfg d populated previous next).1 := by
  constructor <;>
    simp only [inheritMetadata, apply_ite Prod.fst, apply_ite Draft.schema,
      apply_ite Draft.schemaType, apply_ite Draft.refs, ite_self]

theorem sameSchema_inherited {m : RegisterSchema} {view : ReadView} {d : Draft} {modified : Bool}
    (hd : m.draft.schema.all isBlank = false) (h : m.inherited srv view = .ok (d, modified)) :
    m.draft.SameSchema d := by
  simp only [RegisterSchema.inherited] at h
  split at h
  · cases h
    exact ⟨rfl, rfl, rfl⟩
  · obtain ⟨previous, -, heq⟩ := populateFromPrevious_eq hd h
    have := sameSchema_inheritMetadata (configInScope srv view.reader m.subject) m.draft false
      previous (RegisterSchema.newVersion
        (view.reader.listVersions m.subject.context m.subject.subject))
    rwa [← heq] at this

/-! ### What a registration merges -/

/-- The newest live version's content. -/
def previousBody (r : Reader) (q : QualifiedSubject) : Option SchemaRecord :=
  (RegisterSchema.undeleted r q).head?.bind fun p => r.getSchema q.context p.2.id

namespace RegisterSchema

/-- The metadata that a registration merges: defaults, the request's or the previous
version's, overrides. -/
def metadataLayers (srv : Server) (r : Reader) (m : RegisterSchema) : List (Option Json) :=
  [(configInScope srv r m.subject).defaultMetadata,
    m.draft.metadata.or ((previousBody r m.subject).bind (·.metadata)),
    (configInScope srv r m.subject).overrideMetadata]

/-- The rules that a registration merges. -/
def ruleLayers (srv : Server) (r : Reader) (m : RegisterSchema) : List (Option Json) :=
  [(configInScope srv r m.subject).defaultRuleSet,
    m.draft.ruleSet.or ((previousBody r m.subject).bind (·.ruleSet)),
    (configInScope srv r m.subject).overrideRuleSet]

/-- The merged metadata, with the next number where a number comes with it. -/
def mergedMetadata (srv : Server) (r : Reader) (m : RegisterSchema) : Option Json :=
  let merged := mergeMetadata (m.metadataLayers srv r)
  if m.draft.version ≠ 0 || (metadataProperty merged "confluent:version").isSome then
    withConfluentVersion merged (newVersion (r.listVersions m.subject.context m.subject.subject))
  else merged

end RegisterSchema

/-- The layers a registration inherits are those of the newest live version's content. -/
theorem layers_of_previous {r : Reader} {q : QualifiedSubject} {previous : Option Entity}
    (h : (RegisterSchema.undeleted r q).head?.mapM (fun p => entity r q p.1 p.2) = .ok previous) :
    previous.bind (·.metadata) = (previousBody r q).bind (·.metadata) ∧
      previous.bind (·.ruleSet) = (previousBody r q).bind (·.ruleSet) := by
  unfold previousBody
  cases hhead : (RegisterSchema.undeleted r q).head? with
  | none =>
    rw [hhead] at h
    cases h
    exact ⟨rfl, rfl⟩
  | some p =>
    rw [hhead, Option.mapM_some] at h
    obtain ⟨e, he, h⟩ := bind_eq_ok.mp h
    cases h
    unfold entity at he
    split at he
    · next body hbody =>
        cases he
        simp [hbody, Entity.stored]
    · cases he

/-- What a request with a text of its own is turned into: the merged metadata and rules take the
place of its own, unless there are none. -/
theorem inherited_eq {m : RegisterSchema} {view : ReadView} {d : Draft} {modified : Bool}
    (hd : m.draft.schema.all isBlank = false)
    (hmode : modeFor view.reader (.subject m.subject) ≠ .«import»)
    (h : m.inherited srv view = .ok (d, modified)) :
    d = m.draft ∨ d = { m.draft with
      metadata := m.mergedMetadata srv view.reader
      ruleSet := mergeRuleSets (m.ruleLayers srv view.reader) } := by
  unfold RegisterSchema.inherited at h
  dsimp only at h
  rw [if_neg (by simpa using hmode)] at h
  obtain ⟨previous, hprevious, hdraft⟩ := populateFromPrevious_eq hd h
  obtain ⟨hmeta, hrules⟩ := layers_of_previous hprevious
  have hmerged : d = if (m.mergedMetadata srv view.reader).isSome
        || (mergeRuleSets (m.ruleLayers srv view.reader)).isSome
      then { m.draft with
        metadata := m.mergedMetadata srv view.reader
        ruleSet := mergeRuleSets (m.ruleLayers srv view.reader) }
      else m.draft := by
    refine (congrArg Prod.fst hdraft).trans ?_
    simp only [inheritMetadata, hmeta, hrules, apply_ite Prod.fst]
    rfl
  split at hmerged
  · exact .inr hmerged
  · exact .inl hmerged

/-- A version is to be stored: neither the fast path nor the plan finds the content there. -/
def RegisterSchema.Stores (srv : Server) (view : ReadView) (m : RegisterSchema) : Prop :=
  registerFastPath srv view.reader m.subject m.draft (m.normalize srv view) = .ok none ∧
    ∃ x, m.resolve srv view = .ok (.inr x)

/-! ### Failures other than an incompatibility -/

section NoConflict

variable {α β : Type}

/-- Whatever it fails with, it is not an incompatibility (409). -/
def NoConflict (x : ApiResult α) : Prop := ∀ e, x = .error e → e.code ≠ 409

theorem noConflict_ok (a : α) : NoConflict (.ok a) := nofun

theorem noConflict_error {e : ApiError} (h : e.code ≠ 409) :
    NoConflict (.error e : ApiResult α) := by
  intro e' he'
  cases he'
  exact h

theorem NoConflict.bind {x : ApiResult α} {f : α → ApiResult β} (hx : NoConflict x)
    (hf : ∀ a, x = .ok a → NoConflict (f a)) : NoConflict (x >>= f) := by
  cases x with
  | error e => exact fun e' h => hx e' (by cases h; rfl)
  | ok a => exact hf a rfl

theorem noConflict_entity (r : Reader) (q : QualifiedSubject) (v : UInt32) (vr : VersionRecord) :
    NoConflict (entity r q v vr) := by
  unfold entity
  split
  · exact noConflict_ok _
  · exact noConflict_error (by decide)

theorem noConflict_canonicalize (d : Draft) (isNew normalize : Bool) :
    NoConflict (canonicalize srv r q d isNew normalize) := by
  unfold canonicalize
  split
  · exact noConflict_ok _
  · refine NoConflict.bind ?_ fun schemaType _ => ?_
    · unfold SchemaType.parse
      split
      · exact noConflict_ok _
      · split_ifs
        · exact noConflict_ok _
        · exact noConflict_ok _
        · exact noConflict_ok _
        · exact noConflict_error (by simp)
    · split
      · exact noConflict_error (by simp [Draft.invalid])
      · split
        · exact noConflict_error (by simp [Draft.invalid])
        · split
          · exact noConflict_error (by simp [Draft.invalid])
          · exact noConflict_ok _

theorem noConflict_firstLookup (c : Canon srv.fmt.Inner) (vs : List (UInt32 × VersionRecord)) :
    NoConflict (firstLookup r q c vs) := by
  induction vs with
  | nil => exact noConflict_ok _
  | cons p vs ih =>
    refine (noConflict_entity r q p.1 p.2).bind fun prev _ => ?_
    split
    · exact noConflict_ok _
    · exact ih

theorem noConflict_lookupUnderSubject (d : Draft) (normalize deleted latestOnly : Bool) :
    NoConflict (lookupUnderSubject srv r q d normalize deleted latestOnly) := by
  refine (noConflict_canonicalize d false normalize).bind fun canon _ => ?_
  split
  · dsimp only
    split
    · exact noConflict_ok _
    · split
      · exact noConflict_firstLookup _ _
      · exact noConflict_firstLookup _ _
  · exact noConflict_ok _

theorem noConflict_registerFastPath (d : Draft) (normalize : Bool) :
    NoConflict (registerFastPath srv r q d normalize) := by
  unfold registerFastPath
  split
  · exact noConflict_ok _
  · refine (noConflict_lookupUnderSubject d normalize false _).bind fun existing _ => ?_
    split
    · split_ifs <;> try exact noConflict_ok _
      split
      · exact noConflict_ok _
      · refine (noConflict_entity r q _ _).bind fun older _ => ?_
        split_ifs <;> exact noConflict_ok _
    · exact noConflict_ok _

theorem noConflict_gate (intent : Intent) (mode : Mode) (scope : String) :
    NoConflict (modegateCheck intent mode scope) := by
  cases intent <;> cases mode <;>
    first
      | exact noConflict_ok _
      | exact noConflict_error (by simp [ApiError.operationNotPermitted])

theorem noConflict_inherited (m : RegisterSchema) (view : ReadView) :
    NoConflict (m.inherited srv view) := by
  unfold RegisterSchema.inherited
  dsimp only
  split
  · exact noConflict_ok _
  · refine NoConflict.bind ?_ fun previous _ => NoConflict.bind ?_ fun p _ => noConflict_ok _
    · cases (RegisterSchema.undeleted view.reader m.subject).head? with
      | none => exact noConflict_ok _
      | some p => exact (noConflict_entity _ _ p.1 p.2).bind fun e _ => noConflict_ok _
    · unfold inheritSchema
      split
      · split
        · exact noConflict_error (by decide)
        · exact noConflict_ok _
      · exact noConflict_ok _

theorem noConflict_findEqual (c : Canon srv.fmt.Inner) (schemaId : Int32)
    (vs : List (UInt32 × VersionRecord)) :
    NoConflict (RegisterSchema.findEqual r q c schemaId vs) := by
  induction vs with
  | nil => exact noConflict_ok _
  | cons p vs ih =>
    unfold RegisterSchema.findEqual
    split
    · exact ih
    · refine (noConflict_entity r q p.1 p.2).bind fun e _ => ?_
      split
      · exact noConflict_ok _
      · exact ih

theorem noConflict_afterHash (d : Draft) (modified : Bool) (c : Canon srv.fmt.Inner)
    (schemaId : Int32) :
    NoConflict (RegisterSchema.resolve.afterHash srv r q d modified c schemaId) := by
  refine NoConflict.bind ?_ fun equal _ => ?_
  · unfold RegisterSchema.equalVersion
    split
    · exact noConflict_findEqual c schemaId _
    · exact noConflict_ok _
  · split <;> exact noConflict_ok _

theorem noConflict_resolve (m : RegisterSchema) (view : ReadView) :
    NoConflict (m.resolve srv view) := by
  refine (noConflict_inherited m view).bind fun p _ => ?_
  refine (noConflict_canonicalize _ _ _).bind fun canon _ => ?_
  dsimp only
  split
  · exact noConflict_error (by decide)
  · split
    · split
      · exact noConflict_ok _
      · exact noConflict_afterHash _ _ _ _
    · exact noConflict_afterHash _ _ _ _
    · exact noConflict_afterHash _ _ _ _

theorem noConflict_chooseVersion (imports : Bool) (d : Draft) (next : UInt32) :
    NoConflict (RegisterSchema.chooseVersion imports d next) := by
  unfold RegisterSchema.chooseVersion
  split_ifs
  · exact noConflict_ok _
  · exact noConflict_error (by decide)
  · exact noConflict_ok _

theorem noConflict_chooseId (ctx fp : String) (schemaId : Int32) :
    NoConflict (RegisterSchema.chooseId r ctx fp schemaId) := by
  unfold RegisterSchema.chooseId
  split
  · dsimp only
    split
    · split
      · exact noConflict_error (by simp [ApiError.operationNotPermitted])
      · exact noConflict_ok _
    · exact noConflict_ok _
  · exact noConflict_ok _

/-- Only the compatibility check of a plan can fail as one. -/
theorem noConflict_plan {m : RegisterSchema} {view : ReadView}
    (h : modeFor view.reader (.subject m.subject) ≠ .«import» →
      ∀ x, m.resolve srv view = .ok (.inr x) →
        NoConflict (RegisterSchema.checkCompatible srv view m.subject x.canon)) :
    NoConflict (m.plan srv view) := by
  refine (noConflict_resolve m view).bind fun res hres => ?_
  have hrest : ∀ x : RegisterSchema.Resolved srv.fmt.Inner, NoConflict (do
      let version ← RegisterSchema.chooseVersion
        (modeFor view.reader (.subject m.subject) == .«import») x.draft
        (RegisterSchema.newVersion (view.reader.listVersions m.subject.context m.subject.subject))
      let id ← RegisterSchema.chooseId view.reader m.subject.context x.canon.fingerprint x.schemaId
      let gone := RegisterSchema.replaced view.reader m.subject version id
      (.ok
        { writes := gone.1 ++ RegisterSchema.added srv view m.subject version id x.canon
          events := gone.2 ++ [⟨m.subject.context, m.subject.subject, version, id, .register⟩]
          output := RegisterSchema.answer x.modified (.fromCanon m.subject version id x.canon) } :
        ApiResult (Plan RegisterResponse))) := fun x =>
    (noConflict_chooseVersion _ _ _).bind fun version _ =>
      (noConflict_chooseId _ _ _).bind fun id _ => noConflict_ok _
  cases res with
  | inl out => exact noConflict_ok _
  | inr x =>
    dsimp only
    split
    · next hmode => exact (h (by simpa using hmode) x hres).bind fun _ _ => hrest x
    · exact hrest x

end NoConflict

/-! ### The two checks compared -/

/-- The configured default and override and the previous version's metadata leave the request's
value of the compatibility group as it was sent. -/
def RegisterSchema.KeepsGroup (srv : Server) (r : Reader) (m : RegisterSchema) : Prop :=
  ∀ group, (configInScope srv r m.subject).compatibilityGroup = some group →
    metadataProperty (m.mergedMetadata srv r) group = metadataProperty m.draft.metadata group

/-- Versions are chosen by the value of the group only. -/
theorem oldVersions_congr {cfg : ConfigRecord} {m m' : Option Json}
    (h : ∀ group, cfg.compatibilityGroup = some group →
      metadataProperty m group = metadataProperty m' group)
    (previous : List (UInt32 × VersionRecord)) :
    oldVersions r q cfg m previous = oldVersions r q cfg m' previous := by
  unfold oldVersions
  cases hgroup : cfg.compatibilityGroup with
  | none => rfl
  | some group => simp only [h group hgroup]

/-- What a dry run that reports nothing has checked. -/
theorem testCompatibility_eq_nil {subject : String} {req : RegisterSchemaRequest}
    {normalize verbose : Bool} (h : testCompatibility srv r subject none req normalize verbose
      = .ok []) :
    let q := QualifiedSubject.parse subject
    let cfg := configInScope srv r q
    ∃ c, Canonicalizes srv r q (Draft.ofRequest req) true
      (normalize || normalizeInScope srv r q) c ∧
      ∃ olds, compatCandidates r q cfg c.metadata = .ok olds ∧
        checkCompatibility srv (parseAfresh srv r) q.context c.parsed olds
          (cfg.compatibilityLevel.getD srv.defaultCompatibility) cfg = .ok [] := by
  intro q cfg
  unfold testCompatibility at h
  simp only [dryRunVersions, ok_bind] at h
  split at h
  · next msgs hmsgs =>
      cases h
      obtain ⟨canon, hcanon, hmsgs⟩ := bind_eq_ok.mp hmsgs
      cases canon with
      | none => cases hmsgs
      | some c =>
        obtain ⟨olds, holds, hcheck⟩ := bind_eq_ok.mp hmsgs
        exact ⟨c, canonicalize_eq_some.mp hcanon, olds, holds, hcheck⟩
  · split at h <;> cases h

/-- What a registration without an id stores has the schema part of the dry run's canonical
form. -/
theorem canon_of_resolve {m : RegisterSchema} {view : ReadView}
    {x : RegisterSchema.Resolved srv.fmt.Inner} (hx : m.resolve srv view = .ok (.inr x))
    (hid : m.draft.id < 0) {c : Canon srv.fmt.Inner}
    (hc : Canonicalizes srv view.reader m.subject m.draft true (m.normalize srv view) c) :
    ∃ d modified, m.inherited srv view = .ok (d, modified) ∧
      x.canon = { c with metadata := d.metadata, ruleSet := d.ruleSet } := by
  simp only [RegisterSchema.resolve, bind_eq_ok] at hx
  obtain ⟨⟨d, modified⟩, hdraft, canon, hcanon, hx⟩ := hx
  have hsame := sameSchema_inherited hc.not_blank hdraft
  have hneg : decide (d.id < 0) = true := by
    rw [(inherited_spec hdraft).id]
    exact decide_eq_true hid
  dsimp only at hcanon hx
  rw [hneg, canonicalize_eq_some.mpr (hc.sameSchema hsame), Except.ok.injEq] at hcanon
  subst hcanon
  refine ⟨d, modified, hdraft, ?_⟩
  dsimp only at hx
  split at hx
  · split at hx
    · cases hx
    · rw [afterHash_spec hx]
  · rw [afterHash_spec hx]
  · rw [afterHash_spec hx]

theorem noConflict_checkCompatible {view : ReadView} {c : Canon srv.fmt.Inner}
    {olds : List OldVersion}
    (holds : compatCandidates view.reader q (configInScope srv view.reader q) c.metadata = .ok olds)
    (hcheck : checkCompatibility srv (parseAfresh srv view.reader) q.context c.parsed olds
      ((configInScope srv view.reader q).compatibilityLevel.getD srv.defaultCompatibility)
      (configInScope srv view.reader q) = .ok []) :
    NoConflict (RegisterSchema.checkCompatible srv view q c) := by
  unfold RegisterSchema.checkCompatible
  dsimp only
  rw [holds, ok_bind, hcheck, ok_bind]
  exact noConflict_ok _

/-- Formats that read back nothing but their own text. -/
def strictFormats : Formats :=
  { plainFormats with
    canRead := fun new old _ => if new.canonical = old.canonical then [] else ["changed"] }

def strictServer : Server := ⟨strictFormats, .backward, false⟩

/-- Metadata with one property. -/
def oneProperty (name value : String) : Json :=
  .object [("properties", .object [(name, .string value)])]

/-- A subject checked by the group `g`, whose only version is of group 1. -/
def groupHistory : List Request :=
  [plainRequest (.setConfig (some "s") { compatibilityGroup := some "g" }),
    plainRequest (.register "s"
      { schema := some "\"string\"", metadata := some (oneProperty "g" "1") } false)]

/-- Why a request was refused, by its code. -/
def refusal {α : Type} : ApiResult α → Option Nat
  | .ok _ => none
  | .error e => some e.code

theorem eq_string_of_asStr {v : Option Json} {s : String} (h : v.bind Json.asStr = some s) :
    v = some (.string s) := by
  obtain ⟨w, rfl, hw⟩ := Option.bind_eq_some_iff.mp h
  cases w <;> simp_all [Json.asStr]

end SchemaRegistry

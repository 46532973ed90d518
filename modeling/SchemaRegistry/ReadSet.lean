import SchemaRegistry.Footprint
import SchemaRegistry.Concurrent

/-!
What a verb reads. A verb on a context looks at the rows of that context, at the
settings of the context and at the global ones; references lead out of the context
only when a stored or requested reference is qualified. So two views that answer alike
there get the same plan, as long as references stay in their context.
-/

namespace SchemaRegistry

open Lib

variable {srv : Server}

/-- The settings that bear on a context. -/
def Scope.SeenFrom (ctx : String) : Scope → Prop
  | .global => True
  | .context c | .subject c _ => c = ctx

/-- Two views that answer every question about a context alike. -/
structure Reader.Alike (ctx : String) (r r' : Reader) : Prop where
  getVersion : ∀ subject v, r.getVersion ctx subject v = r'.getVersion ctx subject v
  listVersions : ∀ subject, r.listVersions ctx subject = r'.listVersions ctx subject
  listSubjectNames : r.listSubjectNames ctx = r'.listSubjectNames ctx
  idUsages : ∀ id, r.idUsages ctx id = r'.idUsages ctx id
  referencedBy : ∀ subject v, r.referencedBy ctx subject v = r'.referencedBy ctx subject v
  idForFingerprint : ∀ fp, r.idForFingerprint ctx fp = r'.idForFingerprint ctx fp
  nextId : r.nextId ctx = r'.nextId ctx
  getSchema : ∀ id, r.getSchema ctx id = r'.getSchema ctx id
  getConfig : ∀ scope, Scope.SeenFrom ctx scope → r.getConfig scope = r'.getConfig scope
  getMode : ∀ scope, Scope.SeenFrom ctx scope → r.getMode scope = r'.getMode scope

/-- The references of a stored schema stay in its context. -/
def SchemaRecord.Local (ctx : String) (rec : SchemaRecord) : Prop :=
  ∀ sr ∈ rec.references, (refTarget ctx sr).context = ctx

/-- The references of the stored schemas of a context stay in it. -/
def Reader.LocalBodies (ctx : String) (r : Reader) : Prop :=
  ∀ id rec, r.getSchema ctx id = some rec → rec.Local ctx

/-- A request reference stays in the context. -/
def RefIn.Local (ctx : String) (rin : RefIn) : Prop :=
  ∀ subject ∈ rin.subject, (pointsAt ctx subject).context = ctx

theorem SchemaRecord.Local.ofReference {ctx : String} {rec : SchemaRecord} (h : rec.Local ctx) :
    ∀ rin ∈ rec.references.map RefIn.ofReference, rin.Local ctx := by
  intro rin hrin subject hsubject
  obtain ⟨sr, hsr, rfl⟩ := List.mem_map.mp hrin
  cases hsubject
  exact h sr hsr

theorem seenFrom_scopeFor (q : QualifiedSubject) : (scopeFor q).SeenFrom q.context := by
  unfold scopeFor
  split <;> rfl

namespace Reader.Alike

variable {ctx : String} {q : QualifiedSubject} {r r' : Reader}

/-! ### Settings -/

theorem configInScope (h : Alike q.context r r') (srv : Server) :
    configInScope srv r q = configInScope srv r' q := by
  have hctx : (Scope.context q.context).SeenFrom q.context := rfl
  simp only [SchemaRegistry.configInScope, h.getConfig _ (seenFrom_scopeFor q),
    h.getConfig _ hctx, h.getConfig .global trivial]

theorem normalizeInScope (h : Alike q.context r r') (srv : Server) :
    normalizeInScope srv r q = normalizeInScope srv r' q := by
  rw [SchemaRegistry.normalizeInScope, h.configInScope, SchemaRegistry.normalizeInScope]

theorem globalModeIn (h : Alike ctx r r') : globalModeIn r = globalModeIn r' := by
  rw [SchemaRegistry.globalModeIn, h.getMode .global trivial, SchemaRegistry.globalModeIn]

theorem modeInScope (h : Alike q.context r r') : modeInScope r q = modeInScope r' q := by
  have hctx : (Scope.context q.context).SeenFrom q.context := rfl
  simp only [SchemaRegistry.modeInScope, h.globalModeIn, h.getMode _ (seenFrom_scopeFor q),
    h.getMode _ hctx]

theorem modeFor (h : Alike q.context r r') : modeFor r (.subject q) = modeFor r' (.subject q) :=
  h.modeInScope

theorem modeFor_targetOf (h : Alike q.context r r') :
    SchemaRegistry.modeFor r (targetOf (some q))
      = SchemaRegistry.modeFor r' (targetOf (some q)) := by
  rw [targetOf]
  split
  · exact modeInScope (q := ⟨q.context, ""⟩) h
  · exact h.modeFor

/-! ### Versions and entities -/

theorem getExact (h : Alike q.context r r') (spec : VersionSpec) (deleted : Bool) :
    getExact r q spec deleted = getExact r' q spec deleted := by
  simp only [SchemaRegistry.getExact, h.listVersions]

theorem entity (h : Alike q.context r r') : entity r q = entity r' q := by
  funext v vr
  simp only [SchemaRegistry.entity, h.getSchema]

theorem undeleted (h : Alike q.context r r') :
    RegisterSchema.undeleted r q = RegisterSchema.undeleted r' q := by
  rw [RegisterSchema.undeleted, h.listVersions, RegisterSchema.undeleted]

theorem hashLookup (h : Alike q.context r r') (c : Canon srv.fmt.Inner) :
    hashLookup srv r q c = hashLookup srv r' q c := by
  simp only [SchemaRegistry.hashLookup, h.idForFingerprint, h.idUsages, h.getVersion]

theorem findEqual {Inner : Type} (h : Alike q.context r r') (c : Canon Inner) (schemaId : Int32)
    (rows : List (UInt32 × VersionRecord)) :
    RegisterSchema.findEqual r q c schemaId rows
      = RegisterSchema.findEqual r' q c schemaId rows := by
  induction rows with
  | nil => rfl
  | cons p rows ih => simp only [RegisterSchema.findEqual, ih, h.entity]

theorem equalVersion {Inner : Type} (h : Alike q.context r r') (d : Draft) (c : Canon Inner)
    (schemaId : Int32) :
    RegisterSchema.equalVersion r q d c schemaId
      = RegisterSchema.equalVersion r' q d c schemaId := by
  simp only [RegisterSchema.equalVersion, h.undeleted, h.findEqual]

/-! ### References -/

/-- References that stay in the context lead to versions on which the readers agree. -/
theorem agreeOn (h : Alike ctx r r') (hlocal : r.LocalBodies ctx) :
    r.AgreeOn r' fun t _ => t.context = ctx where
  row := by
    rintro t v rfl
    rw [h.getVersion]
  body := by
    rintro t v vr rfl -
    rw [h.getSchema]
  closed := by
    rintro t v vr rec rfl - hrec
    exact hlocal vr.id rec hrec

theorem resolveReferences (h : Alike ctx r r') (hlocal : r.LocalBodies ctx) {refs : List RefIn}
    (hrefs : ∀ rin ∈ refs, rin.Local ctx) :
    resolveReferences r ctx refs = resolveReferences r' ctx refs := by
  refine ((h.agreeOn hlocal).resolveReferences fun rin hrin subject hsubject => ?_).symm
  have hctx : (pointsAt ctx subject).context = ctx := hrefs rin hrin subject hsubject
  have hq : Alike (pointsAt ctx subject).context r r' := hctx.symm ▸ h
  exact ⟨fun _ => hctx, fun spec => (hq.getExact spec true).symm⟩

theorem canonicalize (h : Alike q.context r r') (hlocal : r.LocalBodies q.context) {d : Draft}
    (hrefs : ∀ rin ∈ d.refs, rin.Local q.context) (isNew normalize : Bool) :
    canonicalize srv r q d isNew normalize = canonicalize srv r' q d isNew normalize := by
  simp only [SchemaRegistry.canonicalize, h.resolveReferences hlocal hrefs]

theorem parseRecord (h : Alike ctx r r') (hlocal : r.LocalBodies ctx) {rec : SchemaRecord}
    (hrec : rec.Local ctx) : parseRecord srv r ctx rec = parseRecord srv r' ctx rec := by
  simp only [SchemaRegistry.parseRecord, resolveStored, h.resolveReferences hlocal hrec.ofReference]

theorem populateFromPrevious (h : Alike q.context r r') (cfg : ConfigRecord) (d : Draft)
    (latest : Option (UInt32 × VersionRecord)) (next : UInt32) :
    populateFromPrevious r q cfg d latest next = populateFromPrevious r' q cfg d latest next := by
  simp only [SchemaRegistry.populateFromPrevious, h.entity]

/-! ### Compatibility -/

theorem compatCandidates (h : Alike q.context r r') (cfg : ConfigRecord)
    (newMetadata : Option Json) :
    compatCandidates r q cfg newMetadata = compatCandidates r' q cfg newMetadata := by
  simp only [SchemaRegistry.compatCandidates, oldVersions, liveVersions, h.listVersions,
    h.getSchema]

theorem checkCompatibility (h : Alike ctx r r') (hlocal : r.LocalBodies ctx)
    (new : ParsedSchema srv.fmt.Inner) {olds : List OldVersion}
    (holds : ∀ o ∈ olds, o.body.Local ctx) (level : CompatibilityLevel) (cfg : ConfigRecord) :
    checkCompatibility srv (parseAfresh srv r) ctx new olds level cfg =
      checkCompatibility srv (parseAfresh srv r') ctx new olds level cfg := by
  have hparse : ∀ n, (olds.take n).mapM (fun o => do
        let parsed ← parseAfresh srv r ctx o.id o.body
        .ok (Previous.mk o.version parsed)) =
      (olds.take n).mapM (fun o => do
        let parsed ← parseAfresh srv r' ctx o.id o.body
        .ok (Previous.mk o.version parsed)) := by
    intro n
    refine mapM_congr fun o ho => ?_
    rw [parseAfresh, parseAfresh, h.parseRecord hlocal (holds o (List.mem_of_mem_take ho))]
  simp only [SchemaRegistry.checkCompatibility, hparse]

/-! ### Deletes and listings -/

theorem liveReferrers (h : Alike ctx r r') (subject : String) (version : UInt32) :
    liveReferrers r ctx subject version = liveReferrers r' ctx subject version := by
  simp only [SchemaRegistry.liveReferrers, h.referencedBy, h.idUsages, h.getVersion]

theorem checkNotReferenced (h : Alike q.context r r') (version : UInt32) :
    checkNotReferenced r q version = checkNotReferenced r' q version := by
  simp only [SchemaRegistry.checkNotReferenced, h.liveReferrers]

theorem hasSubjects (h : Alike q.context r r') (deleted : Bool) :
    hasSubjects r q deleted = hasSubjects r' q deleted := by
  simp only [SchemaRegistry.hasSubjects, h.listVersions, h.listSubjectNames]

theorem stillUsed (h : Alike q.context r r') (version id : UInt32) (also : List (String × UInt32)) :
    stillUsed r q version id also = stillUsed r' q version id also := by
  simp only [SchemaRegistry.stillUsed, h.idUsages]

theorem hardDeleteWrites (h : Alike q.context r r') (version : UInt32) (vr : VersionRecord)
    (also : List (String × UInt32)) :
    hardDeleteWrites r q version vr also = hardDeleteWrites r' q version vr also := by
  simp only [SchemaRegistry.hardDeleteWrites, h.stillUsed, h.getSchema]

theorem hardDeleteAll {rows : List (QualifiedSubject × UInt32 × VersionRecord)}
    (h : ∀ p ∈ rows, Alike p.1.context r r') (also : List (String × UInt32)) :
    hardDeleteAll r rows also = hardDeleteAll r' rows also := by
  have heach : rows.map (fun p => SchemaRegistry.hardDeleteWrites r p.1 p.2.1 p.2.2 also) =
      rows.map fun p => SchemaRegistry.hardDeleteWrites r' p.1 p.2.1 p.2.2 also :=
    List.map_congr_left fun p hp => (h p hp).hardDeleteWrites p.2.1 p.2.2 also
  simp only [SchemaRegistry.hardDeleteAll, heach]

theorem replaced (h : Alike q.context r r') (version id : UInt32) :
    RegisterSchema.replaced r q version id = RegisterSchema.replaced r' q version id := by
  have hall : ∀ (rows : List (UInt32 × VersionRecord)) (number : UInt32 × VersionRecord → UInt32)
      (also : List (String × UInt32)),
      SchemaRegistry.hardDeleteAll r (rows.map fun p => (q, number p, p.2)) also =
        SchemaRegistry.hardDeleteAll r' (rows.map fun p => (q, number p, p.2)) also := by
    intro rows number also
    refine hardDeleteAll (fun p hp => ?_) also
    obtain ⟨p', -, rfl⟩ := List.mem_map.mp hp
    exact h
  simp only [RegisterSchema.replaced, h.listVersions, hall _ (fun _ => version), hall _ Prod.fst]

theorem chooseId (h : Alike ctx r r') (fp : String) (schemaId : Int32) :
    RegisterSchema.chooseId r ctx fp schemaId = RegisterSchema.chooseId r' ctx fp schemaId := by
  simp only [RegisterSchema.chooseId, h.idUsages, h.getSchema, h.nextId]

end Reader.Alike

/-- The bodies that take part in a compatibility check are stored ones. -/
theorem local_of_compatCandidates {r : Reader} {q : QualifiedSubject}
    (hlocal : r.LocalBodies q.context) {cfg : ConfigRecord} {newMetadata : Option Json}
    {olds : List OldVersion} (h : compatCandidates r q cfg newMetadata = .ok olds) :
    ∀ o ∈ olds, o.body.Local q.context := by
  obtain ⟨all, hall, h⟩ := bind_eq_ok.mp h
  have hstored : ∀ o ∈ all, o.body.Local q.context := by
    intro o ho
    obtain ⟨⟨v, vr⟩, -, hrow⟩ := exists_of_mem_mapM hall o ho
    cases hrec : r.getSchema q.context vr.id with
    | none => simp [hrec] at hrow
    | some rec =>
      simp only [hrec] at hrow
      cases hrow
      exact hlocal vr.id rec hrec
  cases hgroup : cfg.compatibilityGroup with
  | none =>
    simp only [hgroup] at h
    cases h
    exact hstored
  | some group =>
    simp only [hgroup] at h
    cases h
    exact fun o ho => hstored o (List.mem_filter.mp ho).1

/-! ### Registrations -/

section Register

variable {r r' : Reader} (ex ex' : String → Option ExporterRecord) {now : Int} {guid : String}
  {m : RegisterSchema}

theorem inherited_congr (h : Reader.Alike m.subject.context r r') :
    m.inherited srv ⟨r, ex, now, guid⟩ = m.inherited srv ⟨r', ex', now, guid⟩ := by
  unfold RegisterSchema.inherited
  dsimp only
  rw [h.modeFor, h.configInScope, h.undeleted, h.listVersions, h.populateFromPrevious]

/-- What a registration inherits refers to its own context, if what is stored does. -/
theorem local_of_inherited {view : ReadView} (hlocal : view.reader.LocalBodies m.subject.context)
    (hrefs : ∀ rin ∈ m.draft.refs, rin.Local m.subject.context) {d : Draft}
    (h : Inherits view.reader m.subject (RegisterSchema.undeleted view.reader m.subject).head?
      m.draft d) : ∀ rin ∈ d.refs, rin.Local m.subject.context := by
  rcases h.refs with hsame | ⟨p, rec, -, hrec, hstored⟩
  · rw [hsame]
    exact hrefs
  · rw [hstored]
    exact (hlocal _ rec hrec).ofReference

theorem resolve_congr (h : Reader.Alike m.subject.context r r')
    (hlocal : r.LocalBodies m.subject.context)
    (hrefs : ∀ rin ∈ m.draft.refs, rin.Local m.subject.context) :
    m.resolve srv ⟨r, ex, now, guid⟩ = m.resolve srv ⟨r', ex', now, guid⟩ := by
  have hnormalize : m.normalize srv ⟨r, ex, now, guid⟩ = m.normalize srv ⟨r', ex', now, guid⟩ := by
    simp only [RegisterSchema.normalize, h.normalizeInScope]
  rw [RegisterSchema.resolve, RegisterSchema.resolve, ← inherited_congr ex ex' h, hnormalize]
  cases hd : m.inherited srv ⟨r, ex, now, guid⟩ with
  | error e => simp only [error_bind]
  | ok p =>
    obtain ⟨d, modified⟩ := p
    have hdraft := local_of_inherited hlocal hrefs (inherited_spec hd)
    simp only [bind, Except.bind, h.canonicalize hlocal hdraft, h.hashLookup,
      RegisterSchema.resolve.afterHash, h.equalVersion]

theorem checkCompatible_congr (h : Reader.Alike m.subject.context r r')
    (hlocal : r.LocalBodies m.subject.context) (c : Canon srv.fmt.Inner) :
    RegisterSchema.checkCompatible srv ⟨r, ex, now, guid⟩ m.subject c =
      RegisterSchema.checkCompatible srv ⟨r', ex', now, guid⟩ m.subject c := by
  unfold RegisterSchema.checkCompatible
  dsimp only
  rw [h.configInScope, ← h.compatCandidates]
  cases holds : compatCandidates r m.subject (configInScope srv r' m.subject) c.metadata with
  | error e => simp only [error_bind]
  | ok olds =>
    have hbodies := local_of_compatCandidates hlocal holds
    simp only [ok_bind, h.checkCompatibility hlocal _ hbodies]

theorem added_congr (h : Reader.Alike m.subject.context r r') (version id : UInt32)
    (c : Canon srv.fmt.Inner) :
    RegisterSchema.added srv ⟨r, ex, now, guid⟩ m.subject version id c =
      RegisterSchema.added srv ⟨r', ex', now, guid⟩ m.subject version id c := by
  unfold RegisterSchema.added RegisterSchema.bodyFor
  dsimp only
  rw [h.getSchema, h.nextId]

theorem registerPlan_congr (h : Reader.Alike m.subject.context r r')
    (hlocal : r.LocalBodies m.subject.context)
    (hrefs : ∀ rin ∈ m.draft.refs, rin.Local m.subject.context) :
    m.plan srv ⟨r, ex, now, guid⟩ = m.plan srv ⟨r', ex', now, guid⟩ := by
  unfold RegisterSchema.plan
  dsimp only
  rw [h.modeFor, resolve_congr ex ex' h hlocal hrefs]
  simp only [checkCompatible_congr ex ex' h hlocal, h.listVersions, h.chooseId, h.replaced,
    added_congr ex ex' h]

end Register

/-! ### Deletes -/

section Deletes

variable {r r' : Reader} (ex ex' : String → Option ExporterRecord) {now : Int} {guid : String}

theorem hardDeleteAll_rows_congr {q : QualifiedSubject} (h : Reader.Alike q.context r r')
    (rows : List (UInt32 × VersionRecord)) (also : List (String × UInt32)) :
    hardDeleteAll r (rows.map fun p => (q, p.1, p.2)) also =
      hardDeleteAll r' (rows.map fun p => (q, p.1, p.2)) also := by
  refine Reader.Alike.hardDeleteAll (fun p hp => ?_) also
  obtain ⟨p', -, rfl⟩ := List.mem_map.mp hp
  exact h

theorem deleteSubject_plan_congr {m : DeleteSubject} (h : Reader.Alike m.subject.context r r') :
    m.plan ⟨r, ex, now, guid⟩ = m.plan ⟨r', ex', now, guid⟩ := by
  unfold DeleteSubject.plan
  dsimp only
  rw [h.hasSubjects, h.hasSubjects, h.listVersions]
  simp only [h.checkNotReferenced, hardDeleteAll_rows_congr h]

theorem deleteVersion_plan_congr {m : DeleteSubjectVersion}
    (h : Reader.Alike m.subject.context r r') :
    m.plan ⟨r, ex, now, guid⟩ = m.plan ⟨r', ex', now, guid⟩ := by
  have hfind : m.find r = m.find r' := by
    unfold DeleteSubjectVersion.find
    dsimp only
    rw [h.getExact, h.getExact, h.hasSubjects]
  unfold DeleteSubjectVersion.plan
  dsimp only
  rw [hfind, h.listVersions]
  simp only [h.checkNotReferenced, h.hardDeleteWrites]

end Deletes

/-! ### Settings and contexts -/

section Settings

variable {r r' : Reader} (ex ex' : String → Option ExporterRecord) {now : Int} {guid : String}

/-- A mode change reads the mode it replaces and the subjects it will cover. -/
theorem setMode_plan_congr {m : SetMode} (hpurges : m.purges r = m.purges r')
    (hlive : m.hasLive r = m.hasLive r') (hscope : m.subjectsInScope r = m.subjectsInScope r')
    (hrows : ∀ sq ∈ m.subjectsInScope r', Reader.Alike sq.context r r') :
    m.plan ⟨r, ex, now, guid⟩ = m.plan ⟨r', ex', now, guid⟩ := by
  have hdoomed : m.doomed r = m.doomed r' := by
    unfold SetMode.doomed
    rw [hscope]
    refine List.flatMap_congr fun sq hsq => ?_
    rw [(hrows sq hsq).listVersions]
  have halike : ∀ p ∈ m.doomed r', Reader.Alike p.1.context r r' := fun p hp =>
    hrows p.1 (mem_doomed.mp hp).1
  have hcheck : (m.doomed r').forM (fun p => checkNotReferenced r p.1 p.2.1) =
      (m.doomed r').forM fun p => checkNotReferenced r' p.1 p.2.1 :=
    forM_congr fun p hp => (halike p hp).checkNotReferenced p.2.1
  unfold SetMode.plan
  dsimp only
  rw [hpurges, hlive, hdoomed, hcheck, Reader.Alike.hardDeleteAll halike]

theorem setMode_plan_congr_some {m : SetMode} {q : QualifiedSubject} (hm : m.subject = some q)
    (h : Reader.Alike q.context r r') :
    m.plan ⟨r, ex, now, guid⟩ = m.plan ⟨r', ex', now, guid⟩ := by
  have hscope : m.subjectsInScope r = m.subjectsInScope r' := by
    simp only [SetMode.subjectsInScope, hm, h.listSubjectNames]
  refine setMode_plan_congr ex ex' ?_ ?_ hscope fun sq hsq => ?_
  · rw [SetMode.purges, SetMode.purges, hm, h.modeFor_targetOf]
  · simp only [SetMode.hasLive, hm, h.hasSubjects]
  · have hcov := covers_of_mem_subjectsInScope hsq
    rw [hm, covers_targetOf_iff] at hcov
    exact hcov ▸ h

theorem setMode_plan_congr_none {m : SetMode} (hm : m.subject = none)
    (h : ∀ ctx, Reader.Alike ctx r r') (hctxs : r.listContexts = r'.listContexts) :
    m.plan ⟨r, ex, now, guid⟩ = m.plan ⟨r', ex', now, guid⟩ := by
  have hnames : ∀ ctx, r.listSubjectNames ctx = r'.listSubjectNames ctx := fun ctx =>
    (h ctx).listSubjectNames
  have hversions : ∀ ctx subject, r.listVersions ctx subject = r'.listVersions ctx subject :=
    fun ctx => (h ctx).listVersions
  refine setMode_plan_congr ex ex' ?_ ?_ ?_ fun sq _ => h sq.context
  · have hmode : modeFor r (targetOf none) = modeFor r' (targetOf none) := (h "").globalModeIn
    rw [SetMode.purges, SetMode.purges, hm, hmode]
  · simp only [SetMode.hasLive, hm, hasAnySubject, hctxs, hnames, hversions]
  · simp only [SetMode.subjectsInScope, hm, hctxs, hnames]

theorem deleteMode_plan_congr {m : DeleteMode} (h : Reader.Alike m.subject.context r r') :
    m.plan ⟨r, ex, now, guid⟩ = m.plan ⟨r', ex', now, guid⟩ := by
  have hmode : modeOfScope r (some m.subject) = modeOfScope r' (some m.subject) := by
    simp only [modeOfScope, h.globalModeIn, h.getMode _ (seenFrom_scopeFor m.subject)]
  unfold DeleteMode.plan
  dsimp only
  rw [hmode]

theorem setConfig_plan_congr {m : UpdateCompatibility}
    (h : r.getConfig (scopeOf m.subject) = r'.getConfig (scopeOf m.subject)) :
    m.plan ⟨r, ex, now, guid⟩ = m.plan ⟨r', ex', now, guid⟩ := by
  unfold UpdateCompatibility.plan
  dsimp only
  rw [h]

theorem deleteConfig_plan_congr {m : DeleteSubjectConfig}
    (h : r.getConfig (scopeOf m.subject) = r'.getConfig (scopeOf m.subject)) :
    m.plan srv ⟨r, ex, now, guid⟩ = m.plan srv ⟨r', ex', now, guid⟩ := by
  have hconfig : configOf srv r m.subject = configOf srv r' m.subject := by
    cases hm : m.subject with
    | none =>
      rw [hm] at h
      exact congrArg (fun c : Option ConfigRecord => some (filled srv (c.getD default))) h
    | some q =>
      rw [hm] at h
      exact congrArg (Option.map (filled srv)) h
  unfold DeleteSubjectConfig.plan
  dsimp only
  rw [hconfig]

theorem deleteContext_plan_congr {m : DeleteContext} (h : Reader.Alike m.ctx r r') :
    m.plan ⟨r, ex, now, guid⟩ = m.plan ⟨r', ex', now, guid⟩ := by
  unfold DeleteContext.plan
  dsimp only
  rw [h.listSubjectNames]

end Settings

/-! ### Verbs -/

section Verbs

variable {r r' : Reader} {ex ex' : String → Option ExporterRecord} {now : Int} {guid : String}

/-- Two views that answer alike everything a verb with this target may ask. -/
structure Target.SeesAlike (t : Target) (r r' : Reader) (ex ex' : String → Option ExporterRecord) :
    Prop where
  reader : ∀ ctx, t.Covers ctx → Reader.Alike ctx r r'
  listContexts : t = .global → r.listContexts = r'.listContexts
  exporter : t = .exporters → ex = ex'

/-- The references of a registration's request stay in its context. -/
def Verb.RefsLocal : Verb → Prop
  | .register subject req _ => ∀ rin ∈ req.references.getD [],
      rin.Local (QualifiedSubject.parse subject).context
  | _ => True

theorem Target.SeesAlike.modeFor {t : Target} (h : t.SeesAlike r r' ex ex') (ht : t ≠ .exporters) :
    modeFor r t = modeFor r' t := by
  cases t with
  | subject q => exact (h.reader q.context rfl).modeInScope
  | context ctx => exact Reader.Alike.modeInScope (q := ⟨ctx, ""⟩) (h.reader ctx rfl)
  | global => exact (h.reader "" trivial).globalModeIn
  | exporters => exact (ht rfl).elim

theorem Target.SeesAlike.getConfig {q : Option QualifiedSubject}
    (h : (targetOf q).SeesAlike r r' ex ex') :
    r.getConfig (scopeOf q) = r'.getConfig (scopeOf q) := by
  cases q with
  | none => exact (h.reader "" trivial).getConfig .global trivial
  | some q => exact (h.reader q.context (covers_targetOf q)).getConfig _ (seenFrom_scopeFor q)

/-- A verb's plan depends on what its target covers. -/
theorem plan_congr {verb : Verb} (hrefs : verb.RefsLocal)
    (hlocal : ∀ ctx, verb.target.Covers ctx → r.LocalBodies ctx)
    (h : verb.target.SeesAlike r r' ex ex') {m : Mutation verb.Output}
    (hm : verb.mutation srv = .ok m) :
    m.plan ⟨r, ex, now, guid⟩ = m.plan ⟨r', ex', now, guid⟩ := by
  cases verb with
  | register subject req normalize =>
    simp only [Verb.mutation, RegisterSchema.new] at hm
    split at hm
    · cases hm
      exact registerPlan_congr ex ex' (h.reader _ rfl) (hlocal _ rfl) hrefs
    · cases hm
  | deleteSubject subject permanent =>
    cases hm
    exact deleteSubject_plan_congr ex ex' (h.reader _ rfl)
  | deleteVersion subject spec permanent =>
    cases hm
    exact deleteVersion_plan_congr ex ex' (h.reader _ rfl)
  | setMode subject mode force =>
    cases hm
    cases subject with
    | none =>
      exact setMode_plan_congr_none ex ex' rfl (fun ctx => h.reader ctx trivial)
        (h.listContexts rfl)
    | some name =>
      exact setMode_plan_congr_some ex ex' rfl (h.reader _ (covers_targetOf _))
  | deleteMode subject =>
    cases hm
    exact deleteMode_plan_congr ex ex' (h.reader _ (covers_targetOf _))
  | setConfig subject update =>
    cases hm
    exact setConfig_plan_congr ex ex' h.getConfig
  | deleteConfig subject =>
    cases hm
    exact deleteConfig_plan_congr ex ex' h.getConfig
  | deleteContext ctx =>
    have htarget := mutation_target hm
    obtain ⟨m', hnew, rfl⟩ := map_eq_ok.mp hm
    exact deleteContext_plan_congr ex ex' (h.reader m'.ctx (htarget ▸ rfl))
  | createExporter | restoreExporter | updateExporter | deleteExporter | transitionExporter =>
    cases hm
    obtain rfl := h.exporter rfl
    rfl

/-- Exporter verbs pass in every mode. -/
theorem intent_of_exporters {verb : Verb} {m : Mutation verb.Output}
    (hm : verb.mutation srv = .ok m) (ht : verb.target = .exporters) :
    m.intent = .notSchemaState := by
  have hne : ∀ q, targetOf q ≠ .exporters := by
    intro q
    cases q with
    | none => nofun
    | some q =>
      rw [targetOf]
      split <;> nofun
  cases verb with
  | register | deleteSubject | deleteVersion | deleteContext => cases ht
  | setMode subject | setConfig subject | deleteConfig subject =>
    exact (hne (subject.map QualifiedSubject.parse) ht).elim
  | deleteMode subject => exact (hne (some (QualifiedSubject.parse subject)) ht).elim
  | createExporter | restoreExporter | updateExporter | deleteExporter | transitionExporter =>
    cases hm
    rfl

theorem gate_congr {verb : Verb} (h : verb.target.SeesAlike r r' ex ex')
    {m : Mutation verb.Output} (hm : verb.mutation srv = .ok m) :
    modegateCheck m.intent (modeFor r m.target) m.target.scopeName =
      modegateCheck m.intent (modeFor r' m.target) m.target.scopeName := by
  by_cases ht : verb.target = .exporters
  · rw [intent_of_exporters hm ht]
    rfl
  · rw [mutation_target hm, h.modeFor ht]

theorem gatedPlan_congr {verb : Verb} (hrefs : verb.RefsLocal)
    (hlocal : ∀ ctx, verb.target.Covers ctx → r.LocalBodies ctx)
    (h : verb.target.SeesAlike r r' ex ex') :
    verb.gatedPlan srv ⟨r, ex, now, guid⟩ = verb.gatedPlan srv ⟨r', ex', now, guid⟩ := by
  unfold Verb.gatedPlan
  cases hm : verb.mutation srv with
  | error e => simp only [error_bind]
  | ok m =>
    have hgated : m.gatedPlan ⟨r, ex, now, guid⟩ = m.gatedPlan ⟨r', ex', now, guid⟩ := by
      simp only [Mutation.gatedPlan, plan_congr hrefs hlocal h hm, gate_congr h hm]
    simp only [ok_bind, hgated]

end Verbs

end SchemaRegistry

import SchemaRegistry.Appended

/-!
Registering again. The version a registration appended is found by the same request:
what the request inherits then is what was stored, and merging that once more changes
nothing, so the content has the stored hash. A property `confluent:version` is
rewritten with the next number every time, and content that carries it is stored
again and again.
-/

namespace SchemaRegistry

open Lib

variable {srv : Server} {reg reg' : Registry} {now : Int} {guid : String}

/-! ### Inheriting what was stored -/

namespace RegisterSchema

/-- A request with a schema of its own, and room for it. -/
structure Fits (r : Reader) (m : RegisterSchema) : Prop where
  text : m.draft.schema.all isBlank = false
  /-- Its references do not lead to its own subject. -/
  refs : ∀ rin ∈ m.draft.refs, rin.Avoids r m.subject.context m.subject
  /-- The subject has a next number. -/
  versions : ∀ p ∈ r.listVersions m.subject.context m.subject.subject, p.1.toNat + 1 < 2 ^ 32
  /-- The context's next id is free. -/
  nextId : r.idUsages m.subject.context (r.nextId m.subject.context) = []

/-- A request whose repetition finds what the first one stored. -/
structure Repeatable (srv : Server) (r : Reader) (m : RegisterSchema) : Prop extends m.Fits r where
  /-- No metadata that bears on it carries a version number. -/
  unversioned : ∀ layer ∈ m.metadataLayers srv r, metadataProperty layer "confluent:version" = none
  /-- Inherited sets are sets of strings. -/
  sensitive : m.draft.metadata = none → ∀ layer ∈ m.metadataLayers srv r, SensitiveStrings layer
  /-- Inherited rules are told apart by their names. -/
  rules : m.draft.ruleSet = none → ∀ layer ∈ m.ruleLayers srv r, RulesNamed layer

end RegisterSchema

section Inherit

variable {cfg : ConfigRecord} {d : Draft} {previous : Option Entity}

/-- What a request without a version number inherits, when no number comes with the metadata. -/
theorem inheritMetadata_fst (populated : Bool) (next : UInt32) (hversion : d.version = 0)
    (hunversioned : metadataProperty (mergeMetadata [cfg.defaultMetadata,
      d.metadata.or (previous.bind (·.metadata)), cfg.overrideMetadata]) "confluent:version"
        = none) :
    (inheritMetadata cfg d populated previous next).1 =
      let metadata := mergeMetadata [cfg.defaultMetadata,
        d.metadata.or (previous.bind (·.metadata)), cfg.overrideMetadata]
      let ruleSet := mergeRuleSets [cfg.defaultRuleSet,
        d.ruleSet.or (previous.bind (·.ruleSet)), cfg.overrideRuleSet]
      if metadata.isSome || ruleSet.isSome then { d with metadata, ruleSet } else d := by
  have hplain : (decide (d.version ≠ 0) || (metadataProperty (mergeMetadata [cfg.defaultMetadata,
      d.metadata.or (previous.bind (·.metadata)), cfg.overrideMetadata])
        "confluent:version").isSome) = false := by
    simp [hversion, hunversioned]
  simp only [inheritMetadata, hplain, Bool.false_eq_true, if_false, apply_ite Prod.fst]

theorem sameLayer_mergeMetadata {a b c : Option Json} (h : mergeMetadata [a, b, c] = none) :
    Absent b := by
  rw [mergeMetadata_eq] at h
  split at h
  · next habsent => exact habsent.2.1
  · cases h

theorem sameLayer_mergeRuleSets {a b c : Option Json} (h : mergeRuleSets [a, b, c] = none) :
    Absent b := by
  rw [mergeRuleSets_eq] at h
  split at h
  · next habsent => exact habsent.2.1
  · cases h

theorem SameLayer.trans {a b c : Option Json} (h : SameLayer a b) (h' : SameLayer b c) :
    SameLayer a c := by
  rcases h with rfl | ⟨ha, hb⟩
  · exact h'
  · rcases h' with rfl | ⟨-, hc⟩
    · exact .inr ⟨ha, hb⟩
    · exact .inr ⟨ha, hc⟩

theorem absent_of_or {a b : Option Json} (h : Absent (a.or b)) : Absent a := by
  cases a with
  | none => rfl
  | some v => exact h

/-- A request that inherits from what it stored itself stores the same. -/
theorem inheritMetadata_again {e : Entity} {populated : Bool} {next next' : UInt32}
    (hversion : d.version = 0)
    (hunversioned : ∀ layer ∈ [cfg.defaultMetadata, d.metadata.or (previous.bind (·.metadata)),
      cfg.overrideMetadata], metadataProperty layer "confluent:version" = none)
    (hsensitive : d.metadata = none → ∀ layer ∈ [cfg.defaultMetadata,
      d.metadata.or (previous.bind (·.metadata)), cfg.overrideMetadata], SensitiveStrings layer)
    (hrules : d.ruleSet = none → ∀ layer ∈ [cfg.defaultRuleSet,
      d.ruleSet.or (previous.bind (·.ruleSet)), cfg.overrideRuleSet], RulesNamed layer)
    (hmeta : SameLayer e.metadata (inheritMetadata cfg d populated previous next).1.metadata)
    (hruleSet : SameLayer e.ruleSet (inheritMetadata cfg d populated previous next).1.ruleSet) :
    (inheritMetadata cfg d populated (some e) next').1
      = (inheritMetadata cfg d populated previous next).1 := by
  simp only [List.forall_mem_cons, List.not_mem_nil, false_imp_iff, forall_const, and_true]
    at hunversioned hsensitive hrules
  obtain ⟨hu₁, hu₂, hu₃⟩ := hunversioned
  have hmerged := metadataProperty_merge hu₁ hu₂ hu₃
  have hfirst := inheritMetadata_fst populated next hversion hmerged
  rw [hfirst] at hmeta hruleSet ⊢
  dsimp only at hmeta hruleSet ⊢
  generalize hM : mergeMetadata [cfg.defaultMetadata, d.metadata.or (previous.bind (·.metadata)),
    cfg.overrideMetadata] = M at *
  generalize hR : mergeRuleSets [cfg.defaultRuleSet, d.ruleSet.or (previous.bind (·.ruleSet)),
    cfg.overrideRuleSet] = R at *
  -- What was stored is the merged layer, or nothing was merged.
  have hstored : SameLayer e.metadata M ∧ SameLayer e.ruleSet R := by
    split at hmeta
    · next hsome =>
        rw [if_pos hsome] at hruleSet
        exact ⟨hmeta, hruleSet⟩
    · next hsome =>
        rw [if_neg hsome] at hruleSet
        obtain ⟨rfl, rfl⟩ : M = none ∧ R = none := by simpa using hsome
        exact ⟨hmeta.trans (.inr ⟨absent_of_or (sameLayer_mergeMetadata hM), rfl⟩),
          hruleSet.trans (.inr ⟨absent_of_or (sameLayer_mergeRuleSets hR), rfl⟩)⟩
  have hM' : mergeMetadata [cfg.defaultMetadata, d.metadata.or e.metadata, cfg.overrideMetadata]
      = M := by
    cases hd : d.metadata with
    | some v =>
      rw [hd] at hM
      exact hM
    | none =>
      obtain ⟨hs₁, hs₂, hs₃⟩ := hsensitive hd
      rw [Option.none_or, mergeMetadata_congr hstored.1, ← hM, mergeMetadata_again hs₁ hs₂ hs₃]
  have hR' : mergeRuleSets [cfg.defaultRuleSet, d.ruleSet.or e.ruleSet, cfg.overrideRuleSet]
      = R := by
    cases hd : d.ruleSet with
    | some v =>
      rw [hd] at hR
      exact hR
    | none =>
      obtain ⟨hr₁, hr₂, hr₃⟩ := hrules hd
      rw [Option.none_or, mergeRuleSets_congr hstored.2, ← hR, mergeRuleSets_again hr₁ hr₂ hr₃]
  rw [inheritMetadata_fst populated next' hversion (by rw [Option.bind_some, hM']; exact hmerged)]
  simp only [Option.bind_some, hM', hR']

end Inherit

/-! ### The first of two requests -/

section First

variable {m : RegisterSchema} {x : RegisterSchema.Resolved srv.fmt.Inner}

/-- What a registration resolved before it stored something. -/
theorem inherited_of_resolve {view : ReadView} (hx : m.resolve srv view = .ok (.inr x)) :
    (∃ modified, m.inherited srv view = .ok (x.draft, modified)) ∧
      canonicalize srv view.reader m.subject x.draft (x.draft.id < 0) (m.normalize srv view)
        = .ok (some x.canon) := by
  refine ⟨?_, (resolve_spec hx).canon⟩
  simp only [RegisterSchema.resolve, bind_eq_ok] at hx
  obtain ⟨⟨d, modified⟩, hdraft, canon, -, hx⟩ := hx
  cases canon with
  | none => cases hx
  | some c =>
    refine ⟨modified, hdraft.trans ?_⟩
    dsimp only at hx
    split at hx
    · split at hx
      · cases hx
      · rw [afterHash_spec hx]
    · rw [afterHash_spec hx]
    · rw [afterHash_spec hx]

theorem inherited_of_readwrite {view : ReadView}
    (h : modeFor view.reader (.subject m.subject) = .readwrite) :
    m.inherited srv view = populateFromPrevious view.reader m.subject
      (configInScope srv view.reader m.subject) m.draft
      (RegisterSchema.undeleted view.reader m.subject).head?
      (RegisterSchema.newVersion
        (view.reader.listVersions m.subject.context m.subject.subject)) := by
  unfold RegisterSchema.inherited
  dsimp only
  rw [h, if_neg (by decide)]

/-- An id in use keeps its body when the next id is free. -/
theorem body_of_uses (hs : reg.Sound srv.fmt)
    (hnext : reg.reader.idUsages m.subject.context (reg.reader.nextId m.subject.context) = [])
    {c : Canon srv.fmt.Inner} {schemaId : Int32} {id : UInt32}
    (hid : RegisterSchema.chooseId reg.reader m.subject.context c.fingerprint schemaId = .ok id)
    (hused : reg.rows.Uses m.subject.context id) :
    reg.rows (.body m.subject.context id)
      = some (RegisterSchema.bodyFor srv (reg.view now guid) m.subject.context id c) := by
  obtain ⟨rec, hrec⟩ := Option.isSome_iff_exists.mp (hs.present _ _ hused)
  obtain ⟨subject, v, vr, hrow, hvr⟩ := hused
  have hmem : (subject, v) ∈ reg.reader.idUsages m.subject.context id :=
    (Registry.mem_idUsages hs.consistent).mpr ⟨vr, hrow, hvr⟩
  have hfp : rec.fingerprint = c.fingerprint := by
    rcases chooseId_spec hid with rfl | ⟨-, hfp⟩
    · rw [hnext] at hmem
      cases hmem
    · exact hfp (List.ne_nil_of_mem hmem) rec hrec
  have hget : (reg.view now guid).reader.getSchema m.subject.context id = some rec := hrec
  simp only [RegisterSchema.bodyFor, hget, hfp, if_true, hrec]

/-- The plan of a registration that stores a version, without a number of its own, appends it. -/
theorem appended_of_plan (hs : reg.Sound srv.fmt) (hfits : m.Fits reg.reader)
    (hversion : m.draft.version = 0) {version id : UInt32}
    (hx : m.resolve srv (reg.view now guid) = .ok (.inr x))
    (hv : RegisterSchema.chooseVersion (modeFor reg.reader (.subject m.subject) == .«import»)
      x.draft (RegisterSchema.newVersion
        (reg.reader.listVersions m.subject.context m.subject.subject)) = .ok version)
    (hid : RegisterSchema.chooseId reg.reader m.subject.context x.canon.fingerprint x.schemaId
      = .ok id)
    (hc' : reg'.snapshot.Consistent)
    (hrows : reg'.rows = reg.rows.after
      (RegisterSchema.written srv (reg.view now guid) m.subject version id x.canon)) :
    Appended reg reg' m.subject version id x.canon.fingerprint ⟨id, false, now⟩
      (RegisterSchema.bodyFor srv (reg.view now guid) m.subject.context id x.canon) := by
  have hdraft : x.draft.version = 0 := (resolve_spec hx).inherits.version.trans hversion
  have hnext : version = RegisterSchema.newVersion
      (reg.reader.listVersions m.subject.context m.subject.subject) := by
    simp only [RegisterSchema.chooseVersion, hdraft, Int32.le_refl, if_true, Except.ok.injEq] at hv
    exact hv.symm
  refine appended_of_register hrows hc' (fun v vr hrow => ?_) fun hused =>
    body_of_uses hs hfits.nextId hid hused
  rw [hnext]
  exact lt_newVersion hfits.versions (v, vr) (Registry.mem_listVersions.mpr hrow)

end First

/-! ### The second -/

section Second

variable {m : RegisterSchema} {x : RegisterSchema.Resolved srv.fmt.Inner} {version id : UInt32}
  {row : VersionRecord} {rec : SchemaRecord}

theorem Appended.normalize {fp : String}
    (happ : Appended reg reg' m.subject version id fp row rec) (srv : Server) (now now' : Int)
    (guid guid' : String) :
    m.normalize srv (reg'.view now' guid') = m.normalize srv (reg.view now guid) := by
  simp only [RegisterSchema.normalize, normalizeInScope, Registry.view_reader, happ.configInScope]

/-- A lookup that found nothing finds nothing else now, but perhaps the new version. -/
theorem Appended.lookupUnderSubject {fp : String}
    (happ : Appended reg reg' m.subject version id fp row rec) (hc : reg.snapshot.Consistent)
    (hrefs : ∀ rin ∈ m.draft.refs, rin.Avoids reg.reader m.subject.context m.subject)
    {normalize : Bool}
    (hnone : SchemaRegistry.lookupUnderSubject srv reg.reader m.subject m.draft normalize false
      false = .ok none) :
    SchemaRegistry.lookupUnderSubject srv reg'.reader m.subject m.draft normalize false false
        = .ok none ∨
      ∃ e, SchemaRegistry.lookupUnderSubject srv reg'.reader m.subject m.draft normalize false false
        = .ok (some e) ∧ e.id = id := by
  unfold SchemaRegistry.lookupUnderSubject at hnone ⊢
  rw [happ.canonicalize hrefs]
  obtain ⟨canon, hcanon, hnone⟩ := bind_eq_ok.mp hnone
  rw [hcanon, ok_bind]
  cases canon with
  | none => exact .inl rfl
  | some c =>
    simp only [Bool.false_eq_true, if_false, Bool.false_or] at hnone ⊢
    -- The search through the live versions, once the hash has not decided.
    have hsearch : SchemaRegistry.firstLookup reg.reader m.subject c
        (RegisterSchema.undeleted reg.reader m.subject) = .ok none →
        SchemaRegistry.firstLookup reg'.reader m.subject c
            (RegisterSchema.undeleted reg'.reader m.subject) = .ok none ∨
          ∃ e, SchemaRegistry.firstLookup reg'.reader m.subject c
            (RegisterSchema.undeleted reg'.reader m.subject) = .ok (some e) ∧ e.id = id := by
      intro hfirst
      rw [happ.firstLookup]
      split
      · exact .inr ⟨_, rfl, rfl⟩
      · exact .inl hfirst
    by_cases hindex : reg'.rows (.fingerprint m.subject.context c.fingerprint) = some id
    · rw [happ.hashLookup hindex]
      simp only [happ.rowLive, Bool.not_false, if_true]
      exact .inr ⟨_, rfl, rfl⟩
    · have hfp : c.fingerprint ≠ fp := fun heq => hindex (heq ▸ happ.index)
      rw [happ.hashLookup_of_ne hc hfp fun heq => hindex ((happ.indexed _ hfp).trans heq)]
      split at hnone
      · cases hnone
      · exact hsearch hnone

/-- The fast path of the repeated request has no answer, or that of the first one. -/
theorem Appended.registerFastPath {fp : String}
    (happ : Appended reg reg' m.subject version id fp row rec) (hc : reg.snapshot.Consistent)
    (hrefs : ∀ rin ∈ m.draft.refs, rin.Avoids reg.reader m.subject.context m.subject)
    (hversion : m.draft.version = 0) (hdraft : m.draft.id < 0) {normalize : Bool}
    (hnone : SchemaRegistry.registerFastPath srv reg.reader m.subject m.draft normalize
      = .ok none) :
    SchemaRegistry.registerFastPath srv reg'.reader m.subject m.draft normalize = .ok none ∨
      SchemaRegistry.registerFastPath srv reg'.reader m.subject m.draft normalize
        = .ok (some (.ofId id)) := by
  unfold SchemaRegistry.registerFastPath at hnone ⊢
  rw [happ.configInScope]
  have hlatest : (m.draft.version == -1) = false := by
    rw [hversion]
    decide
  split
  · exact .inl rfl
  · next hplain =>
      rw [if_neg hplain] at hnone
      dsimp only at hnone ⊢
      rw [hlatest] at hnone ⊢
      obtain ⟨found, hfound, hnone⟩ := bind_eq_ok.mp hnone
      cases found with
      | some e => simp [hversion, hdraft] at hnone
      | none =>
        rcases happ.lookupUnderSubject hc hrefs hfound with hagain | ⟨e, hagain, rfl⟩
        · rw [hagain]
          exact .inl rfl
        · rw [hagain]
          refine .inr ?_
          simp [hversion, hdraft]

/-- The repeated request inherits what the first one stored, and has its content. -/
theorem Appended.inherited (hs' : reg'.Sound srv.fmt) (hsha : Function.Injective srv.fmt.sha256)
    (happ : Appended reg reg' m.subject version id x.canon.fingerprint row rec)
    (hrec : rec.fingerprint = x.canon.fingerprint) (hrep : m.Repeatable srv reg.reader)
    (hmode : SchemaRegistry.modeFor reg.reader (.subject m.subject) = .readwrite)
    (hversion : m.draft.version = 0) (hx : m.resolve srv (reg.view now guid) = .ok (.inr x))
    (now' : Int) (guid' : String) :
    ∃ modified, m.inherited srv (reg'.view now' guid') = .ok (x.draft, modified) := by
  obtain ⟨⟨modified, hfirst⟩, hcanon⟩ := inherited_of_resolve hx
  have hstored := canonicalize_eq_some.mp hcanon
  rw [inherited_of_readwrite hmode] at hfirst
  obtain ⟨previous, hprevious, hdraft⟩ := populateFromPrevious_eq hrep.text hfirst
  have hsame := same_of_fingerprint hsha
    ((hs'.hashed _ _ _ happ.body).symm.trans hrec : fingerprint srv.fmt _ _ _ _ _ = _)
  rw [Registry.view_reader] at hprevious hdraft
  obtain ⟨hmetaLayer, hruleLayer⟩ := layers_of_previous hprevious
  have hagain : (inheritMetadata (SchemaRegistry.configInScope srv reg.reader m.subject) m.draft
      false (some (.stored m.subject version id rec)) (RegisterSchema.newVersion
        (reg'.reader.listVersions m.subject.context m.subject.subject))).1 = x.draft := by
    refine (inheritMetadata_again hversion ?_ ?_ ?_ ?_ ?_).trans (congrArg Prod.fst hdraft).symm
    · rw [hmetaLayer]
      exact hrep.unversioned
    · rw [hmetaLayer]
      exact hrep.sensitive
    · rw [hruleLayer]
      exact hrep.rules
    · rw [← hdraft, ← hstored.metadata]
      exact hsame.1
    · rw [← hdraft, ← hstored.ruleSet]
      exact hsame.2
  rw [inherited_of_readwrite ((happ.modeFor _).trans hmode), Registry.view_reader, happ.undeleted,
    happ.configInScope]
  simp only [populateFromPrevious, List.head?_cons, Option.mapM_some, happ.entity_new, ok_bind,
    inheritSchema, hrep.text, Bool.false_eq_true, if_false]
  exact ⟨_, congrArg Except.ok (Prod.ext hagain rfl)⟩

theorem id_answer (modified : Bool) (e : Entity) :
    (RegisterSchema.answer modified e).id = e.id := by
  unfold RegisterSchema.answer
  split <;> rfl

/-- Content that the hash finds under a live version is answered with that version. -/
theorem plan_of_hashLookup {view : ReadView} {d : Draft} {modified : Bool}
    {c : Canon srv.fmt.Inner} {v : UInt32} {vr : VersionRecord}
    (hinherited : m.inherited srv view = .ok (d, modified))
    (hcanon : canonicalize srv view.reader m.subject d (d.id < 0) (m.normalize srv view)
      = .ok (some c))
    (hlookup : hashLookup srv view.reader m.subject c = some (id, some (v, vr)))
    (hid : d.id < 0) (hversion : d.version = 0) (hlive : vr.deleted = false) :
    m.plan srv view
      = .ok { output := RegisterSchema.answer modified (.fromCanon m.subject v id c) } := by
  have hhit : (hashLookup srv view.reader m.subject c).filter
      (fun h => d.id < 0 || d.id.toUInt32 == h.1) = some (id, some (v, vr)) := by
    rw [hlookup, Option.filter_some]
    simp [hid]
  have hresolve : m.resolve srv view
      = .ok (.inl (RegisterSchema.answer modified (.fromCanon m.subject v id c))) := by
    unfold RegisterSchema.resolve
    dsimp only
    rw [hinherited, ok_bind]
    dsimp only
    rw [hcanon, ok_bind]
    dsimp only
    rw [hhit]
    exact if_pos (by simp [hversion, hlive])
  unfold RegisterSchema.plan
  dsimp only
  rw [hresolve, ok_bind]

/-- The plan of the repeated request answers with the first one's id and writes nothing. -/
theorem Appended.plan (hs' : reg'.Sound srv.fmt) (hsha : Function.Injective srv.fmt.sha256)
    (happ : Appended reg reg' m.subject version id x.canon.fingerprint row rec)
    (hrec : rec.fingerprint = x.canon.fingerprint) (hrep : m.Repeatable srv reg.reader)
    (hmode : SchemaRegistry.modeFor reg.reader (.subject m.subject) = .readwrite)
    (hversion : m.draft.version = 0) (hdraft : m.draft.id < 0)
    (hx : m.resolve srv (reg.view now guid) = .ok (.inr x)) (now' : Int) (guid' : String) :
    ∃ out, m.plan srv (reg'.view now' guid') = .ok { output := out } ∧ out.id = id := by
  obtain ⟨modified, hinherited⟩ := happ.inherited hs' hsha hrec hrep hmode hversion hx now' guid'
  have hspec := resolve_spec hx
  have hrefs : ∀ rin ∈ x.draft.refs, rin.Avoids reg.reader m.subject.context m.subject := by
    obtain ⟨⟨modified₁, hfirst⟩, -⟩ := inherited_of_resolve hx
    rw [(sameSchema_inherited hrep.text hfirst).refs]
    exact hrep.refs
  have hcanon := hspec.canon
  rw [← happ.normalize srv now now' guid guid'] at hcanon
  rw [Registry.view_reader, ← happ.canonicalize hrefs] at hcanon
  exact ⟨_, plan_of_hashLookup hinherited hcanon (happ.hashLookup happ.index)
    (hspec.inherits.id ▸ hdraft) (hspec.inherits.version.trans hversion) happ.rowLive,
    id_answer _ _⟩

end Second

/-! ### Both together -/

/-- A plan without writes and events changes nothing. -/
theorem Registry.apply_silent {α : Type} (reg : Registry) (out : α) :
    reg.apply { output := out } = reg := rfl

theorem decide_register {subject : String} {req : RegisterSchemaRequest} {normalize : Bool}
    {m : RegisterSchema} (hm : RegisterSchema.new subject req normalize = .ok m) (view : ReadView) :
    (Verb.register subject req normalize).decide srv view = (m.mutation srv).decide view := by
  simp only [Verb.decide, Verb.mutation, hm]
  rfl

section Decide

variable {m : RegisterSchema} {view : ReadView}

theorem gatedPlan_of_readwrite (hid : m.draft.id < 0)
    (hmode : modeFor view.reader (.subject m.subject) = .readwrite) :
    (m.mutation srv).gatedPlan view = m.plan srv view := by
  have hpos : ¬ m.draft.id ≥ 0 := Int32.not_le.mpr hid
  simp [Mutation.gatedPlan, RegisterSchema.mutation, hpos, hmode, modegateCheck]

/-- A registration in READWRITE mode answers from its fast path or goes by its plan. -/
theorem decide_mutation (hid : m.draft.id < 0)
    (hmode : modeFor view.reader (.subject m.subject) = .readwrite)
    {fast : Option RegisterResponse} (hfast : registerFastPath srv view.reader m.subject m.draft
      (m.normalize srv view) = .ok fast) :
    (m.mutation srv).decide view
      = fast.elim (m.plan srv view) fun out => .ok { output := out } := by
  have hpath : (m.mutation srv).fastPath view = .ok fast := hfast
  unfold Mutation.decide
  rw [hpath, ok_bind, gatedPlan_of_readwrite hid hmode]
  cases fast <;> rfl

theorem fastPath_of_decide {plan : Plan RegisterResponse}
    (h : (m.mutation srv).decide view = .ok plan) :
    ∃ fast, registerFastPath srv view.reader m.subject m.draft (m.normalize srv view)
      = .ok fast := by
  obtain ⟨fast, hfast, -⟩ := bind_eq_ok.mp h
  exact ⟨fast, hfast⟩

end Decide

/-- The first registration appended a version, and the second finds it. -/
theorem decide_again {m : RegisterSchema} (hs : reg.Sound srv.fmt)
    (hsha : Function.Injective srv.fmt.sha256)
    (hrep : m.Stores srv (reg.view now guid) → m.Repeatable srv reg.reader)
    (hmode : modeFor reg.reader (.subject m.subject) = .readwrite) (hid : m.draft.id < 0)
    (hversion : m.draft.version = 0)
    {subject : String} {req : RegisterSchemaRequest} {normalize : Bool}
    (hm : RegisterSchema.new subject req normalize = .ok m) {plan : Plan RegisterResponse}
    (hdecide : (m.mutation srv).decide (reg.view now guid) = .ok plan) (now' : Int)
    (guid' : String) :
    ∃ out, (m.mutation srv).decide ((reg.apply plan).view now' guid') = .ok { output := out } ∧
      out.id = plan.output.id := by
  obtain ⟨fast, hfast⟩ := fastPath_of_decide hdecide
  rw [decide_mutation hid hmode hfast] at hdecide
  have hsame : (m.mutation srv).decide (reg.view now' guid')
      = fast.elim (m.plan srv (reg.view now' guid')) fun out => .ok { output := out } :=
    decide_mutation hid hmode hfast
  cases fast with
  | some out =>
    cases hdecide
    rw [Registry.apply_silent]
    exact ⟨out, hsame, rfl⟩
  | none =>
    rcases registerPlan_cases hdecide with ⟨out, hresolve, rfl⟩ | ⟨x, version, id, hx, hv, hid', hp⟩
    · refine ⟨out, ?_, rfl⟩
      rw [Registry.apply_silent, hsame]
      have hagain : m.resolve srv (reg.view now' guid') = .ok (.inl out) := hresolve
      simp [RegisterSchema.plan, hagain]
    · have hrep := hrep ⟨hfast, x, hx⟩
      have hs' := hs.apply (effect_register hm hdecide)
      have happ := appended_of_plan hs hrep.toFits hversion hx hv hid' hs'.consistent
        ((Registry.rows_apply reg plan).trans (by rw [hp, Registry.view_reader]))
      have hmode' := (happ.modeFor (.subject m.subject)).trans hmode
      have houtput : plan.output.id = id := by
        rw [hp]
        exact id_answer _ _
      obtain ⟨out, hplan, hout⟩ := happ.plan hs' hsha (bodyFor_fingerprint _ _ _ _) hrep hmode
        hversion hid hx now' guid'
      have hfast' := happ.registerFastPath hs.consistent hrep.refs hversion hid hfast
      rw [← happ.normalize srv now now' guid guid'] at hfast'
      have hthere : ∀ fast, registerFastPath srv ((reg.apply plan).view now' guid').reader
          m.subject m.draft (m.normalize srv ((reg.apply plan).view now' guid')) = .ok fast →
          (m.mutation srv).decide ((reg.apply plan).view now' guid') = fast.elim
            (m.plan srv ((reg.apply plan).view now' guid')) fun out => .ok { output := out } :=
        fun fast hpath => decide_mutation hid hmode' hpath
      rcases hfast' with hpath | hpath
      · exact ⟨out, (hthere none hpath).trans hplan, hout.trans houtput.symm⟩
      · exact ⟨_, hthere _ hpath, houtput.symm⟩

/-- The ids two runs of one request are answered with, the second right after the first. -/
def idsOfRepeat (srv : Server) (reg : Registry) (subject : String) (req : RegisterSchemaRequest) :
    Option (UInt32 × UInt32) :=
  match (Verb.register subject req false).run srv reg 0 "guid" with
  | .error _ => none
  | .ok (first, reg') =>
      match (Verb.register subject req false).run srv reg' 0 "guid" with
      | .error _ => none
      | .ok (second, _) => some (RegisterResponse.id first, RegisterResponse.id second)

/-- A request whose metadata carries a version number. -/
def numberedRequest : RegisterSchemaRequest :=
  { schema := some "\"string\"", metadata := some (oneProperty "confluent:version" "5") }

/-- A subject with default metadata and rules, and a version with metadata of its own. -/
def layeredHistory : List Request :=
  [plainRequest (.setConfig (some "s")
      { defaultMetadata := some (oneProperty "owner" "a")
        overrideRuleSet := some (.object [("domainRules",
          .array [.object [("name", .string "checked"), ("kind", .string "CONDITION")]])]) }),
    plainRequest (.register "s"
      { schema := some "\"string\"", metadata := some (oneProperty "team" "b") } false)]

end SchemaRegistry

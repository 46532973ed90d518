import SchemaRegistry.History

/-!
What a registration knows about the references it stores. Every reference of a
canonical schema names, in the context it is stored in, a version row that existed
when it was resolved, and the reference edges are exactly those targets.
-/

namespace SchemaRegistry

open Lib

variable {srv : Server} {r : Reader} {ctx : String}

/-- Where a reference to a subject, made in a context, points. -/
def pointsAt (ctx subject : String) : QualifiedSubject := refTarget ctx ⟨"", subject, 0⟩

theorem refTarget_eq (ctx : String) (sr : SchemaReference) :
    refTarget ctx sr = pointsAt ctx sr.subject := rfl

/-! ### Two readers that resolve alike -/

/-- Two readers agree on a set of versions that stored references do not lead out of. -/
structure Reader.AgreeOn (r r' : Reader) (S : QualifiedSubject → UInt32 → Prop) : Prop where
  row : ∀ {t v}, S t v → r'.getVersion t.context t.subject v = r.getVersion t.context t.subject v
  body : ∀ {t v vr}, S t v → r.getVersion t.context t.subject v = some vr →
    r'.getSchema t.context vr.id = r.getSchema t.context vr.id
  closed : ∀ {t v vr rec}, S t v → r.getVersion t.context t.subject v = some vr →
    r.getSchema t.context vr.id = some rec →
    ∀ sr ∈ rec.references, S (refTarget t.context sr) sr.target

namespace Reader.AgreeOn

variable {r' : Reader} {S : QualifiedSubject → UInt32 → Prop}

theorem collectRef (h : r.AgreeOn r' S) {levels : Nat} {name : String} {t : QualifiedSubject}
    {v : UInt32} (ht : S t v) (acc : Collected) :
    collectRef r' levels name t v acc = collectRef r levels name t v acc := by
  induction levels generalizing name t v acc with
  | zero => rfl
  | succ levels ih =>
    simp only [SchemaRegistry.collectRef, h.row ht]
    split
    · rfl
    · cases hvr : r.getVersion t.context t.subject v with
      | none => rfl
      | some vr =>
        dsimp only
        rw [h.body ht hvr]
        cases hrec : r.getSchema t.context vr.id with
        | none => rfl
        | some rec =>
          dsimp only
          rw [foldlM_congr fun sr hsr acc => ih (h.closed ht hvr hrec sr hsr) acc]

/-- The versions of the subject that a request reference names are in the set, and the same one
is selected. -/
def Selects (r r' : Reader) (S : QualifiedSubject → UInt32 → Prop) (ctx : String) (rin : RefIn) :
    Prop :=
  ∀ subject ∈ rin.subject, (∀ v, S (pointsAt ctx subject) v) ∧
    ∀ spec, getExact r' (pointsAt ctx subject) spec true
      = getExact r (pointsAt ctx subject) spec true

theorem resolveReference (h : r.AgreeOn r' S) {rin : RefIn} (hrin : Selects r r' S ctx rin)
    (acc : Collected) :
    resolveReference r' ctx rin acc = resolveReference r ctx rin acc := by
  unfold SchemaRegistry.resolveReference
  split
  · rfl
  · split
    · next name subject version hname hsubject hversion =>
        obtain ⟨hin, hexact⟩ := hrin subject hsubject
        simp only [refTarget_eq, hexact, h.collectRef (hin _)]
    · rfl

theorem resolveReferences (h : r.AgreeOn r' S) {refs : List RefIn}
    (hrefs : ∀ rin ∈ refs, Selects r r' S ctx rin) :
    resolveReferences r' ctx refs = resolveReferences r ctx refs := by
  have hloop : ∀ acc, resolveLoop r' ctx refs acc = resolveLoop r ctx refs acc := by
    induction refs with
    | nil => exact fun acc => rfl
    | cons rin rest ih =>
      intro acc
      obtain ⟨hrin, hrest⟩ := List.forall_mem_cons.mp hrefs
      simp only [resolveLoop, h.resolveReference hrin, ih hrest]
  rw [SchemaRegistry.resolveReferences, hloop, SchemaRegistry.resolveReferences]

end Reader.AgreeOn

/-! ### What a request reference resolves to -/

/-- What one resolved request reference is: the version found under its subject, and the
reference to be stored. -/
structure ReferenceFound (r : Reader) (ctx : String) (refs : List RefIn) (f : ResolvedReference) :
    Prop where
  target : f.target.1 = refTarget ctx f.concrete
  version : f.concrete.version = f.target.2.toInt32
  row : ∃ vr, r.getVersion f.target.1.context f.target.1.subject f.target.2 = some vr
  /-- The request reference it came from: a number selects that version, `latest` a live one. -/
  source : ∃ rin ∈ refs, rin.subject = some f.concrete.subject ∧
    ∃ version, rin.version = some version ∧ (0 < version ∧ f.target.2 = version.toUInt32 ∨
      version = -1 ∧ ∀ vr, r.getVersion f.target.1.context f.target.1.subject f.target.2 = some vr →
        vr.deleted = false)

theorem resolveReference_spec {rin : RefIn} {acc acc' : Collected} {f : ResolvedReference}
    (h : resolveReference r ctx rin acc = .ok (f, acc')) :
    ReferenceFound r ctx [rin] f ∧
      collectRef r maxLevels f.concrete.name f.target.1 f.target.2 acc = .ok acc' := by
  unfold resolveReference at h
  split at h
  · cases h
  · split at h
    · next name subject version hname hsubject hversion =>
        simp only [bind_eq_ok] at h
        obtain ⟨spec, hspec, h⟩ := h
        split at h
        · cases h
        · next v vr hexact =>
            have hrow := Snapshot.mem_listVersions.mp (mem_of_getExact hexact)
            split at h
            · cases h
            · next acc₁ hcollect =>
                cases h
                refine ⟨⟨rfl, rfl, ⟨vr, hrow⟩, rin, List.mem_singleton_self rin, hsubject, version,
                  hversion, ?_⟩, hcollect⟩
                unfold referenceSpec at hspec
                split at hspec
                · next hlatest =>
                    cases hspec
                    refine .inr ⟨hlatest, fun vr' hvr' => ?_⟩
                    change r.snap.getVersion _ _ v = some vr' at hvr'
                    rw [hrow, Option.some.injEq] at hvr'
                    have hlive : (v, vr).2.deleted = false := by simpa using List.find?_some hexact
                    exact hvr' ▸ hlive
                · split at hspec
                  · next hpos =>
                      cases hspec
                      have hv := List.find?_some hexact
                      exact .inl ⟨hpos, by simpa using hv⟩
                  · cases hspec
    · cases h

/-- Resolving in order: each reference adds its closure to what the ones before it collected. -/
def collectFound (r : Reader) (acc : Collected) (found : List ResolvedReference) :
    ApiResult Collected :=
  found.foldlM (fun acc f => collectRef r maxLevels f.concrete.name f.target.1 f.target.2 acc) acc

theorem ReferenceFound.mono {refs refs' : List RefIn} {f : ResolvedReference}
    (h : ReferenceFound r ctx refs f) (hsub : refs ⊆ refs') : ReferenceFound r ctx refs' f := by
  obtain ⟨rin, hrin, hsource⟩ := h.source
  exact ⟨h.target, h.version, h.row, rin, hsub hrin, hsource⟩

theorem resolveLoop_spec {refs : List RefIn} {acc acc' : Collected}
    {found : List ResolvedReference} (h : resolveLoop r ctx refs acc = .ok (found, acc')) :
    (∀ f ∈ found, ReferenceFound r ctx refs f) ∧ collectFound r acc found = .ok acc' := by
  induction refs generalizing acc found with
  | nil =>
    cases h
    exact ⟨by simp, rfl⟩
  | cons rin rest ih =>
    simp only [resolveLoop, bind_eq_ok] at h
    obtain ⟨⟨one, acc₁⟩, hone, ⟨more, acc₂⟩, hmore, h⟩ := h
    cases h
    obtain ⟨hfound, hcollect⟩ := resolveReference_spec hone
    obtain ⟨hrest, hcollected⟩ := ih hmore
    refine ⟨fun f hf => ?_, ?_⟩
    · rcases List.mem_cons.mp hf with rfl | hf
      · exact hfound.mono (by simp)
      · exact (hrest f hf).mono (List.subset_cons_self rin rest)
    · rw [collectFound, List.foldlM_cons, hcollect]
      exact hcollected

/-- The references a schema is stored with, and the targets of its edges. -/
structure Canonical (r : Reader) (ctx : String) (refsIn : List RefIn)
    (refs : List SchemaReference) (targets : List (QualifiedSubject × UInt32))
    (found : List ResolvedReference) : Prop where
  refs : refs = found.map (·.concrete)
  targets : targets = found.map (·.target)
  each : ∀ f ∈ found, ReferenceFound r ctx refsIn f
  collected : ∃ acc, collectFound r {} found = .ok acc

theorem canonicalize_spec {q : QualifiedSubject} {d : Draft} {isNew normalize : Bool}
    {c : Canon srv.fmt.Inner} (h : canonicalize srv r q d isNew normalize = .ok (some c)) :
    ∃ found, Canonical r q.context d.refs c.refs c.targets found := by
  unfold canonicalize at h
  split at h
  · cases h
  · obtain ⟨schemaType, -, h⟩ := bind_eq_ok.mp h
    split at h
    · cases h
    · next refs resolved targets hres =>
        simp only [resolveReferences, bind_eq_ok] at hres
        obtain ⟨⟨found, acc⟩, hloop, hres⟩ := hres
        cases hres
        obtain ⟨hfound, hcollected⟩ := resolveLoop_spec hloop
        split at h
        · cases h
        · split at h
          · cases h
          · cases h
            exact ⟨found, rfl, rfl, hfound, acc, hcollected⟩

/-- A draft that keeps the request's references, or has those of the latest live version. -/
structure Inherits (r : Reader) (q : QualifiedSubject) (latest : Option (UInt32 × VersionRecord))
    (d d' : Draft) : Prop where
  version : d'.version = d.version
  id : d'.id = d.id
  refs : d'.refs = d.refs ∨ ∃ p rec, latest = some p ∧ r.getSchema q.context p.2.id = some rec ∧
    d'.refs = rec.references.map RefIn.ofReference

theorem inheritMetadata_spec (cfg : ConfigRecord) (d : Draft) (populated : Bool)
    (previous : Option Entity) (next : UInt32) :
    let d' := (inheritMetadata cfg d populated previous next).1
    d'.version = d.version ∧ d'.id = d.id ∧ d'.refs = d.refs := by
  simp only [inheritMetadata, apply_ite Prod.fst, apply_ite Draft.version, apply_ite Draft.id,
    apply_ite Draft.refs, ite_self, and_self]

theorem populateFromPrevious_spec {q : QualifiedSubject} {cfg : ConfigRecord} {d d' : Draft}
    {latest : Option (UInt32 × VersionRecord)} {next : UInt32} {modified : Bool}
    (h : populateFromPrevious r q cfg d latest next = .ok (d', modified)) :
    Inherits r q latest d d' := by
  simp only [populateFromPrevious, bind_eq_ok, Except.ok.injEq] at h
  obtain ⟨previous, hprev, ⟨d₁, populated⟩, hschema, h⟩ := h
  obtain ⟨hversion, hid, hrefs⟩ := inheritMetadata_spec cfg d₁ populated previous next
  rw [h] at hversion hid hrefs
  unfold inheritSchema at hschema
  split at hschema
  · cases latest with
    | none =>
      cases hprev
      cases hschema
    | some p =>
      simp only [Option.mapM_some, entity] at hprev
      cases hrec : r.getSchema q.context p.2.id with
      | none =>
        rw [hrec] at hprev
        cases hprev
      | some rec =>
        rw [hrec] at hprev
        cases hprev
        cases hschema
        exact ⟨hversion, hid, .inr ⟨p, rec, rfl, hrec, hrefs⟩⟩
  · cases hschema
    exact ⟨hversion, hid, .inl hrefs⟩

/-- The content a registration works out, if it gets that far. -/
def RegisterSchema.content (srv : Server) (view : ReadView) (m : RegisterSchema) :
    Option (Canon srv.fmt.Inner) :=
  match m.inherited srv view with
  | .error _ => none
  | .ok (d, _) =>
      match canonicalize srv view.reader m.subject d (d.id < 0) (m.normalize srv view) with
      | .error _ => none
      | .ok c => c

/-- What a registration that goes on to store something has worked out. -/
structure Resolution (srv : Server) (view : ReadView) (m : RegisterSchema)
    (x : RegisterSchema.Resolved srv.fmt.Inner) : Prop where
  inherits : Inherits view.reader m.subject
    (RegisterSchema.undeleted view.reader m.subject).head? m.draft x.draft
  canon : canonicalize srv view.reader m.subject x.draft (x.draft.id < 0) (m.normalize srv view)
    = .ok (some x.canon)
  content : m.content srv view = some x.canon
  schemaId : (x.schemaId = x.draft.id ∧
      (x.draft.id < 0 → hashLookup srv view.reader m.subject x.canon = none)) ∨ ∃ id hit,
    hashLookup srv view.reader m.subject x.canon = some (id, hit) ∧
      (x.draft.id < 0 ∨ x.draft.id.toUInt32 = id) ∧ x.schemaId = id.toInt32

theorem afterHash_spec {q : QualifiedSubject} {d : Draft} {modified : Bool}
    {c : Canon srv.fmt.Inner} {schemaId : Int32} {x : RegisterSchema.Resolved srv.fmt.Inner}
    (h : RegisterSchema.resolve.afterHash srv r q d modified c schemaId = .ok (.inr x)) :
    x = ⟨d, modified, c, schemaId⟩ := by
  obtain ⟨equal, -, h⟩ := bind_eq_ok.mp h
  cases equal with
  | none =>
    cases h
    rfl
  | some p => cases h

theorem inherited_spec {m : RegisterSchema} {view : ReadView} {d : Draft} {modified : Bool}
    (h : m.inherited srv view = .ok (d, modified)) :
    Inherits view.reader m.subject (RegisterSchema.undeleted view.reader m.subject).head?
      m.draft d := by
  simp only [RegisterSchema.inherited] at h
  split at h
  · cases h
    exact ⟨rfl, rfl, .inl rfl⟩
  · exact populateFromPrevious_spec h

theorem resolve_spec {m : RegisterSchema} {view : ReadView}
    {x : RegisterSchema.Resolved srv.fmt.Inner} (h : m.resolve srv view = .ok (.inr x)) :
    Resolution srv view m x := by
  simp only [RegisterSchema.resolve, bind_eq_ok] at h
  obtain ⟨⟨d, modified⟩, hdraft, canon, hcanon, h⟩ := h
  have hinherits := inherited_spec hdraft
  cases canon with
  | none => cases h
  | some c =>
    have hcontent : m.content srv view = some c := by simp [RegisterSchema.content, hdraft, hcanon]
    dsimp only at h
    split at h
    · next id v vr hhit =>
        split at h
        · cases h
        · obtain rfl := afterHash_spec h
          obtain ⟨hlookup, hid⟩ := Option.filter_eq_some_iff.mp hhit
          exact ⟨hinherits, hcanon, hcontent, .inr ⟨id, _, hlookup, by simpa using hid, rfl⟩⟩
    · next id hhit =>
        obtain rfl := afterHash_spec h
        obtain ⟨hlookup, hid⟩ := Option.filter_eq_some_iff.mp hhit
        exact ⟨hinherits, hcanon, hcontent, .inr ⟨id, _, hlookup, by simpa using hid, rfl⟩⟩
    · next hhit =>
        obtain rfl := afterHash_spec h
        refine ⟨hinherits, hcanon, hcontent, .inl ⟨rfl, fun hneg => ?_⟩⟩
        rw [Option.filter_eq_none_iff] at hhit
        exact Option.eq_none_iff_forall_ne_some.mpr fun p hp => hhit p hp (by simp [hneg])

/-- The registration that a request makes. -/
theorem eq_of_new {subject : String} {req : RegisterSchemaRequest} {normalize : Bool}
    {m : RegisterSchema} (h : RegisterSchema.new subject req normalize = .ok m) :
    m = ⟨QualifiedSubject.parse subject, Draft.ofRequest req, normalize⟩ := by
  unfold RegisterSchema.new at h
  split at h <;> cases h
  rfl

/-! ### What a registration adds -/

section Adds

variable {verb : Verb} {ws : List Write} {evs : List LogEvent}

/-- The body a registration stores has the references it resolved, or is the one that was
there. -/
theorem bodyFor_references (srv : Server) (view : ReadView) (ctx : String) (id : UInt32)
    (c : Canon srv.fmt.Inner) :
    (RegisterSchema.bodyFor srv view ctx id c).references = c.refs ∨
      view.reader.getSchema ctx id = some (RegisterSchema.bodyFor srv view ctx id c) := by
  unfold RegisterSchema.bodyFor
  cases view.reader.getSchema ctx id with
  | none => exact .inl rfl
  | some existing =>
    by_cases hfp : existing.fingerprint = c.fingerprint
    · simp [hfp]
    · simp [hfp]

/-- What a registration adds. -/
inductive Adds (srv : Server) (view : ReadView) (q : QualifiedSubject) (version id : UInt32)
    (c : Canon srv.fmt.Inner) : Write → Prop
  | body : Adds srv view q version id c
      (.putSchema q.context id (RegisterSchema.bodyFor srv view q.context id c) true)
  | next (h : view.reader.nextId q.context ≤ id) : Adds srv view q version id c
      (.setNextId q.context (id + 1))
  | version : Adds srv view q version id c
      (.putVersion q.context q.subject version ⟨id, false, view.now⟩)
  | refby (t : QualifiedSubject × UInt32) (ht : t ∈ c.targets) : Adds srv view q version id c
      (.putRefby t.1.context t.1.subject t.2 id)

theorem mem_added {view : ReadView} {q : QualifiedSubject} {version id : UInt32}
    {c : Canon srv.fmt.Inner} {w : Write} :
    w ∈ RegisterSchema.added srv view q version id c ↔ Adds srv view q version id c w := by
  simp only [RegisterSchema.added, List.mem_append, List.mem_singleton, List.mem_map]
  constructor
  · rintro (((rfl | hw) | rfl) | ⟨t, ht, rfl⟩)
    · exact .body
    · split at hw
      · next h =>
          obtain rfl := List.mem_singleton.mp hw
          exact .next h
      · cases hw
    · exact .version
    · exact .refby t ht
  · rintro (_ | h | _ | ⟨t, ht⟩)
    · exact .inl (.inl (.inl rfl))
    · exact .inl (.inl (.inr (by simp [h])))
    · exact .inl (.inr rfl)
    · exact .inr ⟨t, ht, rfl⟩

/-- Only a registration stores a body. -/
theorem Effect.putSchema {view : ReadView} (h : Effect srv view verb ws evs) {ctx : String}
    {id : UInt32} {rec : SchemaRecord} {index : Bool} (hw : .putSchema ctx id rec index ∈ ws) :
    ∃ (m : RegisterSchema) (x : RegisterSchema.Resolved srv.fmt.Inner),
      m.resolve srv view = .ok (.inr x) ∧ ctx = m.subject.context ∧
      rec = RegisterSchema.bodyFor srv view ctx id x.canon ∧
      ∃ subject req normalize, verb = .register subject req normalize ∧
        RegisterSchema.new subject req normalize = .ok m := by
  cases h with
  | silent => cases hw
  | settings hws => exact (hws _ hw).elim
  | softDelete q rows extra hrows hextra =>
    rcases List.mem_append.mp hw with hw | hw
    · simp [softDeleteWrite] at hw
    · exact (hextra _ hw).elim
  | hardDelete q rows hrows =>
    obtain ⟨row, -, hdel⟩ := mem_hardDeleteAll.mp hw
    cases hdel
  | purge m hm hpurges hrows =>
    rcases List.mem_append.mp hw with hw | hw
    · obtain ⟨row, -, hdel⟩ := mem_hardDeleteAll.mp hw
      cases hdel
    · simp at hw
  | register m hm x hx version id hversion hid =>
    rcases List.mem_append.mp hw with hw | hw
    · exact (removes_of_replaced hw).isRemoval.elim
    · cases mem_added.mp hw
      exact ⟨m, x, hx, rfl, rfl, _, _, _, rfl, hm⟩

/-- A body that is there after writes was there before, or was stored. -/
theorem body_after {ρ : Rows} {ctx : String} {id : UInt32} {rec : SchemaRecord}
    (hrec : ρ.after ws (.body ctx id) = some rec) :
    ρ (.body ctx id) = some rec ∨ ∃ index, .putSchema ctx id rec index ∈ ws := by
  rcases writeAll_cases Write.touch ρ ws (.body ctx id) with
    ⟨hsame, -⟩ | ⟨w, hw, hx⟩
  · exact .inl (hsame.symm.trans hrec)
  · rw [show writeAll Write.touch ρ ws (.body ctx id) = some rec from hrec] at hx
    cases w with
    | putSchema ctx' id' rec' index =>
      simp only [Write.touch, Option.ite_none_right_eq_some, Option.some.injEq] at hx
      obtain ⟨⟨rfl, rfl⟩, rfl⟩ := hx
      exact .inr ⟨index, hw⟩
    | _ => simp [Write.touch] at hx

/-! ### The rows after a registration -/

variable {view : ReadView} {q : QualifiedSubject} {version id : UInt32} {c : Canon srv.fmt.Inner}

/-- A stale row of the subject: soft-deleted, older, with the id that is being stored. -/
def Stale (r : Reader) (q : QualifiedSubject) (version id v : UInt32) : Prop :=
  ∃ vr, (v, vr) ∈ r.listVersions q.context q.subject ∧ vr.deleted = true ∧ vr.id = id ∧ v < version

theorem replaced_isRemoval {r : Reader} :
    ∀ w ∈ (RegisterSchema.replaced r q version id).1, w.IsRemoval :=
  fun _ hw => (removes_of_replaced hw).isRemoval

/-- A key after a registration: set by what it adds, else emptied by what it replaces, else
left alone. -/
theorem after_register (ρ : Rows) {k : RowKey} (x : RowVal k) (p : Prop)
    (hadd : ∀ w y, Adds srv view q version id c w → w.touch k = some y → p ∧ y = x)
    (hex : p → ∃ w, Adds srv view q version id c w ∧ k ∈ w.keys) :
    let after := ρ.after (RegisterSchema.written srv view q version id c) k
    p ∧ after = x ∨ ¬ p ∧
      ((∃ w ∈ (RegisterSchema.replaced view.reader q version id).1, k ∈ w.keys) ∧
          after = Rows.empty k ∨
        (∀ w ∈ (RegisterSchema.replaced view.reader q version id).1, k ∉ w.keys) ∧
          after = ρ k) := by
  intro after
  have hafter : after = writeAll Write.touch
      (ρ.after (RegisterSchema.replaced view.reader q version id).1)
      (RegisterSchema.added srv view q version id c) k := congrFun writeAll_append k
  rcases writeAll_cases Write.touch (ρ.after (RegisterSchema.replaced view.reader q version id).1)
      (RegisterSchema.added srv view q version id c) k with
    ⟨hsame, hun⟩ | ⟨w, hw, hx⟩
  · have hp : ¬ p := fun hp => by
      obtain ⟨w, hw, hk⟩ := hex hp
      exact Write.touch_ne_none hk (hun w (mem_added.mpr hw))
    rw [hafter, hsame]
    exact .inr ⟨hp, after_removals replaced_isRemoval ρ k⟩
  · rw [← hafter] at hx
    exact .inl (hadd w after (mem_added.mp hw) hx)

/-- The version rows after a registration. -/
theorem version_register (srv : Server) (view : ReadView) (q : QualifiedSubject)
    (version id : UInt32) (c : Canon srv.fmt.Inner) (ρ : Rows) (ctx subject : String) (v : UInt32) :
    let after := ρ.after (RegisterSchema.written srv view q version id c) (.version ctx subject v)
    (q = ⟨ctx, subject⟩ ∧ v = version) ∧ after = some ⟨id, false, view.now⟩ ∨
      ¬ (q = ⟨ctx, subject⟩ ∧ v = version) ∧
        ((q = ⟨ctx, subject⟩ ∧ Stale view.reader q version id v) ∧ after = none ∨
          ¬ (q = ⟨ctx, subject⟩ ∧ Stale view.reader q version id v) ∧
            after = ρ (.version ctx subject v)) := by
  intro after
  have hgone : (∃ w ∈ (RegisterSchema.replaced view.reader q version id).1,
      .version ctx subject v ∈ w.keys) → ¬ (q = ⟨ctx, subject⟩ ∧ v = version) →
      q = ⟨ctx, subject⟩ ∧ Stale view.reader q version id v := by
    rintro ⟨w, hw, hk⟩ hne
    rcases mem_replaced.mp hw with ⟨vr, hmem, hdel⟩ | ⟨p, hmem, hdel, hid, hlt, hw⟩
    · obtain ⟨hq, hv⟩ := exists_deletes_version.mp ⟨w, hdel, hk⟩
      exact (hne ⟨hq, hv.symm⟩).elim
    · obtain ⟨hq, rfl⟩ := exists_deletes_version.mp ⟨w, hw, hk⟩
      exact ⟨hq, p.2, hmem, hdel, hid, hlt⟩
  have hstale : q = ⟨ctx, subject⟩ ∧ Stale view.reader q version id v →
      ∃ w ∈ (RegisterSchema.replaced view.reader q version id).1,
        .version ctx subject v ∈ w.keys := by
    rintro ⟨hq, vr, hmem, hdel, hid, hlt⟩
    obtain ⟨w, hw, hk⟩ := exists_deletes_version.mpr ⟨hq, rfl⟩
    exact ⟨w, mem_replaced.mpr (.inr ⟨(v, vr), hmem, hdel, hid, hlt, hw⟩), hk⟩
  have hadd : ∀ w y, Adds srv view q version id c w → w.touch (.version ctx subject v) = some y →
      (q = ⟨ctx, subject⟩ ∧ v = version) ∧ y = some ⟨id, false, view.now⟩ := by
    intro w y hw hy
    cases hw <;> simp [Write.touch] at hy
    obtain ⟨⟨rfl, rfl, rfl⟩, rfl⟩ := hy
    exact ⟨⟨rfl, rfl⟩, rfl⟩
  rcases after_register ρ _ _ hadd (by rintro ⟨rfl, rfl⟩; exact ⟨_, .version, by simp [Write.keys]⟩)
    with h | ⟨hne, ⟨hex, h⟩ | ⟨hnot, h⟩⟩
  · exact .inl h
  · exact .inr ⟨hne, .inl ⟨hgone hex hne, h⟩⟩
  · refine .inr ⟨hne, .inr ⟨fun hst => ?_, h⟩⟩
    obtain ⟨w, hw, hk⟩ := hstale hst
    exact hnot w hw hk

/-- The bodies after a registration. -/
theorem body_register (srv : Server) (view : ReadView) (q : QualifiedSubject)
    (version id : UInt32) (c : Canon srv.fmt.Inner) (ρ : Rows) (ctx : String) (i : UInt32) :
    let after := ρ.after (RegisterSchema.written srv view q version id c) (.body ctx i)
    (q.context = ctx ∧ i = id) ∧ after = some (RegisterSchema.bodyFor srv view q.context id c) ∨
      ¬ (q.context = ctx ∧ i = id) ∧
        ((∃ vr, (version, vr) ∈ view.reader.listVersions q.context q.subject ∧ q.context = ctx ∧
            vr.id = i ∧ stillUsed view.reader q version vr.id [] = false) ∧ after = none ∨
          (∀ vr, (version, vr) ∈ view.reader.listVersions q.context q.subject → q.context = ctx →
            vr.id = i → stillUsed view.reader q version vr.id [] = false →
            view.reader.getSchema ctx i = none) ∧ after = ρ (.body ctx i)) := by
  intro after
  have hadd : ∀ w y, Adds srv view q version id c w → w.touch (.body ctx i) = some y →
      (q.context = ctx ∧ i = id) ∧ y = some (RegisterSchema.bodyFor srv view q.context id c) := by
    intro w y hw hy
    cases hw <;> simp [Write.touch] at hy
    obtain ⟨⟨rfl, rfl⟩, rfl⟩ := hy
    exact ⟨⟨rfl, rfl⟩, rfl⟩
  rcases after_register ρ _ _ hadd (by rintro ⟨rfl, rfl⟩; exact ⟨_, .body, by simp [Write.keys]⟩)
    with h | ⟨hne, ⟨⟨w, hw, hk⟩, h⟩ | ⟨hnot, h⟩⟩
  · exact .inl h
  · refine .inr ⟨hne, .inl ⟨?_, h⟩⟩
    rcases mem_replaced.mp hw with ⟨vr, hmem, hdel⟩ | ⟨p, hmem, hdel, hid, hlt, hw⟩
    · obtain ⟨hctx, hid, hused, -⟩ := exists_deletes_body.mp ⟨w, hdel, hk⟩
      exact ⟨vr, hmem, hctx, hid, hused⟩
    · obtain ⟨hctx, hid', -⟩ := exists_deletes_body.mp ⟨w, hw, hk⟩
      exact (hne ⟨hctx, hid'.symm.trans hid⟩).elim
  · refine .inr ⟨hne, .inr ⟨fun vr hmem hctx hid hused => ?_, h⟩⟩
    by_contra hsome
    obtain ⟨w, hw, hk⟩ := exists_deletes_body.mpr
      ⟨hctx, hid, hused, by rw [hctx, hid]; exact Option.isSome_iff_ne_none.mpr hsome⟩
    exact hnot w (mem_replaced.mpr (.inl ⟨vr, hmem, hw⟩)) hk

end Adds

end SchemaRegistry

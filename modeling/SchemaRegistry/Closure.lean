import SchemaRegistry.Ordinary

/-!
Reference closure: the stored references of every live version resolve. The verbs
that remove what they are asked to remove check for live referrers; a registration
removes older soft-deleted versions without that check, so a version registered with
a reference to one of those can be left dangling. Along histories whose references
name live versions, every live version keeps resolving.
-/

namespace SchemaRegistry

open Lib

variable {srv : Server} {reg : Registry} {verb : Verb} {now : Int} {guid : String}

/-! ### Resolution reads only what it reaches -/

section Resolution

variable {r r' : Reader} {ctx : String} {S : QualifiedSubject → UInt32 → Prop}

/-- Two views hold the same content under a set of versions that is closed under reference. -/
def Shared (r r' : Reader) (S : QualifiedSubject → UInt32 → Prop) : Prop :=
  ∀ q v, S q v → ∃ vr vr' rec, r.getVersion q.context q.subject v = some vr ∧
    r'.getVersion q.context q.subject v = some vr' ∧ r.getSchema q.context vr.id = some rec ∧
    r'.getSchema q.context vr'.id = some rec ∧
    ∀ sr ∈ rec.references, S (refTarget q.context sr) sr.target

/-- Two views hold the same texts and references under a set of versions that is closed under
reference. -/
def TextsShared (r r' : Reader) (S : QualifiedSubject → UInt32 → Prop) : Prop :=
  ∀ q v, S q v → ∃ vr vr' rec rec', r.getVersion q.context q.subject v = some vr ∧
    r'.getVersion q.context q.subject v = some vr' ∧ r.getSchema q.context vr.id = some rec ∧
    r'.getSchema q.context vr'.id = some rec' ∧ rec'.schema = rec.schema ∧
    rec'.references = rec.references ∧
    ∀ sr ∈ rec.references, S (refTarget q.context sr) sr.target

theorem Shared.texts (h : Shared r r' S) : TextsShared r r' S := by
  intro q v hS
  obtain ⟨vr, vr', rec, hrow, hrow', hrec, hrec', hrefs⟩ := h q v hS
  exact ⟨vr, vr', rec, rec, hrow, hrow', hrec, hrec', rfl, rfl, hrefs⟩

theorem TextsShared.collectRef (h : TextsShared r r' S) {levels : Nat} {name : String}
    {q : QualifiedSubject} {v : UInt32} (hS : S q v) (acc : Collected) :
    collectRef r' levels name q v acc = collectRef r levels name q v acc := by
  induction levels generalizing name q v acc with
  | zero => rfl
  | succ levels ih =>
    obtain ⟨vr, vr', rec, rec', hrow, hrow', hrec, hrec', htext, hsame, hrefs⟩ := h q v hS
    simp only [SchemaRegistry.collectRef, hrow, hrow', hrec, hrec', htext, hsame]
    rw [foldlM_congr fun sr hsr acc => ih (hrefs sr hsr) acc]

/-- The closures of stored references, one after another. -/
def collectStored (r : Reader) (ctx : String) (acc : Collected) (refs : List SchemaReference) :
    ApiResult Collected :=
  refs.foldlM (fun acc sr => collectRef r maxLevels sr.name (refTarget ctx sr) sr.target acc) acc

theorem TextsShared.collectStored (h : TextsShared r r' S) {refs : List SchemaReference}
    (hrefs : ∀ sr ∈ refs, S (refTarget ctx sr) sr.target) (acc : Collected) :
    collectStored r' ctx acc refs = collectStored r ctx acc refs :=
  foldlM_congr (fun sr hsr acc => h.collectRef (hrefs sr hsr) acc) acc

theorem Shared.collectStored (h : Shared r r' S) {refs : List SchemaReference}
    (hrefs : ∀ sr ∈ refs, S (refTarget ctx sr) sr.target) (acc : Collected) :
    collectStored r' ctx acc refs = collectStored r ctx acc refs :=
  h.texts.collectStored hrefs acc

/-- What a stored reference by positive number resolves to: itself. -/
def SchemaReference.found (ctx : String) (sr : SchemaReference) : ResolvedReference :=
  ⟨sr, (refTarget ctx sr, sr.target)⟩

theorem referenceSpec_of_pos {sr : SchemaReference} (hpos : 0 < sr.version) :
    referenceSpec sr.version = .ok (.exact sr.target) := by
  have hne : sr.version ≠ -1 := by
    rintro heq
    rw [heq] at hpos
    exact absurd hpos (by decide)
  simp [referenceSpec, hne, hpos, SchemaReference.target_of_pos hpos]

theorem found_eq_of_pos {sr : SchemaReference} (hpos : 0 < sr.version) :
    sr.found ctx = ⟨⟨sr.name, sr.subject, sr.target.toInt32⟩, (refTarget ctx sr, sr.target)⟩ := by
  have hback : sr.target.toInt32 = sr.version := by
    rw [SchemaReference.target_of_pos hpos]
    exact Int32.toInt32_toUInt32 sr.version
  rw [hback]
  rfl

/-- A stored reference by positive number to a row that is there resolves once its closure
does. -/
theorem resolveReference_stored {sr : SchemaReference} {acc acc' : Collected}
    (hpos : 0 < sr.version) (hrow : (r.getVersion (refTarget ctx sr).context
      (refTarget ctx sr).subject sr.target).isSome = true)
    (hcollect : collectRef r maxLevels sr.name (refTarget ctx sr) sr.target acc = .ok acc') :
    resolveReference r ctx (RefIn.ofReference sr) acc = .ok (sr.found ctx, acc') := by
  obtain ⟨vr, hrow⟩ := Option.isSome_iff_exists.mp hrow
  obtain ⟨p, hp⟩ := Option.isSome_iff_exists.mp
    ((List.find?_isSome (p := fun p : UInt32 × VersionRecord => p.1 == sr.target
      && (true || !p.2.deleted))).mpr
        ⟨(sr.target, vr), Snapshot.mem_listVersions.mpr hrow, by simp⟩)
  have hv : p.1 = sr.target := by simpa using List.find?_some hp
  have hexact : getExact r (refTarget ctx sr) (.exact sr.target) true = some p := hp
  obtain ⟨v, vr'⟩ := p
  obtain rfl : v = sr.target := hv
  rw [found_eq_of_pos hpos]
  simp [resolveReference, RefIn.ofReference, referenceSpec_of_pos hpos, hexact, hcollect, bind,
    Except.bind]

theorem resolveLoop_stored {refs : List SchemaReference} {acc acc' : Collected}
    (hrefs : ∀ sr ∈ refs, 0 < sr.version ∧ (r.getVersion (refTarget ctx sr).context
      (refTarget ctx sr).subject sr.target).isSome = true)
    (hcollect : collectStored r ctx acc refs = .ok acc') :
    resolveLoop r ctx (refs.map RefIn.ofReference) acc
      = .ok (refs.map (SchemaReference.found ctx), acc') := by
  induction refs generalizing acc with
  | nil =>
    cases hcollect
    rfl
  | cons sr refs ih =>
    rw [collectStored, List.foldlM_cons] at hcollect
    obtain ⟨acc₁, hone, hrest⟩ := bind_eq_ok.mp hcollect
    obtain ⟨hpos, hrow⟩ := hrefs sr List.mem_cons_self
    have hmore := ih (fun sr' hsr' => hrefs sr' (List.mem_cons_of_mem sr hsr')) hrest
    simp [resolveLoop, resolveReference_stored hpos hrow hone, hmore, bind, Except.bind]

theorem resolveStored_of_collected {refs : List SchemaReference} {acc : Collected}
    (hrefs : ∀ sr ∈ refs, 0 < sr.version ∧ (r.getVersion (refTarget ctx sr).context
      (refTarget ctx sr).subject sr.target).isSome = true)
    (hcollect : collectStored r ctx {} refs = .ok acc) :
    resolveStored r ctx refs = .ok acc.out := by
  simp [resolveStored, resolveReferences, resolveLoop_stored hrefs hcollect, bind, Except.bind]

end Resolution

/-! ### The property and the condition -/

/-- The references of every live version resolve: each to a row that is there, and all of
them together with what they reach. -/
def Registry.ReferencesResolve (reg : Registry) : Prop :=
  ∀ ctx subject v vr, reg.reader.getVersion ctx subject v = some vr → vr.deleted = false →
    ∃ rec, reg.reader.getSchema ctx vr.id = some rec ∧
      (∀ sr ∈ rec.references, (reg.reader.getVersion (refTarget ctx sr).context
        (refTarget ctx sr).subject sr.target).isSome = true) ∧
      ∃ out, resolveStored reg.reader ctx rec.references = .ok out

/-- An ordinary registration that references live versions only, and overwrites none that a
live version, or itself, references. -/
structure RegisterSchema.Careful (srv : Server) (view : ReadView) (m : RegisterSchema) : Prop
    extends RegisterSchema.Ordinary srv view m where
  live : ∀ rin ∈ m.draft.refs, ∀ subject ∈ rin.subject, ∀ version ∈ rin.version, 0 < version →
    ∀ vr ∈ view.reader.getVersion (pointsAt m.subject.context subject).context
      (pointsAt m.subject.context subject).subject version.toUInt32, vr.deleted = false
  overwrites : 0 < m.draft.version →
    (view.reader.getVersion m.subject.context m.subject.subject
      m.draft.version.toUInt32).isSome = true →
    liveReferrers view.reader m.subject.context m.subject.subject m.draft.version.toUInt32 = [] ∧
    ∀ rin ∈ m.draft.refs, ∀ subject ∈ rin.subject, ∀ version ∈ rin.version,
      pointsAt m.subject.context subject = m.subject → version ≠ -1 ∧ version ≠ m.draft.version

/-- A step that, if it registers, does so carefully. -/
def Registry.Careful (srv : Server) (reg : Registry) (req : Request) : Prop :=
  ∀ subject body normalize m, req.verb = .register subject body normalize →
    RegisterSchema.new subject body normalize = .ok m →
    m.Careful srv (reg.view req.now req.newGuid)

theorem Registry.Careful.ordinary {req : Request} (h : reg.Careful srv req) :
    reg.Ordinary srv req :=
  fun subject body normalize m hverb hm => (h subject body normalize m hverb hm).toOrdinary

/-! ### The invariant -/

/-- A live version row. -/
def Rows.Live (ρ : Rows) (ctx subject : String) (v : UInt32) (vr : VersionRecord) : Prop :=
  ρ (.version ctx subject v) = some vr ∧ vr.deleted = false

/-- What is known of the references of a live version: their targets are live, the edges
from them are there, and their closure can be collected. -/
structure Anchored (reg : Registry) (ctx : String) (id : UInt32) (refs : List SchemaReference) :
    Prop where
  target : ∀ sr ∈ refs, ∃ tr, reg.rows.Live (refTarget ctx sr).context (refTarget ctx sr).subject
    sr.target tr
  edge : ∀ sr ∈ refs, reg.rows (.refby (refTarget ctx sr).context (refTarget ctx sr).subject
    sr.target id) = true
  collected : ∃ acc, collectStored reg.reader ctx {} refs = .ok acc

structure Registry.Closed (reg : Registry) : Prop where
  inOrder : reg.InOrder
  anchored : ∀ {ctx subject v vr rec}, reg.rows.Live ctx subject v vr →
    reg.rows (.body ctx vr.id) = some rec → Anchored reg ctx vr.id rec.references

theorem Registry.Closed.referencesResolve (h : reg.Closed) : reg.ReferencesResolve := by
  intro ctx subject v vr hrow hlive
  obtain ⟨rec, hrec⟩ := Option.isSome_iff_exists.mp
    (h.inOrder.present ctx vr.id ⟨subject, v, vr, hrow, rfl⟩)
  have hanchored := h.anchored ⟨hrow, hlive⟩ hrec
  have hrows : ∀ sr ∈ rec.references, (reg.reader.getVersion (refTarget ctx sr).context
      (refTarget ctx sr).subject sr.target).isSome = true := fun sr hsr => by
    obtain ⟨tr, htr, -⟩ := hanchored.target sr hsr
    exact Option.isSome_iff_exists.mpr ⟨tr, htr⟩
  obtain ⟨acc, hacc⟩ := hanchored.collected
  exact ⟨rec, hrec, hrows, acc.out, resolveStored_of_collected
    (fun sr hsr => ⟨(h.inOrder.refs hrec sr hsr).2, hrows sr hsr⟩) hacc⟩

/-- What a live version references has a live referrer. -/
theorem Registry.Closed.referenced (h : reg.Closed) {ctx subject : String} {v : UInt32}
    {vr : VersionRecord} {rec : SchemaRecord} (hlive : reg.rows.Live ctx subject v vr)
    (hrec : reg.rows (.body ctx vr.id) = some rec) {sr : SchemaReference}
    (hsr : sr ∈ rec.references) :
    liveReferrers reg.reader (refTarget ctx sr).context (refTarget ctx sr).subject
      sr.target ≠ [] := by
  refine List.ne_nil_of_mem (a := vr.id) ((Registry.mem_liveReferrers h.inOrder.consistent).mpr
    ⟨(h.anchored hlive hrec).edge sr hsr, subject, v, vr, ?_, rfl, hlive.2⟩)
  rw [(h.inOrder.refs hrec sr hsr).1]
  exact hlive.1

/-- What a step leaves of the live versions. -/
structure Keeps (reg reg' : Registry) : Prop where
  referenced : ∀ {ctx subject v vr}, reg.rows.Live ctx subject v vr →
    liveReferrers reg.reader ctx subject v ≠ [] → reg'.rows.Live ctx subject v vr
  body : ∀ {ctx subject v vr}, reg.rows.Live ctx subject v vr → reg'.rows.Live ctx subject v vr →
    reg'.rows (.body ctx vr.id) = reg.rows (.body ctx vr.id)
  edge : ∀ {ctx subject v vr rec}, reg.rows.Live ctx subject v vr →
    reg'.rows.Live ctx subject v vr → reg.rows (.body ctx vr.id) = some rec →
    ∀ sr ∈ rec.references,
      reg.rows (.refby (refTarget ctx sr).context (refTarget ctx sr).subject sr.target vr.id)
        = true →
      reg'.rows (.refby (refTarget ctx sr).context (refTarget ctx sr).subject sr.target vr.id)
        = true

/-- The versions live before and after a step share their content. -/
theorem Registry.Closed.shared {reg' : Registry} (h : reg.Closed) (hk : Keeps reg reg') :
    Shared reg.reader reg'.reader fun q v => ∃ vr, reg.rows.Live q.context q.subject v vr ∧
      reg'.rows.Live q.context q.subject v vr := by
  rintro q v ⟨vr, hlive, hlive'⟩
  obtain ⟨rec, hrec⟩ := Option.isSome_iff_exists.mp
    (h.inOrder.present q.context vr.id ⟨q.subject, v, vr, hlive.1, rfl⟩)
  refine ⟨vr, vr, rec, hlive.1, hlive'.1, hrec, (hk.body hlive hlive').trans hrec, fun sr hsr => ?_⟩
  obtain ⟨tr, htr⟩ := (h.anchored hlive hrec).target sr hsr
  exact ⟨tr, htr, hk.referenced htr (h.referenced hlive hrec hsr)⟩

/-- A version that lives through a step stays anchored. -/
theorem Registry.Closed.survivor {reg' : Registry} (h : reg.Closed) (hk : Keeps reg reg')
    {ctx subject : String} {v : UInt32} {vr : VersionRecord} {rec : SchemaRecord}
    (hlive : reg.rows.Live ctx subject v vr) (hlive' : reg'.rows.Live ctx subject v vr)
    (hrec' : reg'.rows (.body ctx vr.id) = some rec) : Anchored reg' ctx vr.id rec.references := by
  have hrec := (hk.body hlive hlive').symm.trans hrec'
  have hanchored := h.anchored hlive hrec
  have hkept : ∀ sr ∈ rec.references, ∃ tr,
      reg.rows.Live (refTarget ctx sr).context (refTarget ctx sr).subject sr.target tr ∧
      reg'.rows.Live (refTarget ctx sr).context (refTarget ctx sr).subject sr.target tr :=
    fun sr hsr => by
      obtain ⟨tr, htr⟩ := hanchored.target sr hsr
      exact ⟨tr, htr, hk.referenced htr (h.referenced hlive hrec hsr)⟩
  obtain ⟨acc, hacc⟩ := hanchored.collected
  exact
    { target := fun sr hsr => (hkept sr hsr).imp fun _ => And.right
      edge := fun sr hsr => hk.edge hlive hlive' hrec sr hsr (hanchored.edge sr hsr)
      collected := ⟨acc, ((h.shared hk).collectStored hkept {}).trans hacc⟩ }

/-! ### Steps -/

theorem Registry.InOrder.body_isSome (h : reg.InOrder) {ctx subject : String} {v : UInt32}
    {vr : VersionRecord} (hlive : reg.rows.Live ctx subject v vr) :
    ∃ rec, reg.rows (.body ctx vr.id) = some rec :=
  Option.isSome_iff_exists.mp (h.present ctx vr.id ⟨subject, v, vr, hlive.1, rfl⟩)

theorem keeps_of_shrinks {reg' : Registry} (h : reg.InOrder) (h' : reg'.InOrder)
    (hs : Shrinks reg reg'.rows) : Keeps reg reg' where
  referenced hlive hreferred := ⟨hs.referenced hlive.1 hlive.2 hreferred, hlive.2⟩
  body _ hlive' := by
    obtain ⟨rec, hrec⟩ := h'.body_isSome hlive'
    rw [hrec, hs.body hrec]
  edge {ctx subject v vr rec} _ hlive' hrec sr hsr hedge := by
    refine hs.refby.mpr ⟨hedge, fun c rec' hrec' hnone hrefers => ?_⟩
    -- The edge stands for the body of this context, and that one is still used.
    obtain ⟨sr', hsr', htarget, -⟩ := hrefers
    have hctx : c = ctx := by
      rw [← (h.refs hrec' sr' hsr').1, htarget]
      exact (h.refs hrec sr hsr).1
    obtain ⟨rec'', hsome⟩ := h'.body_isSome hlive'
    rw [hctx, hsome] at hnone
    cases hnone

section Registers

variable {reg' : Registry} {m : RegisterSchema} {x : RegisterSchema.Resolved srv.fmt.Inner}
  {version id : UInt32}

/-- The number a registration takes is free, or names a version it may overwrite. -/
theorem RegisterSchema.Careful.unreferenced (hcare : m.Careful srv (reg.view now guid))
    (hreg : Registration srv (reg.view now guid) verb m x version id)
    (hrow : (reg.rows (.version m.subject.context m.subject.subject version)).isSome = true) :
    0 < m.draft.version ∧ version = m.draft.version.toUInt32 ∧
      liveReferrers reg.reader m.subject.context m.subject.subject version = [] := by
  obtain ⟨vr, hvr⟩ := Option.isSome_iff_exists.mp hrow
  have hmem : (version, vr) ∈ reg.reader.listVersions m.subject.context m.subject.subject :=
    Registry.mem_listVersions.mpr hvr
  obtain ⟨-, -, htaken⟩ := chooseVersion_spec hcare.versions hreg.version
  obtain ⟨hpos, hv⟩ := htaken vr hmem
  rw [(resolve_spec hreg.resolved).inherits.version] at hpos hv
  refine ⟨hpos, hv, ?_⟩
  subst hv
  exact (hcare.overwrites hpos hrow).1

theorem keeps_of_registers (h : reg.InOrder) (h' : reg'.InOrder)
    (hcare : m.Careful srv (reg.view now guid))
    (hreg : Registration srv (reg.view now guid) verb m x version id)
    (hrows : reg'.rows = reg.rows.after
      (RegisterSchema.written srv (reg.view now guid) m.subject version id x.canon)) :
    Keeps reg reg' where
  referenced {ctx subject v vr} hlive hreferred := by
    refine ⟨?_, hlive.2⟩
    rw [hrows]
    refine version_kept_register hlive.1 ?_ fun _ _ => hlive.2
    rintro ⟨hq, rfl⟩
    have hfree :=
      hcare.unreferenced hreg (by rw [hq]; exact Option.isSome_iff_exists.mpr ⟨vr, hlive.1⟩)
    rw [hq] at hfree
    exact hreferred hfree.2.2
  body {ctx subject v vr} hlive hlive' := by
    obtain ⟨rec, hrec⟩ := h.body_isSome hlive
    by_cases hown : ctx = m.subject.context ∧ vr.id = id
    · obtain ⟨rfl, rfl⟩ := hown
      rw [hrows, body_of_register_self, hrec,
        (h.toInBounds.bodyFor_of_uses hcare.toOrdinary.toInRange hreg
          ⟨subject, v, vr, hlive.1, rfl⟩ hrec).1]
    · obtain ⟨rec', hrec'⟩ := h'.body_isSome hlive'
      obtain ⟨D, hremoval⟩ := removal_replaced reg.reader m.subject version id
      rw [hrec']
      rw [hrows, body_of_register_ne _ hown] at hrec'
      exact (hremoval.body_of_after hrec').symm
  edge {ctx subject v vr rec} hlive hlive' hrec sr hsr hedge := by
    rw [hrows, refby_register]
    by_cases hown : ctx = m.subject.context ∧ vr.id = id
    · -- The id is being stored again, with the same references.
      obtain ⟨rfl, rfl⟩ := hown
      refine .inl ⟨?_, rfl⟩
      have hrefs := (h.toInBounds.bodyFor_of_uses hcare.toOrdinary.toInRange hreg
          ⟨subject, v, vr, hlive.1, rfl⟩ hrec).2
      rw [(h.resolved hcare.toOrdinary hreg.resolved).2]
      exact List.mem_map.mpr ⟨sr, hrefs ▸ hsr, rfl⟩
    · obtain ⟨D, hremoval⟩ := removal_replaced reg.reader m.subject version id
      refine .inr (hremoval.refby.mpr ⟨hedge, fun c rec' hrec' hnone hrefers => ?_⟩)
      obtain ⟨sr', hsr', htarget, -⟩ := hrefers
      have hctx : c = ctx := by
        rw [← (h.refs hrec' sr' hsr').1, htarget]
        exact (h.refs hrec sr hsr).1
      subst hctx
      obtain ⟨rec'', hsome⟩ := h'.body_isSome hlive'
      rw [hrows, body_of_register_ne _ hown] at hsome
      cases hnone.symm.trans hsome

/-- The reference a registration inherits, as the latest live version stores it. -/
theorem Registry.InOrder.inherited (h : reg.InOrder) {p : UInt32 × VersionRecord}
    {rec : SchemaRecord} (hp : (RegisterSchema.undeleted reg.reader m.subject).head? = some p)
    (hrec : reg.rows (.body m.subject.context p.2.id) = some rec) {f : ResolvedReference}
    (hf : ReferenceFound reg.reader m.subject.context (rec.references.map RefIn.ofReference) f) :
    reg.rows.Live m.subject.context m.subject.subject p.1 p.2 ∧
      ∃ sr ∈ rec.references, refTarget m.subject.context sr = f.target.1 ∧
        sr.target = f.target.2 := by
  have hlatest := List.mem_of_mem_head? hp
  simp only [RegisterSchema.undeleted, List.mem_filter, List.mem_reverse] at hlatest
  refine ⟨⟨Registry.mem_listVersions.mp hlatest.1, by simpa using hlatest.2⟩, ?_⟩
  obtain ⟨rin, hrin, hsubject, n, hn, hv⟩ := hf.source
  obtain ⟨sr, hsr, rfl⟩ := List.mem_map.mp hrin
  have hpos := (h.refs hrec sr hsr).2
  obtain rfl : sr.version = n := Option.some.inj hn
  refine ⟨sr, hsr, ?_, ?_⟩
  · rw [hf.target, refTarget_eq, refTarget_eq, show sr.subject = f.concrete.subject from
      Option.some.inj hsubject]
  · rw [SchemaReference.target_of_pos hpos]
    rcases hv with ⟨-, hv⟩ | ⟨hv, -⟩
    · exact hv.symm
    · rw [hv] at hpos
      exact absurd hpos (by decide)

/-- A careful registration references live versions. -/
theorem Registry.Closed.live_of_found (h : reg.Closed) (hcare : m.Careful srv (reg.view now guid))
    (hx : m.resolve srv (reg.view now guid) = .ok (.inr x)) {f : ResolvedReference}
    (hf : ReferenceFound reg.reader m.subject.context x.draft.refs f) :
    ∃ tr, reg.rows.Live f.target.1.context f.target.1.subject f.target.2 tr := by
  rcases (resolve_spec hx).inherits.refs with hrefs | ⟨p, rec, hp, hrec, hrefs⟩
  · obtain ⟨tr, hrow⟩ := hf.row
    refine ⟨tr, hrow, ?_⟩
    obtain ⟨rin, hrin, hsubject, n, hn, ⟨hpos, hv⟩ | ⟨-, hlatest⟩⟩ := hf.source
    · refine hcare.live rin (hrefs ▸ hrin) _ hsubject n hn hpos tr ?_
      rwa [hf.target, hv] at hrow
    · exact hlatest tr hrow
  · -- Inherited from the latest live version, whose references are live.
    rw [hrefs] at hf
    obtain ⟨hlive, sr, hsr, hq, hv⟩ := h.inOrder.inherited hp hrec hf
    rw [← hq, ← hv]
    exact (h.anchored hlive hrec).target sr hsr

/-- A careful registration does not reference the version it overwrites. -/
theorem Registry.Closed.found_ne_self (h : reg.Closed) (hcare : m.Careful srv (reg.view now guid))
    (hreg : Registration srv (reg.view now guid) verb m x version id) {f : ResolvedReference}
    (hf : ReferenceFound reg.reader m.subject.context x.draft.refs f) :
    ¬ (m.subject = f.target.1 ∧ f.target.2 = version) := by
  rintro ⟨hq, hv⟩
  obtain ⟨tr, hrow⟩ := hf.row
  have hsome : (reg.rows (.version m.subject.context m.subject.subject version)).isSome = true := by
    rw [hq, ← hv]
    exact Option.isSome_iff_exists.mpr ⟨tr, hrow⟩
  obtain ⟨hpos, hversion, hfree⟩ := hcare.unreferenced hreg hsome
  rcases (resolve_spec hreg.resolved).inherits.refs with hrefs | ⟨p, rec, hp, hrec, hrefs⟩
  · obtain ⟨rin, hrin, hsubject, n, hn, hn'⟩ := hf.source
    have hother := (hcare.overwrites hpos (hversion ▸ hsome)).2 rin (hrefs ▸ hrin) _ hsubject n hn
      (hf.target.symm.trans hq.symm)
    rcases hn' with ⟨-, hn'⟩ | ⟨hn', -⟩
    · have heq : n.toUInt32 = m.draft.version.toUInt32 := by rw [← hn', hv, hversion]
      exact hother.2 (by simpa using congrArg UInt32.toInt32 heq)
    · exact hother.1 hn'
  · rw [hrefs] at hf
    obtain ⟨hlive, sr, hsr, hq', hv'⟩ := h.inOrder.inherited hp hrec hf
    have hreferred := h.referenced hlive hrec hsr
    rw [hq', hv', ← hq, hv] at hreferred
    exact hreferred hfree

/-- The version a careful registration stores is anchored. -/
theorem Registry.Closed.registered (h : reg.Closed) (hk : Keeps reg reg')
    (hcare : m.Careful srv (reg.view now guid))
    (hreg : Registration srv (reg.view now guid) verb m x version id)
    (hrows : reg'.rows = reg.rows.after
      (RegisterSchema.written srv (reg.view now guid) m.subject version id x.canon)) :
    Anchored reg' m.subject.context id x.canon.refs := by
  obtain ⟨found, hcanon⟩ := canonicalize_spec (resolve_spec hreg.resolved).canon
  have hfound := fun f hf => h.inOrder.found hcare.toOrdinary hreg.resolved (hcanon.each f hf)
  have hkept : ∀ sr ∈ x.canon.refs, ∃ tr, reg.rows.Live (refTarget m.subject.context sr).context
        (refTarget m.subject.context sr).subject sr.target tr ∧
      reg'.rows.Live (refTarget m.subject.context sr).context
        (refTarget m.subject.context sr).subject sr.target tr := by
    intro sr hsr
    rw [hcanon.refs] at hsr
    obtain ⟨f, hf, rfl⟩ := List.mem_map.mp hsr
    obtain ⟨tr, hlive⟩ := h.live_of_found hcare hreg.resolved (hcanon.each f hf)
    have hne := h.found_ne_self hcare hreg (hcanon.each f hf)
    rw [(hfound f hf).2.2] at hlive hne
    refine ⟨tr, hlive, ?_, hlive.2⟩
    rw [hrows]
    exact version_kept_register hlive.1 hne fun _ _ => hlive.2
  obtain ⟨acc, hacc⟩ := hcanon.collected
  have hcollect : collectStored reg.reader m.subject.context {} x.canon.refs = .ok acc := by
    rw [← hacc, collectStored, hcanon.refs, List.foldlM_map, collectFound]
    refine foldlM_congr (fun f hf acc => ?_) _
    rw [(hfound f hf).2.2]
    rfl
  exact
    { target := fun sr hsr => (hkept sr hsr).imp fun _ => And.right
      edge := fun sr hsr => by
        rw [hrows, refby_register, (h.inOrder.resolved hcare.toOrdinary hreg.resolved).2]
        exact .inl ⟨List.mem_map.mpr ⟨sr, hsr, rfl⟩, rfl⟩
      collected := ⟨acc, ((h.shared hk).collectStored hkept {}).trans hcollect⟩ }

end Registers

theorem Registry.Closed.step {req : Request} (h : reg.Closed) (hcare : reg.Careful srv req) :
    (reg.step srv req).Closed := by
  obtain ⟨ws, evs, heff, hstep⟩ := Registry.rows_step srv reg req
  have h' := h.inOrder.step hcare.ordinary
  refine ⟨h', fun {ctx subject v vr rec} hlive' hrec' => ?_⟩
  rcases heff.shrinks_or_registers with hs | ⟨m, x, version, id, hreg, rfl⟩
  · rw [← hstep] at hs
    obtain ⟨old, hold, -, hsame⟩ := hs.version hlive'.1
    obtain rfl := hsame hlive'.2
    exact h.survivor (keeps_of_shrinks h.inOrder h' hs) ⟨hold, hlive'.2⟩ hlive' hrec'
  · obtain ⟨subject', body, normalize, hverb, hm⟩ := hreg.new
    have hcare := hcare subject' body normalize m hverb hm
    have hk := keeps_of_registers h.inOrder h' hcare hreg hstep
    have hrow := hlive'.1
    rw [hstep] at hrow
    rcases version_of_register hrow with ⟨hq, rfl, rfl⟩ | ⟨-, hold⟩
    · obtain rfl : m.subject.context = ctx := by rw [hq]
      rw [hstep, body_of_register_self, Option.some.injEq] at hrec'
      rw [← hrec', hcare.toOrdinary.toInRange.bodyFor_references hreg]
      exact h.registered hk hcare hreg hstep
    · exact h.survivor hk ⟨hold, hlive'.2⟩ hlive' hrec'

/-- In every history whose registrations are careful, the references of every live version
resolve. -/
theorem referencesResolve_of_careful (srv : Server) (tenant : TenantId) (reqs : List Request)
    (hcare : Along (Registry.step srv) (Registry.Careful srv) (Registry.empty tenant) reqs) :
    ((Registry.empty tenant).runAll srv reqs).ReferencesResolve := by
  have h0 : (Registry.empty tenant).Closed := by
    refine ⟨Registry.inOrder_empty tenant, fun hlive => ?_⟩
    have hrow := hlive.1
    rw [Registry.rows_empty] at hrow
    cases hrow
  have hinv : ((Registry.empty tenant).runAll srv reqs).Closed :=
    inv_of_along hcare h0 fun _ _ h hok => h.step hok
  exact hinv.referencesResolve

/-- A version registered with a reference to a soft-deleted one, and then the deleted schema
registered anew. -/
def revivedHistory : List Request :=
  [registerJson "s" "\x7b\x7d", plainRequest (.deleteSubject "s" false),
    registerReferring "t" "true" "s" 1, registerJson "s" "\x7b\x7d"]

/-- The new registration takes out the old version of `s`, which `t` references. -/
theorem dangling_after_revivedHistory :
    ¬ (plainRun revivedHistory).ReferencesResolve := by
  intro h
  have hrow : (plainRun revivedHistory).reader.getVersion
      "." "t" 1 = some ⟨2, false, 0⟩ := by decide
  have hrefs : ((plainRun revivedHistory).reader.getSchema
      "." 2).map (·.references) = some [⟨"s", "s", 1⟩] := by decide
  have hgone : (plainRun revivedHistory).reader.getVersion
      "." "s" 1 = none := by decide
  obtain ⟨rec, hrec, htargets, -⟩ := h "." "t" 1 _ hrow rfl
  rw [hrec, Option.map_some, Option.some.injEq] at hrefs
  have htarget := htargets ⟨"s", "s", 1⟩ (by simp [hrefs])
  rw [show refTarget "." ⟨"s", "s", 1⟩ = ⟨".", "s"⟩ by decide,
    show SchemaReference.target ⟨"s", "s", 1⟩ = 1 by decide, hgone] at htarget
  cases htarget

/-- A version, one that references it, and an attempt to delete the first. -/
def carefulHistory : List Request :=
  [registerJson "s" "\x7b\x7d", registerReferring "t" "true" "s" 1,
    plainRequest (.deleteSubject "s" false)]

theorem referencesResolve_carefulHistory :
    Along (Registry.step plainServer) (Registry.Careful plainServer) (Registry.empty .default)
      carefulHistory ∧
    (plainRun carefulHistory).ReferencesResolve := by
  have hcare : Along (Registry.step plainServer) (Registry.Careful plainServer)
      (Registry.empty .default) carefulHistory := by
    refine ⟨?_, ?_, ?_, trivial⟩ <;> intro subject body normalize m hverb hm <;> cases hverb <;>
      simp only [RegisterSchema.new] at hm <;> split at hm <;> cases hm
    · exact ⟨⟨⟨by decide, by decide, (Registry.bodiesAgree_empty .default).distinct (by decide)⟩,
        by decide⟩,
        fun _ hrin => absurd hrin List.not_mem_nil, fun hpos => absurd hpos (by decide)⟩
    · have hagree : ((Registry.empty .default).step plainServer
          (registerJson "s" "\x7b\x7d")).BodiesAgree :=
        (Registry.bodiesAgree_empty .default).step (by rintro _ _ _ ⟨⟩)
      have hrow : ((Registry.empty .default).step plainServer
          (registerJson "s" "\x7b\x7d")).reader.getVersion "." "s" 1 = some ⟨1, false, 0⟩ := by
        decide
      refine ⟨⟨⟨by decide, by decide, hagree.distinct (by decide)⟩, by decide⟩, ?_,
        fun hpos => absurd hpos (by decide)⟩
      intro rin hrin subject hsubject version hversion _ vr hvr
      obtain rfl := List.mem_singleton.mp hrin
      cases hsubject
      cases hversion
      rw [show pointsAt _ "s" = ⟨".", "s"⟩ by decide] at hvr
      obtain rfl : ⟨1, false, 0⟩ = vr := Option.some.inj (hrow.symm.trans hvr)
      rfl
  exact ⟨hcare, referencesResolve_of_careful plainServer .default carefulHistory hcare⟩

end SchemaRegistry

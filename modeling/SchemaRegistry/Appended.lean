import SchemaRegistry.Merging
import SchemaRegistry.DryRun
import SchemaRegistry.Closure

/-!
The state a normal registration leaves. The new version is the newest of its subject
and live; the hash index names its id; the other live versions, the bodies in use and
the settings are as they were. What the next request computes from the old and the
new state is compared through these facts only.
-/

namespace SchemaRegistry

open Lib

variable {srv : Server} {reg reg' : Registry} {now : Int} {guid : String}

/-! ### Bodies under their own hash -/

/-- The fingerprint stored with a body is that of its content. -/
def Rows.Hashed (fmt : Formats) (ρ : Rows) : Prop :=
  ∀ ctx id rec, ρ (.body ctx id) = some rec → rec.fingerprint
    = fingerprint fmt rec.schemaType rec.schema rec.references rec.metadata rec.ruleSet

theorem bodyFor_fingerprint (view : ReadView) (ctx : String) (id : UInt32)
    (c : Canon srv.fmt.Inner) :
    (RegisterSchema.bodyFor srv view ctx id c).fingerprint = c.fingerprint := by
  unfold RegisterSchema.bodyFor
  split
  · split
    · assumption
    · rfl
  · rfl

theorem Rows.Hashed.effect (h : reg.rows.Hashed srv.fmt) {verb : Verb} {ws : List Write}
    {evs : List LogEvent} (heff : Effect srv (reg.view now guid) verb ws evs) :
    (reg.rows.after ws).Hashed srv.fmt := by
  intro ctx id rec hrec
  rcases body_after hrec with hrec | ⟨index, hw⟩
  · exact h ctx id rec hrec
  · obtain ⟨m, x, -, -, rfl, -⟩ := heff.putSchema hw
    unfold RegisterSchema.bodyFor
    split
    · next existing hexisting =>
        split
        · exact h ctx id existing hexisting
        · rfl
    · rfl

/-- What holds of every container: consistent indexes, a body for every id in use, bodies
under their own hash. -/
structure Registry.Sound (fmt : Formats) (reg : Registry) : Prop where
  consistent : reg.snapshot.Consistent
  present : reg.rows.UsersHaveBodies
  hashed : reg.rows.Hashed fmt

theorem Registry.Sound.apply (h : reg.Sound srv.fmt) {verb : Verb} {α : Type} {plan : Plan α}
    (heff : Effect srv (reg.view now guid) verb plan.writes plan.events) :
    (reg.apply plan).Sound srv.fmt := by
  refine ⟨consistent_apply h.consistent heff, ?_, ?_⟩ <;> rw [Registry.rows_apply]
  · exact h.present.effect h.consistent heff
  · exact h.hashed.effect heff

theorem Registry.Sound.step {req : Request} (h : reg.Sound srv.fmt) :
    (reg.step srv req).Sound srv.fmt := by
  rcases Registry.step_cases srv reg req with hstep | ⟨plan, hplan, hstep⟩
  · rwa [hstep]
  · rw [hstep]
    exact h.apply (effect_of_decide hplan)

theorem Registry.sound_empty (fmt : Formats) (tenant : TenantId) :
    (Registry.empty tenant).Sound fmt := by
  refine ⟨Snapshot.consistent_new, (Registry.bodiesAgree_empty tenant).present, ?_⟩
  rw [Registry.rows_empty]
  intro ctx id rec hrec
  cases hrec

theorem Registry.sound_runAll (srv : Server) (tenant : TenantId) (reqs : List Request) :
    ((Registry.empty tenant).runAll srv reqs).Sound srv.fmt :=
  inv_of_run (Registry.sound_empty srv.fmt tenant) fun _ _ h => h.step

/-! ### A version appended -/

/-- What a registration that appended a version has left. -/
structure Appended (reg reg' : Registry) (q : QualifiedSubject) (version id : UInt32)
    (fp : String) (row : VersionRecord) (rec : SchemaRecord) : Prop where
  consistent : reg'.snapshot.Consistent
  rowId : row.id = id
  rowLive : row.deleted = false
  stored : reg'.rows (.version q.context q.subject version) = some row
  newest : ∀ v vr, reg.rows (.version q.context q.subject v) = some vr → v < version
  /-- Only soft-deleted rows with the new id may have gone. -/
  kept : ∀ v vr, v ≠ version → (vr.deleted = false ∨ vr.id ≠ id) →
    (reg'.rows (.version q.context q.subject v) = some vr ↔
      reg.rows (.version q.context q.subject v) = some vr)
  /-- No row came but the new one. -/
  only : ∀ v vr, v ≠ version → reg'.rows (.version q.context q.subject v) = some vr →
    reg.rows (.version q.context q.subject v) = some vr
  others : ∀ ctx subject v, q ≠ ⟨ctx, subject⟩ →
    reg'.rows (.version ctx subject v) = reg.rows (.version ctx subject v)
  bodies : ∀ ctx i, reg.rows.Uses ctx i → reg'.rows (.body ctx i) = reg.rows (.body ctx i)
  body : reg'.rows (.body q.context id) = some rec
  index : reg'.rows (.fingerprint q.context fp) = some id
  indexed : ∀ fp', fp' ≠ fp → reg'.rows (.fingerprint q.context fp')
    = reg.rows (.fingerprint q.context fp')
  config : ∀ scope, reg'.reader.getConfig scope = reg.reader.getConfig scope
  mode : ∀ scope, reg'.reader.getMode scope = reg.reader.getMode scope

section Register

variable {q : QualifiedSubject} {version id : UInt32} {c : Canon srv.fmt.Inner}

/-- A key that neither removals nor what is added touches. -/
theorem untouched_register {k : RowKey} (hadd : ∀ w, Adds srv (reg.view now guid) q version id c w →
      k ∉ w.keys) (hrem : ∀ w : Write, w.IsRemoval → k ∉ w.keys) :
    reg.rows.after (RegisterSchema.written srv (reg.view now guid) q version id c) k
      = reg.rows k := by
  refine writeAll_of_untouched fun w hw => Write.touch_eq_none ?_
  rcases List.mem_append.mp hw with hw | hw
  · exact hrem w (replaced_isRemoval w hw)
  · exact hadd w (mem_added.mp hw)

theorem mode_register (reg : Registry) (now : Int) (guid : String) (q : QualifiedSubject)
    (version id : UInt32) (c : Canon srv.fmt.Inner) (scope : Scope) :
    reg.rows.after (RegisterSchema.written srv (reg.view now guid) q version id c) (.mode scope)
        = reg.rows (.mode scope) := by
  refine untouched_register (fun w hw => ?_) fun w hw => ?_
  · cases hw <;> simp [Write.keys]
  · cases w <;> simp [Write.IsRemoval] at hw <;> simp [Write.keys]

theorem fingerprint_not_mem_of_isRemoval {w : Write} (h : w.IsRemoval) (ctx fp : String) :
    RowKey.fingerprint ctx fp ∉ w.keys := by
  cases w <;> simp [Write.IsRemoval] at h <;> simp [Write.keys]

/-- The hash index after a registration. -/
theorem index_register (reg : Registry) (now : Int) (guid : String) (q : QualifiedSubject)
    (version id : UInt32) (c : Canon srv.fmt.Inner) (fp : String) :
    reg.rows.after (RegisterSchema.written srv (reg.view now guid) q version id c)
      (.fingerprint q.context fp)
        = if fp = c.fingerprint then some id else reg.rows (.fingerprint q.context fp) := by
  have hfp : (RegisterSchema.bodyFor srv (reg.view now guid) q.context id c).fingerprint
      = c.fingerprint := bodyFor_fingerprint _ _ _ _
  split
  · next heq =>
      subst heq
      refine writeAll_of_agree ⟨_, List.mem_append_right _ (mem_added.mpr .body), by
        simp [Write.touch, hfp]⟩ fun w hw y hy => ?_
      rcases List.mem_append.mp hw with hw | hw
      · rw [Write.touch_eq_none
          (fingerprint_not_mem_of_isRemoval (replaced_isRemoval w hw) _ _)] at hy
        cases hy
      · cases mem_added.mp hw <;> simp [Write.touch] at hy
        exact hy.2.symm
  · next hne =>
      refine untouched_register (fun w hw => ?_) fun w hw =>
        fingerprint_not_mem_of_isRemoval hw _ _
      cases hw with
      | body =>
        simp only [Write.keys, hfp, if_true, List.mem_cons, RowKey.fingerprint.injEq,
          List.not_mem_nil, or_false, reduceCtorEq, false_or, true_and]
        exact hne
      | next | version | refby => simp [Write.keys]

/-- A registration of a fresh number under an id that keeps its body, if it is in use, appends
a version. -/
theorem appended_of_register
    (hrows : reg'.rows = reg.rows.after
      (RegisterSchema.written srv (reg.view now guid) q version id c))
    (hc' : reg'.snapshot.Consistent)
    (hnewest : ∀ v vr, reg.rows (.version q.context q.subject v) = some vr → v < version)
    (hbody : reg.rows.Uses q.context id → reg.rows (.body q.context id)
      = some (RegisterSchema.bodyFor srv (reg.view now guid) q.context id c)) :
    Appended reg reg' q version id c.fingerprint ⟨id, false, now⟩
      (RegisterSchema.bodyFor srv (reg.view now guid) q.context id c) := by
  have hversion : ∀ ctx subject v, _ := version_register srv (reg.view now guid) q version id c
    reg.rows
  rw [← hrows] at hversion
  have hbodies : ∀ ctx i, _ := body_register srv (reg.view now guid) q version id c reg.rows
  rw [← hrows] at hbodies
  refine ⟨hc', rfl, rfl, ?_, hnewest, fun v vr hv hkept => ⟨fun hrow => ?_, fun hrow => ?_⟩,
    fun v vr hv hrow => ?_, fun ctx subject v hq => ?_, fun ctx i hused => ?_, ?_, ?_,
    fun fp hfp => ?_, fun scope => ?_, fun scope => ?_⟩
  · rcases hversion q.context q.subject version with ⟨-, h⟩ | ⟨hne, -⟩
    · exact h
    · exact (hne ⟨rfl, rfl⟩).elim
  · rw [hrows] at hrow
    rcases version_of_register hrow with ⟨-, rfl, -⟩ | ⟨-, hrow⟩
    · exact (hv rfl).elim
    · exact hrow
  · rw [hrows]
    refine version_kept_register hrow (fun h => hv h.2) fun _ hid => ?_
    rcases hkept with hlive | hne
    · exact hlive
    · exact (hne hid).elim
  · rw [hrows] at hrow
    rcases version_of_register hrow with ⟨-, rfl, -⟩ | ⟨-, hrow⟩
    · exact (hv rfl).elim
    · exact hrow
  · rcases hversion ctx subject v with ⟨⟨h, -⟩, -⟩ | ⟨-, ⟨⟨h, -⟩, -⟩ | ⟨-, h⟩⟩
    · exact (hq h).elim
    · exact (hq h).elim
    · exact h
  · rcases hbodies ctx i with ⟨⟨rfl, rfl⟩, h⟩ | ⟨-, ⟨⟨vr, hmem, -⟩, -⟩ | ⟨-, h⟩⟩
    · rw [h, hbody hused]
    · have hlt := hnewest version vr (Registry.mem_listVersions.mp hmem)
      exact (UInt32.lt_irrefl _ hlt).elim
    · exact h
  · rcases hbodies q.context id with ⟨-, h⟩ | ⟨hne, -⟩
    · exact h
    · exact (hne ⟨rfl, rfl⟩).elim
  · rw [hrows, index_register, if_pos rfl]
  · rw [hrows, index_register, if_neg hfp]
  · change reg'.rows (.config scope) = reg.rows (.config scope)
    rw [hrows]
    refine untouched_register (fun w hw => ?_) fun w hw => ?_
    · cases hw <;> simp [Write.keys]
    · cases w <;> simp [Write.IsRemoval] at hw <;> simp [Write.keys]
  · change reg'.rows (.mode scope) = reg.rows (.mode scope)
    rw [hrows, mode_register]

end Register

/-! ### Where references lead -/

/-- The versions a version's stored references lead to, itself among them. -/
inductive Reader.Reaches (r : Reader) (t' : QualifiedSubject) (v' : UInt32) :
    QualifiedSubject → UInt32 → Prop
  | self : Reaches r t' v' t' v'
  | step {t : QualifiedSubject} {v : UInt32} {vr : VersionRecord} {rec : SchemaRecord}
      {sr : SchemaReference} (hrow : r.getVersion t.context t.subject v = some vr)
      (hrec : r.getSchema t.context vr.id = some rec) (hsr : sr ∈ rec.references)
      (hrest : Reaches r t' v' (refTarget t.context sr) sr.target) : Reaches r t' v' t v

/-- Nothing that the versions of the referenced subject lead to is a version of `q`. -/
def RefIn.Avoids (r : Reader) (ctx : String) (q : QualifiedSubject) (rin : RefIn) : Prop :=
  ∀ subject ∈ rin.subject, ∀ v t' v', r.Reaches t' v' (pointsAt ctx subject) v → t' ≠ q

/-! ### What the next request sees -/

theorem modeFor_congr {r r' : Reader} (h : ∀ scope, r'.getMode scope = r.getMode scope)
    (t : Target) : modeFor r' t = modeFor r t := by
  have hglobal : globalModeIn r' = globalModeIn r := by rw [globalModeIn, globalModeIn, h]
  cases t <;> simp only [modeFor, modeInScope, hglobal, h]

namespace Appended

variable {q : QualifiedSubject} {version id : UInt32} {fp : String} {row : VersionRecord}
  {rec : SchemaRecord}

theorem configInScope (h : Appended reg reg' q version id fp row rec) (srv : Server)
    (t : QualifiedSubject) :
    configInScope srv reg'.reader t = configInScope srv reg.reader t := by
  simp only [SchemaRegistry.configInScope, h.config]

theorem modeFor (h : Appended reg reg' q version id fp row rec) (t : Target) :
    modeFor reg'.reader t = modeFor reg.reader t :=
  modeFor_congr h.mode t

theorem listVersions_of_ne (h : Appended reg reg' q version id fp row rec) {t : QualifiedSubject}
    (ht : t ≠ q) :
    reg'.reader.listVersions t.context t.subject = reg.reader.listVersions t.context t.subject :=
  Snapshot.listVersions_congr fun v => h.others t.context t.subject v ht.symm

/-- The new version comes first among the live ones. -/
theorem undeleted (h : Appended reg reg' q version id fp row rec) :
    RegisterSchema.undeleted reg'.reader q
      = (version, row) :: RegisterSchema.undeleted reg.reader q := by
  have hlive : (reg'.reader.listVersions q.context q.subject).filter (fun p => !p.2.deleted)
      = (reg.reader.listVersions q.context q.subject).filter (fun p => !p.2.deleted)
        ++ [(version, row)] := by
    refine eq_of_sorted_of_mem_iff
      ((Snapshot.sorted_listVersions reg'.snapshot q.context q.subject).filter _)
      (List.pairwise_append.mpr
        ⟨(Snapshot.sorted_listVersions reg.snapshot q.context q.subject).filter _,
          List.pairwise_singleton _ _, fun a ha b hb => ?_⟩) fun ⟨v, vr⟩ => ?_
    · obtain rfl := List.mem_singleton.mp hb
      exact Std.compare_eq_lt.mpr
        (h.newest a.1 a.2 (Registry.mem_listVersions.mp (List.mem_of_mem_filter ha)))
    · simp only [List.mem_filter, List.mem_append, List.mem_singleton, Registry.mem_listVersions,
        Bool.not_eq_true', Prod.mk.injEq]
      constructor
      · rintro ⟨hrow, hdel⟩
        by_cases hv : v = version
        · subst hv
          rw [h.stored, Option.some.injEq] at hrow
          exact .inr ⟨rfl, hrow.symm⟩
        · exact .inl ⟨h.only v vr hv hrow, hdel⟩
      · rintro (⟨hrow, hdel⟩ | ⟨rfl, rfl⟩)
        · have hv : v ≠ version := fun hv =>
            UInt32.lt_irrefl _ (hv ▸ h.newest v vr hrow)
          exact ⟨(h.kept v vr hv (.inl hdel)).mpr hrow, hdel⟩
        · exact ⟨h.stored, h.rowLive⟩
  simp only [RegisterSchema.undeleted, List.filter_reverse, hlive, List.reverse_append,
    List.reverse_singleton, List.singleton_append]

theorem uses (h : Appended reg reg' q version id fp row rec) :
    (q.subject, version) ∈ reg'.reader.idUsages q.context id :=
  (Registry.mem_idUsages h.consistent).mpr ⟨row, h.stored, h.rowId⟩

/-- Content that the index files under the new id is found as the new version. -/
theorem hashLookup (h : Appended reg reg' q version id fp row rec) {c : Canon srv.fmt.Inner}
    (hc : reg'.rows (.fingerprint q.context c.fingerprint) = some id) :
    hashLookup srv reg'.reader q c = some (id, some (version, row)) := by
  have hindex : reg'.reader.idForFingerprint q.context c.fingerprint = some id := hc
  have hmem : version ∈ ((reg'.reader.idUsages q.context id).filter fun p =>
      p.1 == q.subject).map Prod.snd :=
    List.mem_map.mpr ⟨_, List.mem_filter.mpr ⟨h.uses, by simp⟩, rfl⟩
  have hmax : (((reg'.reader.idUsages q.context id).filter fun p =>
      p.1 == q.subject).map Prod.snd).max? = some version := by
    refine List.max?_eq_some_iff.mpr ⟨hmem, fun v hv => ?_⟩
    obtain ⟨⟨s, v'⟩, hp, rfl⟩ := List.mem_map.mp hv
    obtain ⟨hp, hs⟩ := List.mem_filter.mp hp
    obtain rfl : s = q.subject := by simpa using hs
    obtain ⟨vr, hrow, -⟩ := (Registry.mem_idUsages h.consistent).mp hp
    by_cases hv' : v' = version
    · rw [hv']
      exact UInt32.le_refl _
    · exact UInt32.le_of_lt (h.newest v' vr (h.only v' vr hv' hrow))
  have hused : reg'.reader.idUsages q.context id ≠ [] := List.ne_nil_of_mem h.uses
  have hrow : reg'.reader.getVersion q.context q.subject version = some row := h.stored
  simp [SchemaRegistry.hashLookup, hindex, hused, hmax, hrow]

/-- The usages of another id, and the rows that make them, are as they were. -/
theorem hashLookup_of_ne (h : Appended reg reg' q version id fp row rec)
    (hc : reg.snapshot.Consistent) {c : Canon srv.fmt.Inner} (hfp : c.fingerprint ≠ fp)
    (hid : reg.rows (.fingerprint q.context c.fingerprint) ≠ some id) :
    SchemaRegistry.hashLookup srv reg'.reader q c
      = SchemaRegistry.hashLookup srv reg.reader q c := by
  have hindex : reg'.reader.idForFingerprint q.context c.fingerprint
      = reg.reader.idForFingerprint q.context c.fingerprint := h.indexed _ hfp
  unfold SchemaRegistry.hashLookup
  rw [hindex]
  cases hi : reg.reader.idForFingerprint q.context c.fingerprint with
  | none => rfl
  | some i =>
    have hne : i ≠ id := fun heq => hid (heq ▸ hi)
    have hrow : ∀ subject v vr, vr.id = i →
        (reg'.rows (.version q.context subject v) = some vr ↔
          reg.rows (.version q.context subject v) = some vr) := by
      intro subject v vr hvr
      by_cases hq : q = ⟨q.context, subject⟩
      · obtain rfl : q.subject = subject := congrArg QualifiedSubject.subject hq
        by_cases hv : v = version
        · subst hv
          constructor
          · intro hrow
            rw [h.stored, Option.some.injEq] at hrow
            exact (hne (hvr.symm.trans (hrow ▸ h.rowId))).elim
          · intro hrow
            exact (UInt32.lt_irrefl _ (h.newest v vr hrow)).elim
        · exact h.kept v vr hv (.inr fun heq => hne (hvr.symm.trans heq))
      · rw [h.others _ _ _ hq]
    have husages : reg'.reader.idUsages q.context i = reg.reader.idUsages q.context i :=
      Snapshot.idUsages_congr h.consistent hc fun subject v vr hvr => hrow subject v vr hvr
    simp only [bind, Option.bind_some, husages]
    split
    · rfl
    · refine congrArg some (Prod.ext rfl ?_)
      refine Option.bind_congr fun v hv => ?_
      obtain ⟨⟨s, v'⟩, hp, rfl⟩ := List.mem_map.mp (List.max?_eq_some_iff.mp hv).1
      obtain ⟨hp, hs⟩ := List.mem_filter.mp hp
      obtain rfl : s = q.subject := by simpa using hs
      obtain ⟨vr, hvr, hvrid⟩ := (Registry.mem_idUsages hc).mp hp
      have hrow' : reg'.reader.getVersion q.context q.subject v' = some vr :=
        (hrow _ _ _ hvrid).mpr hvr
      have hrow'' : reg.reader.getVersion q.context q.subject v' = some vr := hvr
      simp only [hrow', hrow'']

theorem entity_new (h : Appended reg reg' q version id fp row rec) :
    entity reg'.reader q version row = .ok (.stored q version id rec) := by
  have hbody : reg'.reader.getSchema q.context id = some rec := h.body
  simp only [entity, h.rowId, hbody]

theorem entity_old (h : Appended reg reg' q version id fp row rec) {p : UInt32 × VersionRecord}
    (hp : p ∈ RegisterSchema.undeleted reg.reader q) :
    entity reg'.reader q p.1 p.2 = entity reg.reader q p.1 p.2 := by
  have hmem : p ∈ reg.reader.listVersions q.context q.subject :=
    List.mem_reverse.mp (List.mem_of_mem_filter hp)
  have hbody : reg'.reader.getSchema q.context p.2.id = reg.reader.getSchema q.context p.2.id :=
    h.bodies q.context p.2.id ⟨q.subject, p.1, p.2, Registry.mem_listVersions.mp hmem, rfl⟩
  simp only [entity, hbody]

/-- A search through the live versions tries the new one first and then goes on as before. -/
theorem firstLookup (h : Appended reg reg' q version id fp row rec) (c : Canon srv.fmt.Inner) :
    firstLookup reg'.reader q c (RegisterSchema.undeleted reg'.reader q)
      = if canLookup c (.stored q version id rec) then .ok (some (.stored q version id rec))
        else firstLookup reg.reader q c (RegisterSchema.undeleted reg.reader q) := by
  have hold : ∀ vs : List (UInt32 × VersionRecord),
      (∀ p ∈ vs, p ∈ RegisterSchema.undeleted reg.reader q) →
      SchemaRegistry.firstLookup reg'.reader q c vs
        = SchemaRegistry.firstLookup reg.reader q c vs := by
    intro vs hvs
    induction vs with
    | nil => rfl
    | cons p vs ih =>
      obtain ⟨hp, hvs⟩ := List.forall_mem_cons.mp hvs
      simp only [SchemaRegistry.firstLookup, h.entity_old hp, ih hvs]
  rw [h.undeleted, SchemaRegistry.firstLookup, h.entity_new, ok_bind, hold _ fun _ hp => hp]

/-- Where references lead past the subject, everything is as before. -/
theorem agreeOn (h : Appended reg reg' q version id fp row rec) :
    reg.reader.AgreeOn reg'.reader fun t v => ∀ t' v', reg.reader.Reaches t' v' t v → t' ≠ q where
  row ht := h.others _ _ _ (ht _ _ .self).symm
  body _ hvr := h.bodies _ _ ⟨_, _, _, hvr, rfl⟩
  closed ht hvr hrec _ hsr t' v' hreach := ht t' v' (.step hvr hrec hsr hreach)

theorem resolveReferences (h : Appended reg reg' q version id fp row rec) {ctx : String}
    {refs : List RefIn} (hrefs : ∀ rin ∈ refs, rin.Avoids reg.reader ctx q) :
    resolveReferences reg'.reader ctx refs = resolveReferences reg.reader ctx refs := by
  refine h.agreeOn.resolveReferences fun rin hrin subject hsubject => ?_
  have havoids := hrefs rin hrin subject hsubject
  refine ⟨havoids, fun spec => ?_⟩
  simp only [getExact, h.listVersions_of_ne (havoids 0 _ _ .self)]

theorem canonicalize (h : Appended reg reg' q version id fp row rec) {d : Draft}
    (hrefs : ∀ rin ∈ d.refs, rin.Avoids reg.reader q.context q) (isNew normalize : Bool) :
    canonicalize srv reg'.reader q d isNew normalize
      = canonicalize srv reg.reader q d isNew normalize := by
  unfold SchemaRegistry.canonicalize
  rw [h.resolveReferences hrefs]

end Appended

end SchemaRegistry

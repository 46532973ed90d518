import SchemaRegistry.Repeat

/-!
One request, many runs at once. Each run first looks for an answer without the lock,
on any snapshot published so far and with the bodies as they are then; a run that
found none plans under the lock, one after another. A registration without a number
is stored by the first run that plans, and all later ones find it; a registration
with a number succeeds once.
-/

namespace SchemaRegistry

open Lib

/-! ### The machine -/

/-- How far a run has got. -/
inductive Attempt where
  | start
  /-- The fast path had no answer. -/
  | missed
  | done (result : ApiResult RegisterResponse)

/-- Runs of one request on one container. -/
structure Race where
  reg : Registry
  /-- The snapshots published so far. -/
  published : List Snapshot
  runs : Nat → Attempt := fun _ => .start

/-- What happens next, at a time and with a fresh id. -/
inductive Race.Event where
  /-- A run looks at one of the published snapshots. -/
  | fastPath (run snapshot : Nat)
  /-- A run takes the lock, plans, commits and publishes. -/
  | locked (run : Nat) (now : Int) (newGuid : String)

namespace Race

variable (srv : Server) (m : RegisterSchema)

def setRun (race : Race) (run : Nat) (a : Attempt) : Race :=
  { race with runs := fun i => if i = run then a else race.runs i }

/-- The result of a run's fast path. -/
def afterFastPath : ApiResult (Option RegisterResponse) → Attempt
  | .error e => .done (.error e)
  | .ok (some out) => .done (.ok out)
  | .ok none => .missed

def step (race : Race) : Event → Race
  | .fastPath run k =>
      match race.runs run, race.published[k]? with
      | .start, some snapshot =>
          let r : Reader := ⟨snapshot, race.reg.store.getSchema⟩
          race.setRun run (afterFastPath (registerFastPath srv r m.subject m.draft
            (m.normalizeRequested || normalizeInScope srv r m.subject)))
      | _, _ => race
  | .locked run now newGuid =>
      match race.runs run with
      | .missed =>
          match (m.mutation srv).gatedPlan (race.reg.view now newGuid) with
          | .error e => race.setRun run (.done (.error e))
          | .ok plan =>
              let reg := race.reg.apply plan
              Race.setRun ⟨reg, reg.snapshot :: race.published, race.runs⟩ run
                (.done (.ok plan.output))
      | _ => race

def start (reg : Registry) : Race := ⟨reg, [reg.snapshot], fun _ => .start⟩

/-- The race after a schedule. -/
def run (reg : Registry) (events : List Event) : Race := events.foldl (step srv m) (start reg)

end Race

/-! ### Old snapshots with new bodies -/

/-- The bodies of a view's versions are those of another, wherever it reads them from. -/
def Reader.BodiesOf (r : Reader) (getSchema : String → UInt32 → Option SchemaRecord) : Prop :=
  ∀ ctx subject v vr, r.getVersion ctx subject v = some vr →
    getSchema ctx vr.id = r.getSchema ctx vr.id

namespace Reader.BodiesOf

variable {srv : Server} {r : Reader} {g : String → UInt32 → Option SchemaRecord}

theorem agreeOn (h : r.BodiesOf g) : r.AgreeOn ⟨r.snap, g⟩ fun _ _ => True where
  row _ := rfl
  body _ hvr := h _ _ _ _ hvr
  closed _ _ _ _ _ := trivial

theorem resolveReferences (h : r.BodiesOf g) (ctx : String) (refs : List RefIn) :
    resolveReferences ⟨r.snap, g⟩ ctx refs = resolveReferences r ctx refs :=
  h.agreeOn.resolveReferences fun _ _ _ _ => ⟨fun _ => trivial, fun _ => rfl⟩

theorem canonicalize (h : r.BodiesOf g) (q : QualifiedSubject) (d : Draft)
    (isNew normalize : Bool) :
    canonicalize srv ⟨r.snap, g⟩ q d isNew normalize = canonicalize srv r q d isNew normalize := by
  unfold SchemaRegistry.canonicalize
  rw [h.resolveReferences]

theorem entity (h : r.BodiesOf g) {q : QualifiedSubject} {p : UInt32 × VersionRecord}
    (hp : p ∈ r.listVersions q.context q.subject) :
    entity ⟨r.snap, g⟩ q p.1 p.2 = entity r q p.1 p.2 := by
  have hbody : (⟨r.snap, g⟩ : Reader).getSchema q.context p.2.id = r.getSchema q.context p.2.id :=
    h _ _ _ _ (Snapshot.mem_listVersions.mp hp)
  simp only [SchemaRegistry.entity, hbody]

theorem firstLookup (h : r.BodiesOf g) {q : QualifiedSubject} (c : Canon srv.fmt.Inner)
    {vs : List (UInt32 × VersionRecord)}
    (hvs : ∀ p ∈ vs, p ∈ r.listVersions q.context q.subject) :
    firstLookup ⟨r.snap, g⟩ q c vs = firstLookup r q c vs := by
  induction vs with
  | nil => rfl
  | cons p vs ih =>
    obtain ⟨hp, hvs⟩ := List.forall_mem_cons.mp hvs
    simp only [SchemaRegistry.firstLookup, h.entity hp, ih hvs]

theorem lookupUnderSubject (h : r.BodiesOf g) (q : QualifiedSubject) (d : Draft)
    (normalize deleted latestOnly : Bool) :
    lookupUnderSubject srv ⟨r.snap, g⟩ q d normalize deleted latestOnly
      = lookupUnderSubject srv r q d normalize deleted latestOnly := by
  have hhash : ∀ c : Canon srv.fmt.Inner, hashLookup srv ⟨r.snap, g⟩ q c = hashLookup srv r q c :=
    fun _ => rfl
  have hlist : (⟨r.snap, g⟩ : Reader).listVersions q.context q.subject
      = r.listVersions q.context q.subject := rfl
  unfold SchemaRegistry.lookupUnderSubject
  rw [h.canonicalize, hlist]
  refine congrArg _ (funext fun canon => ?_)
  cases canon with
  | none => rfl
  | some c =>
    dsimp only
    rw [hhash, h.firstLookup c fun p hp =>
        List.mem_reverse.mp (List.mem_of_find?_eq_some (Option.mem_toList.mp hp)),
      h.firstLookup c fun p hp => List.mem_reverse.mp (List.mem_of_mem_filter hp)]

theorem registerFastPath (h : r.BodiesOf g) (q : QualifiedSubject) (d : Draft) (normalize : Bool) :
    registerFastPath srv ⟨r.snap, g⟩ q d normalize = registerFastPath srv r q d normalize := by
  have hconfig : configInScope srv ⟨r.snap, g⟩ q = configInScope srv r q := rfl
  have hexact : ∀ spec, getExact ⟨r.snap, g⟩ q spec false = getExact r q spec false := fun _ => rfl
  unfold SchemaRegistry.registerFastPath
  rw [hconfig]
  dsimp only
  rw [h.lookupUnderSubject]
  split
  · rfl
  · refine congrArg _ (funext fun found => ?_)
    cases found with
    | none => rfl
    | some e =>
      dsimp only
      rw [hexact]
      cases hp : getExact r q (.exact d.version.toUInt32) false with
      | none => rfl
      | some p =>
        dsimp only
        rw [h.entity (mem_of_getExact hp)]

end Reader.BodiesOf

/-! ### The invariant -/

namespace Race

variable {srv : Server} {m : RegisterSchema} {reg : Registry} {race : Race}

@[simp] theorem setRun_reg (race : Race) (run : Nat) (a : Attempt) :
    (race.setRun run a).reg = race.reg := rfl

theorem setRun_runs {run i : Nat} {a b : Attempt} (h : (race.setRun run a).runs i = b) :
    i = run ∧ a = b ∨ race.runs i = b := by
  by_cases hi : i = run
  · exact .inl ⟨hi, by simpa [setRun, hi] using h⟩
  · exact .inr (by simpa [setRun, hi] using h)

/-- A run that succeeded. -/
def Succeeded (race : Race) (run : Nat) (out : RegisterResponse) : Prop :=
  race.runs run = .done (.ok out)

theorem afterFastPath_eq_ok {res : ApiResult (Option RegisterResponse)} {out : RegisterResponse}
    (h : afterFastPath res = .done (.ok out)) : res = .ok (some out) := by
  unfold afterFastPath at h
  split at h <;> cases h
  rfl

theorem afterFastPath_eq_missed {res : ApiResult (Option RegisterResponse)}
    (h : afterFastPath res = .missed) : res = .ok none := by
  unfold afterFastPath at h
  split at h <;> cases h
  rfl

/-- The versions a race has created. -/
def Creates (m : RegisterSchema) (reg reg' : Registry) (v : UInt32) : Prop :=
  reg.reader.getVersion m.subject.context m.subject.subject v = none ∧
    (reg'.reader.getVersion m.subject.context m.subject.subject v).isSome = true

/-- At most one new version, and one id for all runs that succeeded. -/
structure Agreed (m : RegisterSchema) (reg : Registry) (race : Race) : Prop where
  version : ∀ v v', Creates m reg race.reg v → Creates m reg race.reg v' → v = v'
  id : ∀ run run' out out', race.Succeeded run out → race.Succeeded run' out' → out.id = out'.id

/-- What the fast path finds on the first snapshot. -/
def found (srv : Server) (m : RegisterSchema) (reg : Registry) :
    ApiResult (Option RegisterResponse) :=
  registerFastPath srv reg.reader m.subject m.draft
    (m.normalizeRequested || normalizeInScope srv reg.reader m.subject)

/-- What a run does to a race, as long as it does something. -/
theorem step_cases (srv : Server) (m : RegisterSchema) (race : Race) (e : Event) :
    step srv m race e = race ∨
      (∃ run snapshot, snapshot ∈ race.published ∧ step srv m race e = race.setRun run
        (afterFastPath (registerFastPath srv ⟨snapshot, race.reg.store.getSchema⟩ m.subject m.draft
          (m.normalizeRequested || normalizeInScope srv ⟨snapshot, race.reg.store.getSchema⟩
            m.subject)))) ∨
      ∃ run now guid, race.runs run = .missed ∧
        ((∃ e', step srv m race e = race.setRun run (.done (.error e'))) ∨
          ∃ plan, (m.mutation srv).gatedPlan (race.reg.view now guid) = .ok plan ∧
            step srv m race e = Race.setRun ⟨race.reg.apply plan,
              (race.reg.apply plan).snapshot :: race.published, race.runs⟩ run
                (.done (.ok plan.output))) := by
  cases e with
  | fastPath run k =>
    simp only [step]
    split
    · next snapshot hrun hk =>
        exact .inr (.inl ⟨run, snapshot, List.mem_of_getElem? hk, rfl⟩)
    · exact .inl rfl
  | locked run now guid =>
    simp only [step]
    split
    · next hrun =>
        refine .inr (.inr ⟨run, now, guid, hrun, ?_⟩)
        split
        · next e' hplan => exact .inl ⟨e', rfl⟩
        · next plan hplan => exact .inr ⟨plan, hplan, rfl⟩
    · exact .inl rfl

/-! ### Requests without a number -/

section Unnumbered

/-- Nothing has been stored: runs that succeeded had their answer from what was there. -/
structure Quiet (srv : Server) (m : RegisterSchema) (reg : Registry) (race : Race) : Prop where
  unchanged : race.reg = reg
  published : ∀ s ∈ race.published, s = reg.snapshot
  missed : ∀ run, race.runs run = .missed → found srv m reg = .ok none
  done : ∀ run out, race.Succeeded run out → found srv m reg = .ok (some out) ∨
    found srv m reg = .ok none ∧ m.resolve srv (reg.view 0 "") = .ok (.inl out)

/-- One run has stored a version, and every run that succeeded answered with its id. -/
structure Stored (srv : Server) (m : RegisterSchema) (reg : Registry) (race : Race)
    (x : RegisterSchema.Resolved srv.fmt.Inner) (version id : UInt32) (row : VersionRecord)
    (rec : SchemaRecord) : Prop where
  resolved : m.resolve srv (reg.view 0 "") = .ok (.inr x)
  missed : found srv m reg = .ok none
  appended : Appended reg race.reg m.subject version id x.canon.fingerprint row rec
  fingerprint : rec.fingerprint = x.canon.fingerprint
  sound : race.reg.Sound srv.fmt
  published : ∀ s ∈ race.published, s = reg.snapshot ∨ s = race.reg.snapshot
  done : ∀ run out, race.Succeeded run out → out.id = id

variable {x : RegisterSchema.Resolved srv.fmt.Inner} {version id : UInt32} {row : VersionRecord}
  {rec : SchemaRecord}

/-- What holds in every race of a request that can be repeated. -/
def QuietOrStored (srv : Server) (m : RegisterSchema) (reg : Registry) (race : Race) : Prop :=
  Quiet srv m reg race ∨ ∃ x version id row rec, Stored srv m reg race x version id row rec

theorem Quiet.agreed (h : Quiet srv m reg race) : Agreed m reg race where
  version := by
    rintro v v' ⟨hnone, hsome⟩ -
    rw [h.unchanged, hnone] at hsome
    cases hsome
  id := by
    intro run run' out out' hout hout'
    rcases h.done run out hout with hfound | ⟨hfound, hresolve⟩ <;>
      rcases h.done run' out' hout' with hfound' | ⟨hfound', hresolve'⟩ <;>
      rw [hfound] at hfound' <;> cases hfound'
    · rfl
    · rw [hresolve] at hresolve'
      cases hresolve'
      rfl

theorem Stored.agreed (h : Stored srv m reg race x version id row rec) : Agreed m reg race where
  version := by
    have honly : ∀ v, Creates m reg race.reg v → v = version := by
      rintro v ⟨hnone, hsome⟩
      obtain ⟨vr, hrow⟩ := Option.isSome_iff_exists.mp hsome
      by_contra hv
      have hold : reg.reader.getVersion m.subject.context m.subject.subject v = some vr :=
        h.appended.only v vr hv hrow
      rw [hnone] at hold
      cases hold
    intro v v' hv hv'
    rw [honly v hv, honly v' hv']
  id := by
    intro run run' out out' hout hout'
    rw [h.done run out hout, h.done run' out' hout']

theorem Quiet.step (hs : reg.Sound srv.fmt) (hrep : m.Repeatable srv reg.reader)
    (hmode : modeFor reg.reader (.subject m.subject) = .readwrite) (hid : m.draft.id < 0)
    (hversion : m.draft.version = 0) {subject : String} {req : RegisterSchemaRequest}
    {normalize : Bool} (hm : RegisterSchema.new subject req normalize = .ok m)
    (h : Quiet srv m reg race) (e : Event) : QuietOrStored srv m reg (Race.step srv m race e) := by
  rcases step_cases srv m race e with hstep | ⟨run, snapshot, hsnap, hstep⟩ |
    ⟨run, now, guid, hmissed, ⟨e', hstep⟩ | ⟨plan, hplan, hstep⟩⟩ <;> rw [hstep]
  · exact .inl h
  · obtain rfl := h.published snapshot hsnap
    rw [h.unchanged]
    refine .inl ⟨h.unchanged, h.published, fun i hi => ?_, fun i out hi => ?_⟩
    · rcases setRun_runs hi with ⟨-, hres⟩ | hi
      · exact afterFastPath_eq_missed hres
      · exact h.missed i hi
    · rcases setRun_runs hi with ⟨-, hres⟩ | hi
      · exact .inl (afterFastPath_eq_ok hres)
      · exact h.done i out hi
  · refine .inl ⟨h.unchanged, h.published, fun i hi => ?_, fun i out hi => ?_⟩
    · rcases setRun_runs hi with ⟨-, hres⟩ | hi
      · cases hres
      · exact h.missed i hi
    · rcases setRun_runs hi with ⟨-, hres⟩ | hi
      · cases hres
      · exact h.done i out hi
  · have hfound := h.missed run hmissed
    rw [h.unchanged, gatedPlan_of_readwrite hid hmode] at hplan
    rcases registerPlan_cases hplan with ⟨out, hresolve, rfl⟩ | ⟨x, version, id, hx, hv, hid', hp⟩
    · refine .inl ⟨h.unchanged, fun s hsnap => ?_, fun i hi => ?_, fun i out' hi => ?_⟩
      · rcases List.mem_cons.mp hsnap with rfl | hsnap
        · rw [Registry.apply_silent, h.unchanged]
        · exact h.published s hsnap
      · rcases setRun_runs hi with ⟨-, hres⟩ | hi
        · cases hres
        · exact h.missed i hi
      · rcases setRun_runs hi with ⟨-, hres⟩ | hi
        · cases hres
          exact .inr ⟨hfound, hresolve⟩
        · exact h.done i out' hi
    · have hs' := hs.apply (effect_register hm hplan)
      have happ := appended_of_plan hs hrep.toFits hversion hx hv hid' hs'.consistent
        ((Registry.rows_apply reg plan).trans (by rw [hp, Registry.view_reader]))
      refine .inr ⟨x, version, id, ⟨id, false, now⟩,
        RegisterSchema.bodyFor srv (reg.view now guid) m.subject.context id x.canon, hx, hfound, ?_,
        bodyFor_fingerprint _ _ _ _, ?_, fun s hsnap => ?_, fun i out hi => ?_⟩
      · rw [setRun_reg, h.unchanged]
        exact happ
      · rw [setRun_reg, h.unchanged]
        exact hs'
      · rw [setRun_reg, h.unchanged]
        rcases List.mem_cons.mp hsnap with rfl | hsnap
        · exact .inr (by rw [h.unchanged])
        · exact .inl (h.published s hsnap)
      · rcases setRun_runs hi with ⟨-, hres⟩ | hi
        · cases hres
          rw [hp]
          exact id_answer _ _
        · -- No run can have succeeded before: the fast path had nothing, and the plan stores.
          rcases h.done i out hi with hsome | ⟨-, hinl⟩
          · rw [hfound] at hsome
            cases hsome
          · have hx' : m.resolve srv (reg.view 0 "") = .ok (.inr x) := hx
            rw [hx'] at hinl
            cases hinl

theorem Stored.step (hsha : Function.Injective srv.fmt.sha256) (hs : reg.Sound srv.fmt)
    (hrep : m.Repeatable srv reg.reader)
    (hmode : modeFor reg.reader (.subject m.subject) = .readwrite) (hid : m.draft.id < 0)
    (hversion : m.draft.version = 0) (h : Stored srv m reg race x version id row rec) (e : Event) :
    Stored srv m reg (Race.step srv m race e) x version id row rec := by
  have happ := h.appended
  rcases step_cases srv m race e with hstep | ⟨run, snapshot, hsnap, hstep⟩ |
    ⟨run, now, guid, hmissed, ⟨e', hstep⟩ | ⟨plan, hplan, hstep⟩⟩ <;> rw [hstep]
  · exact h
  · refine ⟨h.resolved, h.missed, happ, h.fingerprint, h.sound, h.published, fun i out hi => ?_⟩
    rcases setRun_runs hi with ⟨-, hres⟩ | hi
    · have hfast := afterFastPath_eq_ok hres
      rcases h.published snapshot hsnap with rfl | rfl
      · -- An old snapshot: the bodies it reads are the old ones.
        have hbodies : reg.reader.BodiesOf race.reg.store.getSchema := fun ctx subject v vr hrow =>
          happ.bodies ctx vr.id ⟨subject, v, vr, hrow, rfl⟩
        have hnone : registerFastPath srv ⟨reg.snapshot, race.reg.store.getSchema⟩ m.subject m.draft
            (m.normalizeRequested || normalizeInScope srv reg.reader m.subject) = .ok none :=
          (hbodies.registerFastPath m.subject m.draft _).trans h.missed
        exact absurd (hfast.symm.trans hnone) (by simp)
      · have hnorm : normalizeInScope srv race.reg.reader m.subject
            = normalizeInScope srv reg.reader m.subject := by
          rw [normalizeInScope, happ.configInScope, normalizeInScope]
        have hfast' : registerFastPath srv race.reg.reader m.subject m.draft
            (m.normalizeRequested || normalizeInScope srv reg.reader m.subject)
              = .ok (some out) := by
          rw [← hnorm]
          exact hfast
        rcases happ.registerFastPath hs.consistent hrep.refs hversion hid
          h.missed with hpath | hpath
        · rw [hpath] at hfast'
          cases hfast'
        · rw [hpath] at hfast'
          cases hfast'
          rfl
    · exact h.done i out hi
  · refine ⟨h.resolved, h.missed, happ, h.fingerprint, h.sound, h.published, fun i out hi => ?_⟩
    rcases setRun_runs hi with ⟨-, hres⟩ | hi
    · cases hres
    · exact h.done i out hi
  · rw [gatedPlan_of_readwrite hid ((happ.modeFor _).trans hmode)] at hplan
    obtain ⟨out, hsilent, hout⟩ := happ.plan h.sound hsha h.fingerprint hrep hmode hversion hid
      h.resolved now guid
    rw [hsilent] at hplan
    cases hplan
    refine ⟨h.resolved, h.missed, happ, h.fingerprint, h.sound, fun s hsnap => ?_,
      fun i out' hi => ?_⟩
    · rcases List.mem_cons.mp hsnap with rfl | hsnap
      · exact .inr rfl
      · exact h.published s hsnap
    · rcases setRun_runs hi with ⟨-, hres⟩ | hi
      · cases hres
        exact hout
      · exact h.done i out' hi

end Unnumbered

/-! ### Requests with a number -/

section Numbered

/-- The fast path has no answer for a request that names a version and no id. -/
theorem registerFastPath_ne_some {r : Reader} {q : QualifiedSubject} {d : Draft}
    (hversion : 0 < d.version) (hid : d.id < 0) (normalize : Bool) (out : RegisterResponse) :
    registerFastPath srv r q d normalize ≠ .ok (some out) := by
  have hzero : (d.version == 0) = false := beq_eq_false_iff_ne.mpr (Int32.ne_of_lt hversion).symm
  have hlatest : (d.version == -1) = false := by
    refine beq_eq_false_iff_ne.mpr fun h => ?_
    rw [h] at hversion
    exact absurd hversion (by decide)
  have hnot : ¬ d.id ≥ 0 := Int32.not_le.mpr hid
  intro h
  unfold registerFastPath at h
  split at h
  · cases h
  · simp only [hlatest] at h
    obtain ⟨existing, -, h⟩ := bind_eq_ok.mp h
    cases existing with
    | none => cases h
    | some e => simp [hzero, hnot] at h

/-- Nor does the plan: it stores a new version or fails. -/
theorem resolve_ne_answer {view : ReadView} (hversion : 0 < m.draft.version)
    (out : RegisterResponse) : m.resolve srv view ≠ .ok (.inl out) := by
  intro h
  simp only [RegisterSchema.resolve, bind_eq_ok] at h
  obtain ⟨⟨d, modified⟩, hdraft, canon, -, h⟩ := h
  have hd : (d.version == 0) = false := by
    rw [(inherited_spec hdraft).version]
    exact beq_eq_false_iff_ne.mpr (Int32.ne_of_lt hversion).symm
  have hafter : ∀ c id, RegisterSchema.resolve.afterHash srv view.reader m.subject d modified c id
      ≠ .ok (.inl out) := by
    intro c id hafter
    simp [RegisterSchema.resolve.afterHash, RegisterSchema.equalVersion, hd] at hafter
  cases canon with
  | none => cases h
  | some c =>
    dsimp only at h
    rw [hd] at h
    split at h
    · exact hafter _ _ h
    · exact hafter _ _ h
    · exact hafter _ _ h

/-- A number that is next is beyond all that are there. -/
theorem lt_of_newVersion {versions : List (UInt32 × VersionRecord)} {version : UInt32}
    (hpos : 0 < version) (h : RegisterSchema.newVersion versions = version) :
    ∀ p ∈ versions, p.1 < version := by
  subst h
  refine lt_newVersion fun p hp => ?_
  unfold RegisterSchema.newVersion at hpos
  split at hpos
  · next m hmax =>
      obtain ⟨hmem, hle⟩ := List.max?_eq_some_iff.mp hmax
      have hm := UInt32.le_iff_toNat_le.mp (hle p.1 (List.mem_map_of_mem hp))
      rw [UInt32.lt_iff_toNat_lt, UInt32.toNat_add] at hpos
      change 0 < (m.toNat + 1) % 2 ^ 32 at hpos
      have hlt : m.toNat < 2 ^ 32 := m.toNat_lt
      omega
  · next hmax =>
      obtain rfl : versions = [] := by simpa using hmax
      cases hp

/-- A number that is there is not next. -/
theorem newVersion_ne {versions : List (UInt32 × VersionRecord)} {p : UInt32 × VersionRecord}
    (hp : p ∈ versions) (hpos : 0 < p.1) : RegisterSchema.newVersion versions ≠ p.1 := by
  intro h
  exact UInt32.lt_irrefl _ (lt_of_newVersion hpos h p hp)

/-- No run has succeeded yet. -/
structure Untaken (reg : Registry) (race : Race) : Prop where
  unchanged : race.reg = reg
  done : ∀ run out, ¬ race.Succeeded run out

/-- One run has the number, and no other will. -/
structure Taken (m : RegisterSchema) (reg : Registry) (race : Race) (winner : Nat) : Prop where
  mode : modeFor race.reg.reader (.subject m.subject) = .readwrite
  stored : (race.reg.reader.getVersion m.subject.context m.subject.subject
    m.draft.version.toUInt32).isSome = true
  only : ∀ v, Creates m reg race.reg v → v = m.draft.version.toUInt32
  done : ∀ run out, race.Succeeded run out → run = winner

/-- What holds in every race of a request with a number. -/
def UntakenOrTaken (m : RegisterSchema) (reg : Registry) (race : Race) : Prop :=
  Untaken reg race ∨ ∃ winner, Taken m reg race winner

theorem Untaken.agreed (h : Untaken reg race) : Agreed m reg race where
  version := by
    rintro v v' ⟨hnone, hsome⟩ -
    rw [h.unchanged, hnone] at hsome
    cases hsome
  id run run' out out' hout _ := (h.done run out hout).elim

theorem Taken.agreed {winner : Nat} (h : Taken m reg race winner) : Agreed m reg race where
  version v v' hv hv' := by rw [h.only v hv, h.only v' hv']
  id := by
    intro run run' out out' hout hout'
    rw [h.done run out hout] at hout
    rw [h.done run' out' hout', Succeeded, hout] at hout'
    cases hout'
    rfl

theorem Untaken.step (hmode : modeFor reg.reader (.subject m.subject) = .readwrite)
    (hid : m.draft.id < 0) (hversion : 0 < m.draft.version) (h : Untaken reg race) (e : Event) :
    UntakenOrTaken m reg (Race.step srv m race e) := by
  rcases step_cases srv m race e with hstep | ⟨run, snapshot, hsnap, hstep⟩ |
    ⟨run, now, guid, hmissed, ⟨e', hstep⟩ | ⟨plan, hplan, hstep⟩⟩ <;> rw [hstep]
  · exact .inl h
  · refine .inl ⟨h.unchanged, fun i out hi => ?_⟩
    rcases setRun_runs hi with ⟨-, hres⟩ | hi
    · exact registerFastPath_ne_some hversion hid _ _ (afterFastPath_eq_ok hres)
    · exact h.done i out hi
  · refine .inl ⟨h.unchanged, fun i out hi => ?_⟩
    rcases setRun_runs hi with ⟨-, hres⟩ | hi
    · cases hres
    · exact h.done i out hi
  · rw [h.unchanged, gatedPlan_of_readwrite hid hmode] at hplan
    rcases registerPlan_cases hplan with ⟨out, hresolve, -⟩ | ⟨x, version, id, hx, hv, -, hp⟩
    · exact (resolve_ne_answer hversion out hresolve).elim
    · have hnumber : version = m.draft.version.toUInt32 := by
        rw [Registry.view_reader, hmode] at hv
        unfold RegisterSchema.chooseVersion at hv
        rw [(resolve_spec hx).inherits.version, if_neg (Int32.not_le.mpr hversion)] at hv
        split at hv
        · cases hv
        · cases hv
          rfl
      have hrows : (reg.apply plan).rows = reg.rows.after
          (RegisterSchema.written srv (reg.view now guid) m.subject version id x.canon) := by
        rw [Registry.rows_apply, hp]
      refine .inr ⟨run, ?_, ?_, ?_, fun i out hi => ?_⟩
      · rw [setRun_reg, h.unchanged]
        refine (modeFor_congr (fun scope => ?_) _).trans hmode
        exact (congrFun hrows (.mode scope)).trans (mode_register reg now guid _ _ _ _ scope)
      · rw [setRun_reg, h.unchanged]
        refine Option.isSome_iff_exists.mpr ⟨⟨id, false, now⟩, (congrFun hrows
          (.version m.subject.context m.subject.subject _)).trans ?_⟩
        rcases version_register srv (reg.view now guid) m.subject version id x.canon reg.rows
          m.subject.context m.subject.subject m.draft.version.toUInt32 with ⟨-, hrow⟩ | ⟨hne, -⟩
        · exact hrow
        · exact (hne ⟨rfl, hnumber.symm⟩).elim
      · rw [setRun_reg, h.unchanged]
        rintro v ⟨hnone, hsome⟩
        obtain ⟨vr, hrow⟩ := Option.isSome_iff_exists.mp hsome
        have hrow' := (congrFun hrows (.version m.subject.context m.subject.subject v)).symm.trans
          hrow
        rcases version_of_register hrow' with ⟨-, hv, -⟩ | ⟨-, hold⟩
        · exact hv.trans hnumber
        · exact absurd (hnone.symm.trans hold) (by simp)
      · rcases setRun_runs hi with ⟨hi, -⟩ | hi
        · exact hi
        · exact (h.done i out hi).elim

theorem Taken.step (hid : m.draft.id < 0) (hversion : 0 < m.draft.version) {winner : Nat}
    (h : Taken m reg race winner) (e : Event) : Taken m reg (Race.step srv m race e) winner := by
  rcases step_cases srv m race e with hstep | ⟨run, snapshot, hsnap, hstep⟩ |
    ⟨run, now, guid, hmissed, ⟨e', hstep⟩ | ⟨plan, hplan, hstep⟩⟩ <;> rw [hstep]
  · exact h
  · refine ⟨h.mode, h.stored, h.only, fun i out hi => ?_⟩
    rcases setRun_runs hi with ⟨-, hres⟩ | hi
    · exact (registerFastPath_ne_some hversion hid _ _ (afterFastPath_eq_ok hres)).elim
    · exact h.done i out hi
  · refine ⟨h.mode, h.stored, h.only, fun i out hi => ?_⟩
    rcases setRun_runs hi with ⟨-, hres⟩ | hi
    · cases hres
    · exact h.done i out hi
  · rw [gatedPlan_of_readwrite hid h.mode] at hplan
    rcases registerPlan_cases hplan with ⟨out, hresolve, -⟩ | ⟨x, version, id, hx, hv, -, -⟩
    · exact (resolve_ne_answer hversion out hresolve).elim
    · -- The number is there already, so it is not the next one.
      obtain ⟨vr, hrow⟩ := Option.isSome_iff_exists.mp h.stored
      have hmem : (m.draft.version.toUInt32, vr) ∈
          race.reg.reader.listVersions m.subject.context m.subject.subject :=
        Registry.mem_listVersions.mpr hrow
      have hnext := newVersion_ne hmem (toUInt32_range hversion).1
      rw [Registry.view_reader, h.mode] at hv
      unfold RegisterSchema.chooseVersion at hv
      rw [(resolve_spec hx).inherits.version, if_neg (Int32.not_le.mpr hversion),
        if_pos (by simpa using hnext)] at hv
      cases hv

end Numbered

end Race

open Race

/-- A request on subject `s`, as the engine holds it. -/
def registration (req : RegisterSchemaRequest) : RegisterSchema :=
  ⟨QualifiedSubject.parse "s", Draft.ofRequest req, false⟩

/-- Two runs that look at the first snapshot and then take the lock one after the other. -/
def bothMiss : List Race.Event :=
  [.fastPath 0 0, .fastPath 1 0, .locked 0 0 "guid", .locked 1 0 "guid'"]

/-- The ids of the two runs. -/
def idsOfRace (race : Race) : Option UInt32 × Option UInt32 :=
  (idOf (race.runs 0), idOf (race.runs 1))
where
  idOf : Attempt → Option UInt32
    | .done (.ok out) => some out.id
    | _ => none

theorem idOf_eq_some {a : Attempt} {id : UInt32} (h : idsOfRace.idOf a = some id) :
    ∃ out : RegisterResponse, a = .done (.ok out) ∧ out.id = id := by
  unfold idsOfRace.idOf at h
  split at h
  · exact ⟨_, rfl, Option.some.inj h⟩
  · cases h

theorem ids_eq_of_agreed {m : RegisterSchema} {reg : Registry} {race : Race} {id id' : UInt32}
    (h : Agreed m reg race) (hids : idsOfRace race = (some id, some id')) : id = id' := by
  obtain ⟨hfirst, hsecond⟩ := Prod.mk.inj hids
  obtain ⟨out, hrun, rfl⟩ := idOf_eq_some hfirst
  obtain ⟨out', hrun', rfl⟩ := idOf_eq_some hsecond
  exact h.id 0 1 out out' hrun hrun'

end SchemaRegistry

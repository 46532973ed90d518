import Mathlib.Data.List.Permutation
import SchemaRegistry.ReadSet
import SchemaRegistry.Publication

/-!
Serializability. Runs that hold locks at the same time own different contexts, and
while references stay in their context a run reads and writes nothing outside its own.
So the plan a run made is still its plan when it commits, and the runs in the order of
their commits, one at a time, produce the same store and the same snapshot.
-/

namespace SchemaRegistry

open Lib

variable {srv : Server} {stripe : String → Fin 64}

/-! ### Rows a target reads and rows it holds -/

/-- The rows that bear on a verb's plan. -/
def Target.Reads (t : Target) : RowKey → Prop
  | .refby ctx _ _ _ => t.Covers ctx
  | .config .global | .mode .global => t ≠ .exporters
  | .known _ => t = .global
  | k => t.Owns k

/-- The rows a target may write while references stay in their context. -/
def Target.Holds (t : Target) : RowKey → Prop
  | .refby ctx _ _ _ => t.Covers ctx
  | k => t.Owns k

theorem not_covers_of_not_excludes {t t' : Target} (h : t.excludes stripe t' = false) {ctx : String}
    (hctx : t.Covers ctx) : ¬ t'.Covers ctx := by
  have howns : t.Owns (.known ctx) := hctx
  exact not_owns_of_not_excludes h howns

theorem not_holds_of_not_excludes {t t' : Target} (h : t.excludes stripe t' = false) {k : RowKey}
    (hk : t.Reads k) : ¬ t'.Holds k := by
  have hglobal : t ≠ .exporters → ¬ t'.OwnsScope .global := by
    rintro ht (rfl : t' = .global)
    cases t <;> simp [Target.excludes] at h ht
  cases k with
  | version ctx | body ctx | fingerprint ctx | nextId ctx =>
    exact not_covers_of_not_excludes h hk
  | refby ctx => exact not_covers_of_not_excludes h hk
  | known ctx =>
    obtain rfl : t = .global := hk
    cases t' <;> simp [Target.excludes] at h
    exact id
  | config scope =>
    cases scope with
    | global => exact hglobal hk
    | context ctx => exact not_covers_of_not_excludes h hk
    | subject ctx subject => exact not_covers_of_not_excludes h hk
  | mode scope =>
    cases scope with
    | global => exact hglobal hk
    | context ctx => exact not_covers_of_not_excludes h hk
    | subject ctx subject => exact not_covers_of_not_excludes h hk
  | exporter name =>
    obtain rfl : t = .exporters := hk
    rintro (rfl : t' = .exporters)
    simp [Target.excludes] at h

/-- Containers with the same rows where a target reads look alike to it. -/
theorem seesAlike_of_rows {t : Target} {reg reg' : Registry} (hs : reg.snapshot.Consistent)
    (hs' : reg'.snapshot.Consistent) (h : ∀ k, t.Reads k → reg.rows k = reg'.rows k) :
    t.SeesAlike reg.reader reg'.reader reg.store.getExporter reg'.store.getExporter := by
  have hexporters : ∀ ctx, t.Covers ctx → t ≠ .exporters := by
    rintro ctx hctx rfl
    exact hctx
  refine ⟨fun ctx hctx => ?_, fun ht => ?_, fun ht => ?_⟩
  · have hsame : Snapshot.SameContext ctx reg.snapshot reg'.snapshot := by
      refine Snapshot.sameContext_of_rows hs hs' fun k hk => ?_
      cases k with
      | version c subject v =>
        cases hk
        exact h (.version ctx subject v) hctx
      | refby c subject v id =>
        cases hk
        exact h (.refby ctx subject v id) hctx
      | fingerprint c fp =>
        cases hk
        exact h (.fingerprint ctx fp) hctx
      | nextId c =>
        cases hk
        exact h (.nextId ctx) hctx
      | _ => cases hk
    have hseen : ∀ scope, Scope.SeenFrom ctx scope →
        t.Reads (.config scope) ∧ t.Reads (.mode scope) := by
      intro scope hscope
      cases scope with
      | global => exact ⟨hexporters ctx hctx, hexporters ctx hctx⟩
      | context c | subject c _ =>
        obtain rfl : c = ctx := hscope
        exact ⟨hctx, hctx⟩
    exact ⟨hsame.getVersion, hsame.listVersions, hsame.listSubjectNames, hsame.idUsages,
      hsame.referencedBy, hsame.idForFingerprint, hsame.nextId, fun id => h (.body ctx id) hctx,
      fun scope hscope => h (.config scope) (hseen scope hscope).1,
      fun scope hscope => h (.mode scope) (hseen scope hscope).2⟩
  · exact Snapshot.listContexts_of_rows fun c => h (.known c) ht
  · exact funext fun name => h (.exporter name) ht

/-! ### References that stay in their context -/

section Local

variable {reg : Registry} {verb : Verb} {now : Int} {guid : String} {ws : List Write}
  {evs : List LogEvent}

/-- Every stored reference stays in its context. -/
def Store.LocalBodies (s : Store) : Prop :=
  ∀ ctx id rec, s.getSchema ctx id = some rec → rec.Local ctx

/-- What a registration resolved stays in its context. -/
theorem local_of_resolve {m : RegisterSchema} {view : ReadView}
    {x : RegisterSchema.Resolved srv.fmt.Inner} (hx : m.resolve srv view = .ok (.inr x))
    (hlocal : view.reader.LocalBodies m.subject.context)
    (hrefs : ∀ rin ∈ m.draft.refs, rin.Local m.subject.context) :
    (∀ sr ∈ x.canon.refs, (refTarget m.subject.context sr).context = m.subject.context) ∧
      ∀ t ∈ x.canon.targets, t.1.context = m.subject.context := by
  have hres := resolve_spec hx
  have hdraft := local_of_inherited hlocal hrefs hres.inherits
  obtain ⟨found, hcanon⟩ := canonicalize_spec hres.canon
  have hfound : ∀ f ∈ found,
      (refTarget m.subject.context f.concrete).context = m.subject.context := by
    intro f hf
    obtain ⟨rin, hrin, hsubject, -⟩ := (hcanon.each f hf).source
    exact hdraft rin hrin f.concrete.subject hsubject
  rw [hcanon.refs, hcanon.targets]
  refine ⟨fun sr hsr => ?_, fun t ht => ?_⟩
  · obtain ⟨f, hf, rfl⟩ := List.mem_map.mp hsr
    exact hfound f hf
  · obtain ⟨f, hf, rfl⟩ := List.mem_map.mp ht
    rw [(hcanon.each f hf).target]
    exact hfound f hf

/-- The request's references of a registration, as the draft has them. -/
theorem draft_of_new {subject : String} {req : RegisterSchemaRequest} {normalize : Bool}
    {m : RegisterSchema} (hm : RegisterSchema.new subject req normalize = .ok m)
    (hrefs : (Verb.register subject req normalize).RefsLocal) :
    ∀ rin ∈ m.draft.refs, rin.Local m.subject.context := by
  rw [eq_of_new hm]
  exact hrefs

theorem holds_of_owns {t : Target} {k : RowKey} (h : t.Owns k) : t.Holds k := by
  cases k with
  | refby => exact h.elim
  | _ => exact h

/-- Every verb writes under its own lock, edges included, as long as references stay in their
context. -/
theorem Effect.held (h : Effect srv (reg.view now guid) verb ws evs) (hrefs : verb.RefsLocal)
    (hlocal : reg.store.LocalBodies) {w : Write} (hw : w ∈ ws) {k : RowKey} (hk : k ∈ w.keys) :
    verb.target.Holds k := by
  have hbodies : ∀ ctx, (reg.view now guid).reader.LocalBodies ctx := hlocal
  rcases h.owned_or_edge hw hk with hown | hedge
  · exact holds_of_owns hown
  cases hedge with
  | old hcov hrec hsr =>
    change verb.target.Covers _
    rwa [hbodies _ _ _ hrec _ hsr]
  | new hverb hm hx ht =>
    subst hverb
    have htarget := (local_of_resolve hx (hbodies _) (draft_of_new hm hrefs)).2 _ ht
    exact htarget ▸ covers_of_new hm

/-- The bodies a verb stores refer to their own context. -/
theorem Effect.local (h : Effect srv (reg.view now guid) verb ws evs) (hrefs : verb.RefsLocal)
    (hlocal : reg.store.LocalBodies) {ctx : String} {id : UInt32} {rec : SchemaRecord}
    {index : Bool} (hw : .putSchema ctx id rec index ∈ ws) : rec.Local ctx := by
  obtain ⟨m, x, hx, rfl, rfl, subject, req, normalize, rfl, hm⟩ := h.putSchema hw
  rcases bodyFor_references srv (reg.view now guid) m.subject.context id x.canon with hsame | hold
  · rw [SchemaRecord.Local, hsame]
    exact (local_of_resolve hx (hlocal _) (draft_of_new hm hrefs)).1
  · exact hlocal _ _ _ hold

end Local

/-! ### Runs that keep to their context -/

namespace System

variable {sys sys' : System} {i : Nat} {ser : Registry}

/-- References stay in their context: in requests, in the store and in plans under way, which
so keep to what their lock holds. -/
structure Confined (sys : System) : Prop where
  reqs : ∀ req ∈ sys.reqs, req.verb.RefsLocal
  bodies : sys.store.LocalBodies
  held : ∀ {i : Nat} {run : Run} {plan : Plan Unit}, sys.runs[i]? = some run →
    sys.UnderWay i run plan → ∀ w ∈ plan.writes, ∀ k ∈ w.keys, run.req.verb.target.Holds k
  stored : ∀ {i : Nat} {run : Run} {plan : Plan Unit}, sys.runs[i]? = some run →
    sys.UnderWay i run plan → ∀ ctx id rec index, .putSchema ctx id rec index ∈ plan.writes →
    rec.Local ctx

theorem Confined.step (h : sys.Confined) (hs : Steps srv stripe sys i sys') : sys'.Confined := by
  have hreqs : ∀ req ∈ sys'.reqs, req.verb.RefsLocal := reqs_step hs ▸ h.reqs
  have hplans : ∀ {j : Nat} {run' : Run} {plan : Plan Unit}, sys'.runs[j]? = some run' →
      sys'.UnderWay j run' plan →
      (∀ w ∈ plan.writes, ∀ k ∈ w.keys, run'.req.verb.target.Holds k) ∧
      ∀ ctx id rec index, .putSchema ctx id rec index ∈ plan.writes → rec.Local ctx := by
    intro j run' plan hj hplan
    obtain ⟨run, hrun, hreq, hold | ⟨-, hmade⟩⟩ := underWay_of_step hs hj hplan
    · rw [← hreq]
      exact ⟨h.held hrun hold, h.stored hrun hold⟩
    · have heff := effect_of_gatedPlan hmade.made
      have hrefs := h.reqs run.req (List.mem_of_getElem? (getElem?_reqs hrun))
      rw [← hreq]
      exact ⟨fun w hw k hk => heff.held hrefs h.bodies hw hk,
        fun ctx id rec index hput => heff.local hrefs h.bodies hput⟩
  refine ⟨hreqs, ?_, fun hj hplan => (hplans hj hplan).1, fun hj hplan => (hplans hj hplan).2⟩
  cases hs with
  | idle | refuse | lock | plan | publish => exact h.bodies
  | commit run hrun plan hphase =>
    rw [commit_eq]
    intro ctx id rec hrec
    have hrow : sys.store.row.after plan.writes (.body ctx id) = some rec :=
      (Store.row_afterPlan sys.store (k := .body ctx id) fun hk => hk.elim).symm.trans hrec
    rcases body_after hrow with hold | ⟨index, hput⟩
    · exact h.bodies ctx id rec hold
    · exact h.stored hrun (.inl hphase) ctx id rec index hput

theorem confined_init {tenant : TenantId} {reqs : List Request}
    (hrefs : ∀ req ∈ reqs, req.verb.RefsLocal) : (init tenant reqs).Confined := by
  refine ⟨by simpa [System.reqs, init] using hrefs, fun ctx id rec hrec => ?_,
    fun h hplan => (not_underWay_init h hplan).elim, fun h hplan =>
      (not_underWay_init h hplan).elim⟩
  simp [init, Store.getSchema, Store.get?] at hrec

/-- A run that has the lock and has not committed sees what it reads as the container that
publishes at once has it. -/
theorem Tracks.seesAlike (ht : sys.Tracks ser) (h : sys.Sound srv stripe) (hconf : sys.Confined)
    (hser : ser.snapshot.Consistent) {run : Run} (hrun : sys.runs[i]? = some run)
    (hlock : run.phase.holdsLock = true) (hphase : run.phase ≠ .committed) :
    run.req.verb.target.SeesAlike sys.registry.reader ser.reader
      sys.registry.store.getExporter ser.store.getExporter := by
  refine seesAlike_of_rows h.consistent hser fun k hk => ?_
  by_cases hindexed : k.indexed
  · rw [Registry.rows_of_indexed _ hindexed, Registry.rows_of_indexed _ hindexed, ht.row k hindexed]
    refine (writeAll_of_untouched fun w hw => Write.touch_eq_none fun hkw => ?_).symm
    obtain ⟨p, hp, hw⟩ := List.mem_flatMap.mp hw
    obtain ⟨run', hrun', hplan', -⟩ := h.pending_run hp
    have hapart := h.pending_apart hrun hlock hphase hp hrun' hplan'
    exact not_holds_of_not_excludes hapart hk (hconf.held hrun' hplan' w hw k hkw)
  · rw [Registry.rows_of_not_indexed _ hindexed, Registry.rows_of_not_indexed _ hindexed, ht.store]
    rfl

/-- A commit under another lock does not change what a run reads. -/
theorem seesAlike_apply (hser : ser.snapshot.Consistent) {plan : Plan Unit}
    (hser' : (ser.apply plan).snapshot.Consistent) {t t' : Target}
    (hapart : t.excludes stripe t' = false)
    (hheld : ∀ w ∈ plan.writes, ∀ k ∈ w.keys, t'.Holds k) :
    t.SeesAlike ser.reader (ser.apply plan).reader ser.store.getExporter
      (ser.apply plan).store.getExporter := by
  refine seesAlike_of_rows hser hser' fun k hk => ?_
  rw [Registry.rows_apply]
  refine (writeAll_of_untouched fun w hw => Write.touch_eq_none fun hkw => ?_).symm
  exact not_holds_of_not_excludes hapart hk (hheld w hw k hkw)

/-! ### One run at a time -/

/-- The runs of an order, each from its lock to its publication before the next starts. -/
def serial (srv : Server) (stripe : String → Fin 64) (sys : System) (order : List Nat) : System :=
  sys.runSchedule srv stripe (order.flatMap fun i => [i, i, i, i])

/-- Between serial runs: those of the order are done, the others wait. -/
structure Quiet (sys : System) (order : List Nat) : Prop where
  pending : sys.pending = []
  phase : ∀ {j : Nat} {run : Run}, sys.runs[j]? = some run →
    run.phase = if j ∈ order then .done else .waiting

theorem quiet_init (tenant : TenantId) (reqs : List Request) : (init tenant reqs).Quiet [] :=
  ⟨rfl, fun h => init_waiting h⟩

theorem Quiet.free {order : List Nat} (h : sys.Quiet order) (t : Target) :
    sys.free srv stripe t = true := by
  rw [System.free, List.all_eq_true]
  intro run hrun
  obtain ⟨j, hj⟩ := List.mem_iff_getElem?.mp hrun
  have hidle : run.phase.holdsLock = false := by
    rw [h.phase hj]
    split <;> rfl
  rw [hidle]
  rfl

theorem reqs_runSchedule (sys : System) (schedule : List Nat) :
    (sys.runSchedule srv stripe schedule).reqs = sys.reqs := by
  induction schedule generalizing sys with
  | nil => rfl
  | cons i schedule ih => exact (ih _).trans (reqs_step (steps_step srv stripe sys i))

theorem run_setPhase {run : Run} (hrun : sys.runs[i]? = some run) (phase : Phase) :
    (sys.setPhase i phase).runs[i]? = some { run with phase } := by
  rw [getElem?_setPhase, if_pos rfl, hrun]
  rfl

/-- What a waiting run that can plan does when nothing comes in between. -/
theorem Quiet.runOne (srv : Server) (stripe : String → Fin 64) {order : List Nat}
    (h : sys.Quiet order) {run : Run} {plan : Plan Unit}
    (hrun : sys.runs[i]? = some run) (hi : i ∉ order) {t : Target}
    (htarget : run.req.verb.target? srv = some t)
    (hplan : run.req.verb.gatedPlan srv (sys.registry.view run.req.now run.req.newGuid)
      = .ok plan) :
    let sys' := sys.runSchedule srv stripe [i, i, i, i]
    sys'.registry = sys.registry.apply plan ∧ sys'.Quiet (order ++ [i]) ∧ sys'.reqs = sys.reqs := by
  have hphase : run.phase = .waiting := by
    rw [h.phase hrun, if_neg hi]
  let s₁ := sys.setPhase i .locked
  let s₂ := s₁.setPhase i (.planned plan)
  let p : Pending := ⟨i, plan, sys.store.planOps plan⟩
  have hrun₁ : s₁.runs[i]? = some { run with phase := .locked } := run_setPhase hrun _
  have hrun₂ : s₂.runs[i]? = some { run with phase := .planned plan } := run_setPhase hrun₁ _
  have hrun₃ : (s₂.commit i plan).runs[i]? = some { run with phase := .committed } := by
    rw [commit_eq]
    exact run_setPhase hrun₂ _
  have hpending : (s₂.commit i plan).pending = [p] := by
    rw [commit_eq]
    exact congrArg (· ++ [p]) h.pending
  have hfirst : sys.step srv stripe i = s₁ := by
    simp only [step, hrun, hphase, htarget, h.free, if_true]
    rfl
  have hsecond : s₁.step srv stripe i = s₂ := by
    simp only [step, hrun₁]
    rw [show s₁.registry = sys.registry from rfl, hplan]
  have hthird : s₂.step srv stripe i = s₂.commit i plan := by
    simp only [step, hrun₂]
  have hfourth : (s₂.commit i plan).step srv stripe i = (s₂.commit i plan).publish i p := by
    simp only [step, hrun₃, hpending]
    simp [p]
  have hall : sys.runSchedule srv stripe [i, i, i, i] = (s₂.commit i plan).publish i p := by
    simp only [runSchedule, List.foldl_cons, List.foldl_nil, hfirst, hsecond, hthird, hfourth]
  rw [hall]
  refine ⟨?_, ⟨?_, fun {j run'} hj => ?_⟩, ?_⟩
  · rw [commit_eq, Registry.apply, Store.commit_planTx]
    rfl
  · change (s₂.commit i plan).pending.filter _ = []
    rw [hpending]
    simp [p]
  · rcases run_of_setPhase hrun₃ hj with ⟨rfl, rfl⟩ | ⟨hij, hj⟩
    · simp
    · have hold : sys.runs[j]? = some run' := by
        rw [commit_eq] at hj
        change ((s₁.setPhase i _).setPhase i _).runs[j]? = some run' at hj
        rwa [getElem?_setPhase, if_neg hij, getElem?_setPhase, if_neg hij, getElem?_setPhase,
          if_neg hij] at hj
      rw [h.phase hold]
      simp [Ne.symm hij]
  · rw [← hall]
    exact reqs_runSchedule sys _

theorem serial_append (sys : System) (order : List Nat) (i : Nat) :
    sys.serial srv stripe (order ++ [i]) =
      (sys.serial srv stripe order).runSchedule srv stripe [i, i, i, i] := by
  simp [serial, runSchedule, List.flatMap_append]

/-- What the system has committed so far, a serial order has too: the container it leaves
publishes at once, and every plan that is made but not committed is also a plan there. -/
structure SerialOrder (srv : Server) (stripe : String → Fin 64) (start sys : System)
    (order : List Nat) : Prop where
  nodup : order.Nodup
  mem : ∀ i, i ∈ order ↔ ∃ run, sys.runs[i]? = some run ∧
    (run.phase = .committed ∨ run.phase = .done)
  quiet : (start.serial srv stripe order).Quiet order
  tracks : sys.Tracks (start.serial srv stripe order).registry
  consistent : (start.serial srv stripe order).snapshot.Consistent
  planned : ∀ {i : Nat} {run : Run} {plan : Plan Unit}, sys.runs[i]? = some run →
    run.phase = .planned plan → run.req.verb.gatedPlan srv
      ((start.serial srv stripe order).registry.view run.req.now run.req.newGuid) = .ok plan

variable {start : System} {order : List Nat}

/-- Moving a run between phases before its commit, or from there to the end, keeps the order. -/
theorem SerialOrder.mem_setPhase (h : SerialOrder srv stripe start sys order) {run : Run}
    {phase : Phase} (hrun : sys.runs[i]? = some run)
    (hphase : (run.phase = .committed ∨ run.phase = .done) ↔ (phase = .committed ∨ phase = .done))
    (j : Nat) : j ∈ order ↔ ∃ run, (sys.setPhase i phase).runs[j]? = some run ∧
      (run.phase = .committed ∨ run.phase = .done) := by
  rw [h.mem, getElem?_setPhase]
  by_cases hij : i = j
  · subst hij
    rw [if_pos rfl, hrun]
    simpa using hphase
  · rw [if_neg hij]

theorem SerialOrder.planned_setPhase (h : SerialOrder srv stripe start sys order) {run : Run}
    {phase : Phase} (hrun : sys.runs[i]? = some run)
    (hplan : ∀ plan, phase = .planned plan → run.req.verb.gatedPlan srv
      ((start.serial srv stripe order).registry.view run.req.now run.req.newGuid) = .ok plan)
    {j : Nat} {run' : Run} {plan : Plan Unit}
    (hj : (sys.setPhase i phase).runs[j]? = some run') (hphase : run'.phase = .planned plan) :
    run'.req.verb.gatedPlan srv
      ((start.serial srv stripe order).registry.view run'.req.now run'.req.newGuid) = .ok plan := by
  rcases run_of_setPhase hrun hj with ⟨rfl, rfl⟩ | ⟨-, hj⟩
  · exact hplan plan hphase
  · exact h.planned hj hphase

/-- What holds in every interleaving of runs whose references stay in their context and whose
conflicting batches are published in turn. -/
structure Serializes (srv : Server) (stripe : String → Fin 64) (start sys : System) : Prop where
  sound : sys.Sound srv stripe
  confined : sys.Confined
  reqs : sys.reqs = start.reqs
  order : ∃ order, SerialOrder srv stripe start sys order

/-- The plan of a run is its plan in every container that looks alike to it. -/
theorem Confined.gatedPlan_congr (h : sys.Confined) {run : Run} (hrun : sys.runs[i]? = some run)
    {reg reg' : Registry} (hstore : reg.store = sys.store)
    (hsees : run.req.verb.target.SeesAlike reg.reader reg'.reader reg.store.getExporter
      reg'.store.getExporter) (now : Int) (guid : String) :
    run.req.verb.gatedPlan srv (reg.view now guid) =
      run.req.verb.gatedPlan srv (reg'.view now guid) := by
  have hrefs := h.reqs run.req (List.mem_of_getElem? (getElem?_reqs hrun))
  refine SchemaRegistry.gatedPlan_congr hrefs (fun ctx _ => ?_) hsees
  intro id rec hrec
  refine h.bodies ctx id rec ?_
  rw [← hstore]
  exact hrec

theorem SerialOrder.commit (h : SerialOrder srv stripe start sys order)
    (hsound : sys.Sound srv stripe) (hconf : sys.Confined) (hreqs : sys.reqs = start.reqs)
    {run : Run} {plan : Plan Unit} (hrun : sys.runs[i]? = some run)
    (hphase : run.phase = .planned plan) :
    SerialOrder srv stripe start (sys.commit i plan) (order ++ [i]) := by
  have hplan : sys.UnderWay i run plan := .inl hphase
  have hlock := hsound.queued.holdsLock hrun hplan
  have hi : i ∉ order := by
    rw [h.mem]
    rintro ⟨run', hrun', hdone⟩
    rw [hrun, Option.some.injEq] at hrun'
    rw [← hrun', hphase] at hdone
    rcases hdone with hdone | hdone <;> cases hdone
  -- the run as the serial order finds it: waiting, with the same request
  obtain ⟨run₀, hrun₀, hreq⟩ : ∃ run₀, (start.serial srv stripe order).runs[i]? = some run₀ ∧
      run₀.req = run.req := by
    have hreq : (start.serial srv stripe order).reqs[i]? = some run.req := by
      rw [serial, reqs_runSchedule, ← hreqs]
      exact getElem?_reqs hrun
    rw [System.reqs, List.getElem?_map, Option.map_eq_some_iff] at hreq
    exact hreq
  obtain ⟨hreg, hquiet, -⟩ := h.quiet.runOne srv stripe hrun₀ hi
    (hreq ▸ hsound.exclusive.target hrun hlock) (hreq ▸ h.planned hrun hphase)
  rw [← serial_append] at hreg hquiet
  have hhints := h.tracks.hints hsound hrun hphase
  have hcons : ((start.serial srv stripe order).registry.apply plan).snapshot.Consistent := by
    rw [Registry.snapshot_apply]
    exact h.consistent.applyWrites hhints
  refine ⟨?_, fun j => ?_, hquiet, ?_, ?_, fun {j run' plan'} hj hphase' => ?_⟩
  · rw [List.nodup_append]
    exact ⟨h.nodup, List.nodup_singleton i, fun a ha b hb => by
      rintro rfl
      exact hi (List.mem_singleton.mp hb ▸ ha)⟩
  · rw [commit_eq, List.mem_append, List.mem_singleton, h.mem]
    change _ ↔ ∃ run, (sys.setPhase i .committed).runs[j]? = some run ∧ _
    rw [getElem?_setPhase]
    by_cases hij : i = j
    · subst hij
      simp [hrun]
    · simp [hij, Ne.symm hij]
  · rw [hreg]
    exact h.tracks.commit plan
  · change (start.serial srv stripe (order ++ [i])).registry.snapshot.Consistent
    rw [hreg]
    exact hcons
  · rw [hreg]
    rw [commit_eq] at hj
    rcases run_of_setPhase hrun hj with ⟨rfl, rfl⟩ | ⟨hij, hj⟩
    · cases hphase'
    · have hapart := hsound.apart hj (.inl hphase') hrun hplan (Ne.symm hij)
      rw [← hconf.gatedPlan_congr hj h.tracks.store
        (seesAlike_apply h.consistent hcons hapart (hconf.held hrun hplan))]
      exact h.planned hj hphase'

theorem Serializes.step (h : Serializes srv stripe start sys) (hturn : sys.InTurn i) :
    Serializes srv stripe start (sys.step srv stripe i) := by
  have hs := steps_step srv stripe sys i
  obtain ⟨order, hord⟩ := h.order
  have hsound := h.sound
  refine ⟨h.sound.step hs, h.confined.step hs, (reqs_step hs).trans h.reqs, ?_⟩
  generalize sys.step srv stripe i = sys' at hs
  cases hs with
  | idle => exact ⟨order, hord⟩
  | refuse run hrun hphase =>
    refine ⟨order, hord.nodup, hord.mem_setPhase hrun ?_, hord.quiet, ?_, hord.consistent,
      hord.planned_setPhase hrun (by nofun)⟩
    · rcases hphase with hphase | hphase <;> simp [hphase]
    · exact ⟨hord.tracks.store, hord.tracks.row, hord.tracks.logSeq⟩
  | lock run hrun hphase =>
    refine ⟨order, hord.nodup, hord.mem_setPhase hrun (by simp [hphase]), hord.quiet, ?_,
      hord.consistent, hord.planned_setPhase hrun (by nofun)⟩
    exact ⟨hord.tracks.store, hord.tracks.row, hord.tracks.logSeq⟩
  | plan run hrun hphase plan hplan =>
    refine ⟨order, hord.nodup, hord.mem_setPhase hrun (by simp [hphase]), hord.quiet, ?_,
      hord.consistent, hord.planned_setPhase hrun fun plan' hplan' => ?_⟩
    · exact ⟨hord.tracks.store, hord.tracks.row, hord.tracks.logSeq⟩
    · cases hplan'
      have hsees := hord.tracks.seesAlike hsound h.confined hord.consistent hrun
        (by rw [hphase]; rfl) (by rw [hphase]; nofun)
      rw [← h.confined.gatedPlan_congr hrun rfl hsees]
      exact hplan
  | commit run hrun plan hphase =>
    exact ⟨order ++ [i], hord.commit hsound h.confined h.reqs hrun hphase⟩
  | publish run hrun hphase p hp =>
    exact ⟨order, hord.nodup, hord.mem_setPhase hrun (by simp [hphase]), hord.quiet,
      hord.tracks.publish hsound hturn hp, hord.consistent, hord.planned_setPhase hrun (by nofun)⟩

end System

/-- Some serial order of the runs that succeeded produces the same store, and a snapshot that
answers every query alike. -/
def System.Serializable (srv : Server) (stripe : String → Fin 64) (start sys : System) : Prop :=
  ∃ order : List Nat, order.Nodup ∧
    (∀ i, i ∈ order ↔ ∃ run, sys.runs[i]? = some run ∧ run.phase = .done) ∧
    (start.serial srv stripe order).store = sys.store ∧
    sys.snapshot.SameAnswers (start.serial srv stripe order).snapshot

/-- A subject, a registration in another context that references its latest version, and a
delete of that version. -/
def crossReference : List Request :=
  [registerJson "s" "\x7b\x7d", registerReferring ":.c:t" "true" ":.:s" (-1),
    plainRequest (.deleteVersion "s" (.exact 1) false)]

/-- The last two run at the same time: both plan before either commits. -/
def crossing : List Nat := [0, 0, 0, 0, 1, 1, 2, 2, 1, 1, 2, 2]

/-- Both succeed, although in every serial order one of them is refused. -/
theorem not_serializable_crossing :
    let sys := (System.init .default crossReference).runSchedule plainServer plainStripe crossing
    sys.Finished ∧
      ¬ System.Serializable plainServer plainStripe (System.init .default crossReference) sys := by
  refine ⟨by decide, ?_⟩
  rintro ⟨order, hnodup, hmem, hstore, -⟩
  have hlength : ((System.init .default crossReference).runSchedule plainServer plainStripe
      crossing).runs.length = 3 := by decide
  have hdone : ∀ run ∈ ((System.init .default crossReference).runSchedule plainServer plainStripe
      crossing).runs, run.phase = .done := by decide
  have hperm : order.Perm [0, 1, 2] := by
    refine (List.perm_ext_iff_of_nodup hnodup (by decide)).mpr fun i => (hmem i).trans ?_
    constructor
    · rintro ⟨run, hrun, -⟩
      have hi := (List.getElem?_eq_some_iff.mp hrun).1
      rw [hlength] at hi
      simp only [List.mem_cons, List.not_mem_nil, or_false]
      omega
    · intro hi
      simp only [List.mem_cons, List.not_mem_nil, or_false] at hi
      have hi : i < 3 := by omega
      rw [← hlength] at hi
      exact ⟨_, List.getElem?_eq_getElem hi, hdone _ (List.getElem_mem hi)⟩
  -- in the six orders at most two of the runs get to log their event
  have hseq : ∀ order ∈ [0, 1, 2].permutations',
      ((System.init .default crossReference).serial plainServer plainStripe order).store.logSeq
        ≠ 3 := by
    decide
  refine hseq order (List.mem_permutations'.mpr hperm) ?_
  rw [hstore]
  decide

/-- Serializability: if the references of every registration stay in its context and no run
publishes before an earlier commit that it conflicts with, then once every run has finished
the container is one that a serial order of the successful runs produces. -/
theorem serializable_of_local (srv : Server) (stripe : String → Fin 64) (tenant : TenantId)
    (reqs : List Request) (schedule : List Nat) (hlocal : ∀ req ∈ reqs, req.verb.RefsLocal)
    (hturn : Along (System.step srv stripe) System.InTurn (System.init tenant reqs) schedule) :
    let sys := (System.init tenant reqs).runSchedule srv stripe schedule
    sys.Finished → System.Serializable srv stripe (System.init tenant reqs) sys := by
  intro sys hfin
  have h0 : System.Serializes srv stripe (System.init tenant reqs) (System.init tenant reqs) := by
    refine ⟨System.sound_init tenant reqs, System.confined_init hlocal, rfl, [], List.nodup_nil,
      fun i => ?_, System.quiet_init tenant reqs, System.tracks_init tenant reqs,
      Snapshot.consistent_new, fun hrun hphase => ?_⟩
    · simp only [List.not_mem_nil, false_iff, not_exists, not_and]
      intro run hrun
      rw [System.init_waiting hrun]
      simp
    · rw [System.init_waiting hrun] at hphase
      cases hphase
  have h : System.Serializes srv stripe (System.init tenant reqs) sys :=
    inv_of_along hturn h0 fun _ _ h hturn => h.step hturn
  obtain ⟨order, hord⟩ := h.order
  have hnone := h.sound.queued.pending_eq_nil hfin
  refine ⟨order, hord.nodup, fun i => (hord.mem i).trans ?_, hord.tracks.store, ?_⟩
  · refine exists_congr fun run => and_congr_right fun hrun => ?_
    rcases hfin run (List.mem_of_getElem? hrun) with hdone | hrefused
    · simp [hdone]
    · simp [hrefused]
  · refine Snapshot.sameAnswers_of_rows h.sound.consistent hord.consistent (fun k hk => ?_) ?_
    · have hrow := hord.tracks.row k hk
      rw [System.unpublished, hnone] at hrow
      exact hrow.symm
    · have hseq := hord.tracks.logSeq
      rw [hnone] at hseq
      exact hseq.symm

/-- Two writers at the same time, publishing in the order of their commits. -/
theorem serializable_twoWriters :
    (∀ req ∈ twoWriters, req.verb.RefsLocal) ∧
    let sys := (System.init .default twoWriters).runSchedule plainServer plainStripe
      [0, 0, 1, 1, 1, 0, 1, 0]
    sys.Finished ∧ System.Serializable plainServer plainStripe (System.init .default twoWriters)
      sys := by
  have hlocal : ∀ req ∈ twoWriters, req.verb.RefsLocal := by
    intro req hreq
    simp only [twoWriters, List.mem_cons, List.not_mem_nil, or_false] at hreq
    rcases hreq with rfl | rfl <;> intro rin hrin <;> cases hrin
  have hfin : ((System.init .default twoWriters).runSchedule plainServer plainStripe
      [0, 0, 1, 1, 1, 0, 1, 0]).Finished := by decide
  refine ⟨hlocal, hfin, serializable_of_local plainServer plainStripe .default twoWriters _ hlocal
    ?_ hfin⟩
  decide

end SchemaRegistry

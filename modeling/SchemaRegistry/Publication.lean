import SchemaRegistry.Interleaving

/-!
Publishing in another order than committing. A batch that is yet to be published
commutes with the batches before it, except where both write the log or one adds the
reference edge the other removes. So when such batches are published in the order of
their commits, the snapshot at the end is the one that gets every batch at its commit,
and that one agrees with the store.
-/

namespace SchemaRegistry

open Lib

variable {srv : Server} {stripe : String → Fin 64} {plan : Plan Unit}

/-! ### What publishing a batch does -/

/-- The log sequence number an operation sets. -/
def Op.seq? : Op → Option UInt64
  | .setLogSeq seq => some seq
  | _ => none

namespace Snapshot

variable {s s' : Snapshot}

theorem logSeq_applyAll (s : Snapshot) (ops : List Op) :
    (s.applyAll ops).logSeq
      = writeAll (fun op (_ : Unit) => op.seq?) (fun _ => s.logSeq) ops () := by
  induction ops generalizing s with
  | nil => rfl
  | cons op ops ih =>
    refine (ih (s.apply op)).trans (writeAll_congr ?_)
    cases op with
    | putSchema ctx id rec index => cases index <;> rfl
    | _ => rfl

/-- Publishing the operations of a plan is applying its writes, the sequence number apart. -/
theorem applyAll_planOps (s : Snapshot) (st : Store) (plan : Plan Unit) :
    s.applyAll (st.planOps plan) =
      { s.applyWrites plan.writes with logSeq := (s.applyAll (st.planOps plan)).logSeq } := by
  rw [Store.planOps, applyWrites_eq]
  split
  · rw [List.append_nil]
  · rw [applyAll, List.foldl_append]
    rfl

theorem row_applyAll_planOps (s : Snapshot) (st : Store) (plan : Plan Unit) {k : RowKey}
    (hk : k.indexed) : (s.applyAll (st.planOps plan)).row k = s.row.after plan.writes k := by
  rw [applyAll_planOps, ← row_applyWrites s plan.writes hk]
  cases k <;> rfl

theorem Consistent.applyAll_planOps (h : s.Consistent) (st : Store)
    (hhint : Along Snapshot.applyWrite HintOk s plan.writes) :
    (s.applyAll (st.planOps plan)).Consistent := by
  rw [Snapshot.applyAll_planOps]
  exact h.applyWrites hhint

/-- Whether deletes know the ids depends on the versions the writes touch. -/
theorem along_hintOk_congr {ws : List Write} (hsame : ∀ w ∈ ws, ∀ ctx subject v,
      .version ctx subject v ∈ w.keys →
        s.row (.version ctx subject v) = s'.row (.version ctx subject v))
    (h : Along Snapshot.applyWrite HintOk s ws) : Along Snapshot.applyWrite HintOk s' ws := by
  induction ws generalizing s s' with
  | nil => trivial
  | cons w ws ih =>
    refine ⟨?_, ih (fun w' hw' ctx subject v hk => ?_) h.2⟩
    · cases w with
      | deleteVersion ctx subject v id =>
        intro vr hvr
        refine h.1 vr (Eq.trans ?_ hvr)
        exact hsame _ List.mem_cons_self ctx subject v (List.mem_singleton_self _)
      | _ => trivial
    · have hk' : (RowKey.version ctx subject v).indexed := trivial
      rw [row_applyWrite s w hk', row_applyWrite s' w hk', Lib.write, Lib.write,
        hsame w' (List.mem_cons_of_mem w hw') ctx subject v hk]

end Snapshot

/-! ### Plans that are under way -/

/-- What a plan keeps to from the moment it is made to its publication. -/
structure Fits (snap : Snapshot) (t : Target) (plan : Plan Unit) : Prop where
  owned : ∀ w ∈ plan.writes, ∀ k ∈ w.keys, t.Owns k ∨ k.IsEdge
  hints : Along Snapshot.applyWrite Snapshot.HintOk snap plan.writes

theorem effect_of_gatedPlan {verb : Verb} {view : ReadView}
    (h : verb.gatedPlan srv view = .ok plan) : Effect srv view verb plan.writes plan.events := by
  obtain ⟨m, hm, h⟩ := bind_eq_ok.mp h
  obtain ⟨plan', hplan, h⟩ := bind_eq_ok.mp h
  cases h
  exact effect_of_plan hm (plan_of_gatedPlan hplan)

theorem Fits.of_gatedPlan {reg : Registry} {verb : Verb} {now : Int} {guid : String}
    (h : verb.gatedPlan srv (reg.view now guid) = .ok plan) :
    Fits reg.snapshot verb.target plan := by
  have heff : Effect srv (reg.view now guid) verb plan.writes plan.events := effect_of_gatedPlan h
  obtain ⟨gone, rest, hws, hgone, hrest⟩ := heff.split
  exact ⟨fun w hw k hk => heff.owned hw hk, hws ▸ along_of_removals hgone hrest⟩

/-- Publishing a plan under another lock leaves a plan fitting. -/
theorem Fits.publish {snap : Snapshot} {t t' : Target} {plan plan' : Plan Unit}
    (h : Fits snap t plan) (h' : Fits snap t' plan') (hapart : t.excludes stripe t' = false)
    (st : Store) : Fits (snap.applyAll (st.planOps plan')) t plan where
  owned := h.owned
  hints := by
    refine Snapshot.along_hintOk_congr (fun w hw ctx subject v hk => ?_) h.hints
    have hindexed : (RowKey.version ctx subject v).indexed := trivial
    rw [snap.row_applyAll_planOps st plan' hindexed]
    refine (writeAll_of_untouched fun w' hw' => Write.touch_eq_none fun hk' => ?_).symm
    rcases h.owned w hw _ hk with hown | hedge
    · rcases h'.owned w' hw' _ hk' with hown' | hedge
      · exact not_owns_of_not_excludes hapart hown hown'
      · exact hedge
    · exact hedge

/-! ### The invariant of a system -/

namespace System

variable {sys sys' : System} {i : Nat}

/-- What holds in every interleaving. -/
structure Sound (srv : Server) (stripe : String → Fin 64) (sys : System) : Prop where
  exclusive : sys.Exclusive srv stripe
  queued : sys.Queued
  consistent : sys.snapshot.Consistent
  fits : ∀ {i : Nat} {run : Run} {plan : Plan Unit}, sys.runs[i]? = some run →
    sys.UnderWay i run plan → Fits sys.snapshot run.req.verb.target plan
  ops : ∀ p ∈ sys.pending, ∃ st : Store, p.ops = st.planOps p.plan

/-- Plans of different runs that are under way are made under locks that do not exclude
each other. -/
theorem Sound.apart (h : sys.Sound srv stripe) {j : Nat} {run run' : Run} {plan plan' : Plan Unit}
    (hrun : sys.runs[i]? = some run) (hplan : sys.UnderWay i run plan)
    (hrun' : sys.runs[j]? = some run') (hplan' : sys.UnderWay j run' plan') (hij : i ≠ j) :
    run.req.verb.target.excludes stripe run'.req.verb.target = false :=
  h.exclusive.apart hrun hrun' hij (h.queued.holdsLock hrun hplan) (h.queued.holdsLock hrun' hplan')

/-- A batch that waits was written under the lock of its run. -/
theorem Sound.pending_run (h : sys.Sound srv stripe) {p : Pending} (hp : p ∈ sys.pending) :
    ∃ run, sys.runs[p.run]? = some run ∧ sys.UnderWay p.run run p.plan ∧
      Fits sys.snapshot run.req.verb.target p.plan := by
  obtain ⟨run, hrun, -⟩ := h.queued.run p hp
  have hplan : sys.UnderWay p.run run p.plan := .inr ⟨p, hp, rfl, rfl⟩
  exact ⟨run, hrun, hplan, h.fits hrun hplan⟩

/-- A run that has the lock and has not committed is apart from those that are pending. -/
theorem Sound.pending_apart (h : sys.Sound srv stripe) {run run' : Run} {p : Pending}
    (hrun : sys.runs[i]? = some run) (hlock : run.phase.holdsLock = true)
    (hphase : run.phase ≠ .committed) (hp : p ∈ sys.pending) (hrun' : sys.runs[p.run]? = some run')
    (hplan' : sys.UnderWay p.run run' p.plan) :
    run.req.verb.target.excludes stripe run'.req.verb.target = false := by
  have hne : i ≠ p.run := by
    rintro rfl
    obtain ⟨run'', hrun'', hphase'⟩ := h.queued.run p hp
    rw [hrun, Option.some.injEq] at hrun''
    exact hphase (hrun'' ▸ hphase')
  exact h.exclusive.apart hrun hrun' hne hlock (h.queued.holdsLock hrun' hplan')

/-- What publishing makes of the snapshot. -/
theorem Sound.snapshot_publish (h : sys.Sound srv stripe) {p : Pending} (hp : p ∈ sys.pending) :
    ∃ st : Store, (sys.publish i p).snapshot = sys.snapshot.applyAll (st.planOps p.plan) := by
  obtain ⟨st, hops⟩ := h.ops p hp
  exact ⟨st, by rw [← hops]; rfl⟩

theorem Sound.step (h : sys.Sound srv stripe) (hs : Steps srv stripe sys i sys') :
    sys'.Sound srv stripe := by
  have hexcl := h.exclusive.step hs
  have hqueued := h.queued.step hs
  have hfits : ∀ {j : Nat} {run' : Run} {plan : Plan Unit}, sys'.runs[j]? = some run' →
      sys'.UnderWay j run' plan → Fits sys.snapshot run'.req.verb.target plan := by
    intro j run' plan hj hplan
    obtain ⟨run, hrun, hreq, hold | ⟨-, hmade⟩⟩ := underWay_of_step hs hj hplan
    · rw [← hreq]
      exact h.fits hrun hold
    · rw [← hreq]
      exact .of_gatedPlan hmade.made
  cases hs with
  | idle => exact h
  | refuse | lock | plan => exact ⟨hexcl, hqueued, h.consistent, hfits, h.ops⟩
  | commit run hrun plan hphase =>
    rw [commit_eq] at *
    refine ⟨hexcl, hqueued, h.consistent, hfits, fun p hp => ?_⟩
    rcases List.mem_append.mp hp with hp | hp
    · exact h.ops p hp
    · obtain rfl := List.mem_singleton.mp hp
      exact ⟨sys.store, rfl⟩
  | publish run hrun hphase p hp =>
    have hmem := List.mem_of_find?_eq_some hp
    obtain ⟨hpi, -⟩ := h.queued.split hp
    obtain ⟨runp, hrunp, hplanp, hfitsp⟩ := h.pending_run hmem
    obtain ⟨st, hsnap⟩ := h.snapshot_publish (i := i) hmem
    refine ⟨hexcl, hqueued, ?_, fun {j run' plan} hj hplan => ?_,
      fun p' hp' => h.ops p' (List.mem_filter.mp hp').1⟩
    · rw [hsnap]
      exact h.consistent.applyAll_planOps st hfitsp.hints
    · have hlock := hqueued.holdsLock hj hplan
      have hj' : p.run ≠ j ∧ sys.runs[j]? = some run' := by
        rw [hpi]
        rcases run_of_setPhase hrun hj with ⟨rfl, rfl⟩ | hj
        · cases hlock
        · exact hj
      have hapart := h.exclusive.apart hj'.2 hrunp hj'.1.symm hlock
        (h.queued.holdsLock hrunp hplanp)
      rw [hsnap]
      exact (hfits hj hplan).publish hfitsp hapart st

theorem init_waiting {tenant : TenantId} {reqs : List Request} {run : Run}
    (h : (init tenant reqs).runs[i]? = some run) : run.phase = .waiting := by
  simp only [init, List.getElem?_map, Option.map_eq_some_iff] at h
  obtain ⟨req, -, rfl⟩ := h
  rfl

theorem not_underWay_init {tenant : TenantId} {reqs : List Request} {run : Run}
    (h : (init tenant reqs).runs[i]? = some run) : ¬ (init tenant reqs).UnderWay i run plan := by
  rintro (hphase | ⟨p, hp, -⟩)
  · rw [init_waiting h] at hphase
    cases hphase
  · cases hp

theorem sound_init (tenant : TenantId) (reqs : List Request) :
    (init tenant reqs).Sound srv stripe := by
  have hidle : ∀ {i : Nat} {run : Run}, (init tenant reqs).runs[i]? = some run →
      run.phase.holdsLock ≠ true := by
    intro i run h
    rw [init_waiting h]
    nofun
  refine ⟨⟨fun h hlock => ?_, fun h _ _ hlock => ?_⟩, ⟨List.nodup_nil, nofun, fun h hphase => ?_⟩,
    Snapshot.consistent_new, fun h hplan => ?_, nofun⟩
  · exact (hidle h hlock).elim
  · exact (hidle h hlock).elim
  · rw [init_waiting h] at hphase
    cases hphase
  · exact (not_underWay_init h hplan).elim

end System

/-! ### Conflicts -/

/-- One write adds the reference edge the other removes. -/
def Write.clashes : Write → Write → Bool
  | .putRefby ctx subject v id, .deleteRefby ctx' subject' v' id'
  | .deleteRefby ctx subject v id, .putRefby ctx' subject' v' id' =>
      decide (ctx = ctx' ∧ subject = subject' ∧ v = v' ∧ id = id')
  | _, _ => false

/-- Two plans whose publications do not commute: both write the log, or one adds a reference
edge that the other removes. -/
def Plan.conflicts (p q : Plan Unit) : Bool :=
  !p.events.isEmpty && !q.events.isEmpty || p.writes.any fun w => q.writes.any w.clashes

theorem Write.touch_eq_of_not_clashes {w v : Write} (hc : w.clashes v = false) {k : RowKey}
    (hk : k.IsEdge) {x y : RowVal k} (hx : w.touch k = some x) (hy : v.touch k = some y) :
    x = y := by
  cases k with
  | refby ctx subject version id =>
    cases w <;> cases v <;> simp_all [Write.touch, Write.clashes]
  | _ => exact hk.elim

theorem events_of_seq? {st : Store} {op : Op} (hop : op ∈ st.planOps plan)
    {seq : UInt64} (hseq : op.seq? = some seq) : plan.events.isEmpty = false := by
  rcases List.mem_append.mp hop with hop | hop
  · obtain ⟨w, -, hw⟩ := List.mem_filterMap.mp hop
    cases w <;> cases hw <;> cases hseq
  · cases hev : plan.events.isEmpty with
    | false => rfl
    | true => simp [hev] at hop

namespace System

variable {sys sys' : System} {i : Nat} {ser : Registry}

/-- If run `i` publishes now, it overtakes no earlier commit that it conflicts with. -/
def InTurn (sys : System) (i : Nat) : Prop :=
  ∀ p ∈ sys.pending, p.run = i →
    ∀ a ∈ sys.pending.takeWhile (fun a => a.run != i), a.plan.conflicts p.plan = false

instance (sys : System) (i : Nat) : Decidable (sys.InTurn i) :=
  inferInstanceAs (Decidable (∀ p ∈ sys.pending, _))

/-- The writes that are yet to be published, in the order of the commits. -/
def unpublished (sys : System) : List Write := sys.pending.flatMap fun p => p.plan.writes

/-- The container `ser` that publishes every batch at its commit is one publication of
everything pending away. -/
structure Tracks (sys : System) (ser : Registry) : Prop where
  store : ser.store = sys.store
  row : ∀ k, k.indexed → ser.snapshot.row k = sys.snapshot.row.after sys.unpublished k
  logSeq : ser.snapshot.logSeq = writeAll (fun op (_ : Unit) => op.seq?)
    (fun _ => sys.snapshot.logSeq) (sys.pending.flatMap fun p => p.ops) ()

/-- Nothing pending touches the rows of a run that has the lock and has not committed. -/
theorem Sound.untouched (h : sys.Sound srv stripe) {run : Run} (hrun : sys.runs[i]? = some run)
    (hlock : run.phase.holdsLock = true) (hphase : run.phase ≠ .committed) {k : RowKey}
    (hk : run.req.verb.target.Owns k) : ∀ w ∈ sys.unpublished, w.touch k = none := by
  intro w hw
  obtain ⟨p, hp, hw⟩ := List.mem_flatMap.mp hw
  obtain ⟨run', hrun', hplan', hfits⟩ := h.pending_run hp
  have hapart := h.pending_apart hrun hlock hphase hp hrun' hplan'
  refine Write.touch_eq_none fun hkw => ?_
  rcases hfits.owned w hw k hkw with hown | hedge
  · exact not_owns_of_not_excludes hapart hk hown
  · cases k with
    | refby => exact hk
    | _ => exact hedge

/-- So such a run sees its own rows as they are. -/
theorem Tracks.row_owned (ht : sys.Tracks ser) (h : sys.Sound srv stripe) {run : Run}
    (hrun : sys.runs[i]? = some run) (hlock : run.phase.holdsLock = true)
    (hphase : run.phase ≠ .committed) {k : RowKey} (hindexed : k.indexed)
    (hk : run.req.verb.target.Owns k) : ser.snapshot.row k = sys.snapshot.row k :=
  (ht.row k hindexed).trans (writeAll_of_untouched (h.untouched hrun hlock hphase hk))

theorem Tracks.commit (ht : sys.Tracks ser) (plan : Plan Unit) :
    (sys.commit i plan).Tracks (ser.apply plan) := by
  rw [commit_eq]
  refine ⟨?_, fun k hk => ?_, ?_⟩
  · rw [Registry.store_apply, ht.store]
  · rw [Registry.row_snapshot_apply ser plan hk]
    refine (writeAll_congr (ht.row k hk)).trans ?_
    simp [unpublished, Rows.after, writeAll_append, setPhase]
  · have hsnap : (ser.apply plan).snapshot = ser.snapshot.applyAll (sys.store.planOps plan) := by
      rw [Registry.apply, Store.commit_planTx, ht.store]
    rw [hsnap, Snapshot.logSeq_applyAll, ht.logSeq]
    simp only [List.flatMap_append, List.flatMap_singleton, writeAll_append]
    rfl

/-- Two batches that wait and do not conflict agree on every row that both touch. -/
theorem Sound.agree (h : sys.Sound srv stripe) {a p : Pending} (ha : a ∈ sys.pending)
    (hp : p ∈ sys.pending) (hne : a.run ≠ p.run) (hc : a.plan.conflicts p.plan = false)
    {w v : Write} (hw : w ∈ a.plan.writes) (hv : v ∈ p.plan.writes) {k : RowKey} {x y : RowVal k}
    (hx : w.touch k = some x) (hy : v.touch k = some y) : x = y := by
  have hkw : k ∈ w.keys := by
    by_contra hk
    rw [Write.touch_eq_none hk] at hx
    cases hx
  have hkv : k ∈ v.keys := by
    by_contra hk
    rw [Write.touch_eq_none hk] at hy
    cases hy
  have hclash : w.clashes v = false := by
    simp only [Plan.conflicts, Bool.or_eq_false_iff, List.any_eq_false, Bool.not_eq_true] at hc
    exact hc.2 w hw v hv
  obtain ⟨runa, hruna, hplana, hfitsa⟩ := h.pending_run ha
  obtain ⟨runp, hrunp, hplanp, hfitsp⟩ := h.pending_run hp
  rcases hfitsa.owned w hw k hkw with howna | hedge
  · rcases hfitsp.owned v hv k hkv with hownp | hedge
    · exact (not_owns_of_not_excludes (h.apart hruna hplana hrunp hplanp hne) howna hownp).elim
    · exact Write.touch_eq_of_not_clashes hclash hedge hx hy
  · exact Write.touch_eq_of_not_clashes hclash hedge hx hy

/-- Operations of two batches that do not conflict do not both set the sequence number. -/
theorem Sound.agree_seq (h : sys.Sound srv stripe) {a p : Pending} (ha : a ∈ sys.pending)
    (hp : p ∈ sys.pending) (hc : a.plan.conflicts p.plan = false) {op op' : Op} (hop : op ∈ a.ops)
    (hop' : op' ∈ p.ops) {x y : UInt64} (hx : op.seq? = some x) (hy : op'.seq? = some y) :
    x = y := by
  obtain ⟨st, hst⟩ := h.ops a ha
  obtain ⟨st', hst'⟩ := h.ops p hp
  simp [Plan.conflicts, events_of_seq? (hst ▸ hop) hx, events_of_seq? (hst' ▸ hop') hy] at hc

theorem Tracks.publish (ht : sys.Tracks ser) (h : sys.Sound srv stripe) (hturn : sys.InTurn i)
    {p : Pending} (hp : sys.pending.find? (fun p => p.run == i) = some p) :
    (sys.publish i p).Tracks ser := by
  obtain ⟨hi, earlier, later, hsplit, htake, hfilter⟩ := h.queued.split hp
  have hmem : p ∈ sys.pending := List.mem_of_find?_eq_some hp
  have hearlier : ∀ a ∈ earlier, a ∈ sys.pending ∧ a.run ≠ p.run ∧
      a.plan.conflicts p.plan = false := by
    intro a ha
    rw [← htake] at ha
    refine ⟨List.takeWhile_subset _ ha, ?_, hturn p hmem hi a ha⟩
    simpa [hi] using List.mem_takeWhile_imp ha
  obtain ⟨st, hops⟩ := h.ops p hmem
  refine ⟨ht.store, fun k hk => ?_, ?_⟩
  · rw [ht.row k hk, unpublished, unpublished]
    change _ = Rows.after (sys.snapshot.applyAll p.ops).row
      ((sys.pending.filter fun p => p.run != i).flatMap fun p => p.plan.writes) k
    rw [hfilter, hsplit, List.flatMap_append, List.flatMap_append, List.flatMap_cons, Rows.after,
      writeAll_front]
    · refine writeAll_congr ?_
      rw [hops, Snapshot.row_applyAll_planOps _ _ _ hk]
      rfl
    · intro w hw v hv x y hx hy
      obtain ⟨a, ha, hw⟩ := List.mem_flatMap.mp hw
      obtain ⟨ha, hne, hc⟩ := hearlier a ha
      exact h.agree ha hmem hne hc hw hv hx hy
  · rw [ht.logSeq]
    change _ = writeAll _ (fun _ => (sys.snapshot.applyAll p.ops).logSeq)
      ((sys.pending.filter fun p => p.run != i).flatMap fun p => p.ops) ()
    rw [hfilter, hsplit, List.flatMap_append, List.flatMap_append, List.flatMap_cons,
      writeAll_front]
    · exact writeAll_congr (sys.snapshot.logSeq_applyAll p.ops).symm
    · intro op hop op' hop' x y hx hy
      obtain ⟨a, ha, hop⟩ := List.mem_flatMap.mp hop
      obtain ⟨ha, -, hc⟩ := hearlier a ha
      exact h.agree_seq ha hmem hc hop hop' hx hy

/-- Only a commit changes the container that publishes at once. -/
theorem Tracks.step (ht : sys.Tracks ser) (h : sys.Sound srv stripe) (hturn : sys.InTurn i)
    (hs : Steps srv stripe sys i sys') :
    sys'.Tracks ser ∨ ∃ run plan, sys.runs[i]? = some run ∧ run.phase = .planned plan ∧
      sys' = sys.commit i plan ∧ sys'.Tracks (ser.apply plan) := by
  cases hs with
  | idle => exact .inl ht
  | refuse | lock | plan => exact .inl ⟨ht.store, ht.row, ht.logSeq⟩
  | commit run hrun plan hphase => exact .inr ⟨run, plan, hrun, hphase, rfl, ht.commit plan⟩
  | publish run hrun hphase p hp => exact .inl (ht.publish h hturn hp)

/-- A plan that is about to be committed knows the ids of the versions it deletes also in the
container that publishes at once. -/
theorem Tracks.hints (ht : sys.Tracks ser) (h : sys.Sound srv stripe) {run : Run}
    (hrun : sys.runs[i]? = some run) (hphase : run.phase = .planned plan) :
    Along Snapshot.applyWrite Snapshot.HintOk ser.snapshot plan.writes := by
  have hplan : sys.UnderWay i run plan := .inl hphase
  have hfits := h.fits hrun hplan
  refine Snapshot.along_hintOk_congr (fun w hw ctx subject v hk => ?_) hfits.hints
  rcases hfits.owned w hw _ hk with hown | hedge
  · have hindexed : (RowKey.version ctx subject v).indexed := trivial
    refine (ht.row_owned h hrun (h.queued.holdsLock hrun hplan) ?_ hindexed hown).symm
    rw [hphase]
    nofun
  · exact hedge.elim

theorem tracks_init (tenant : TenantId) (reqs : List Request) :
    (init tenant reqs).Tracks (Registry.empty tenant) :=
  ⟨rfl, fun _ _ => rfl, rfl⟩

/-- A system that has published all there is agrees with its store when the container that
publishes at once does. -/
theorem Tracks.agrees (ht : sys.Tracks ser) (h : ser.Agrees) (hsnap : sys.snapshot.Consistent)
    (hnone : sys.pending = []) : sys.registry.Agrees := by
  have hstore : sys.registry.store = ser.store := ht.store.symm
  have hrow : ∀ k, k.indexed → sys.snapshot.row k = ser.snapshot.row k := by
    intro k hk
    rw [ht.row k hk, unpublished, hnone]
    rfl
  have hseq : sys.snapshot.logSeq = ser.snapshot.logSeq := by
    rw [ht.logSeq, hnone]
    rfl
  refine ⟨?_, hsnap, fun k hk hnul => ?_, fun k hk hnul => ?_, ?_⟩
  · rw [hstore]
    exact h.wellKeyed
  · rw [hstore]
    exact (hrow k hk).trans (h.row k hk hnul)
  · exact (hrow k hk).trans (h.row_nul k hk hnul)
  · rw [hstore]
    exact hseq.trans h.logSeq

theorem Queued.pending_eq_nil (h : sys.Queued) (hfin : sys.Finished) : sys.pending = [] := by
  refine List.eq_nil_iff_forall_not_mem.mpr fun p hp => ?_
  obtain ⟨run, hrun, hphase⟩ := h.run p hp
  rcases hfin run (List.mem_of_getElem? hrun) with hdone | hrefused
  · cases hphase.symm.trans hdone
  · cases hphase.symm.trans hrefused

/-! ### Names -/

/-- The names a plan writes are without NUL. -/
structure CleanPlan (plan : Plan Unit) : Prop where
  writes : ∀ w ∈ plan.writes, w.NulFree
  bodies : ∀ ctx id rec index, .putSchema ctx id rec index ∈ plan.writes →
    ∀ sr ∈ rec.references, (refTarget ctx sr).NulFree

/-- All names are without NUL: those in requests, in the container and in plans under way. -/
structure Clean (sys : System) : Prop where
  reqs : ∀ req ∈ sys.reqs, req.verb.NulFree
  registry : sys.registry.CleanNames
  plans : ∀ {i : Nat} {run : Run} {plan : Plan Unit}, sys.runs[i]? = some run →
    sys.UnderWay i run plan → CleanPlan plan

theorem Clean.step (h : sys.Clean) (hsound : sys.Sound srv stripe)
    (hs : Steps srv stripe sys i sys') : sys'.Clean := by
  have hreqs : ∀ req ∈ sys'.reqs, req.verb.NulFree := reqs_step hs ▸ h.reqs
  have hplans : ∀ {j : Nat} {run' : Run} {plan : Plan Unit}, sys'.runs[j]? = some run' →
      sys'.UnderWay j run' plan → CleanPlan plan := by
    intro j run' plan hj hplan
    obtain ⟨run, hrun, hreq, hold | ⟨-, hmade⟩⟩ := underWay_of_step hs hj hplan
    · exact h.plans hrun hold
    · have heff := effect_of_gatedPlan hmade.made
      have hv := h.reqs run.req (List.mem_of_getElem? (getElem?_reqs hrun))
      exact ⟨h.registry.writes hv heff, fun ctx id rec index hput => h.registry.putSchema heff hput⟩
  refine ⟨hreqs, ?_, hplans⟩
  cases hs with
  | idle | refuse | lock | plan => exact h.registry
  | commit run hrun plan hphase =>
    rw [commit_eq]
    refine ⟨h.registry.versions, fun {ctx id rec} hrec => ?_⟩
    have hrow : sys.store.row.after plan.writes (.body ctx id) = some rec :=
      (Store.row_afterPlan sys.store (k := .body ctx id) fun hk => hk.elim).symm.trans hrec
    rcases body_after hrow with hold | ⟨index, hput⟩
    · exact h.registry.bodies hold
    · exact (h.plans hrun (.inl hphase)).bodies ctx id rec index hput
  | publish run hrun hphase p hp =>
    have hmem := List.mem_of_find?_eq_some hp
    obtain ⟨runp, hrunp, hplanp, -⟩ := hsound.pending_run hmem
    obtain ⟨st, hsnap⟩ := hsound.snapshot_publish (i := i) hmem
    refine ⟨fun {q v vr} hvr => ?_, h.registry.bodies⟩
    -- a version that is new in the snapshot was put by the plan
    have hrow : sys.snapshot.row.after p.plan.writes (.version q.context q.subject v)
        = some vr := by
      rw [← sys.snapshot.row_applyAll_planOps st p.plan (k := .version q.context q.subject v)
        trivial, ← hsnap]
      exact hvr
    rcases writeAll_cases Write.touch sys.snapshot.row p.plan.writes
      (.version q.context q.subject v) with ⟨hsame, -⟩ | ⟨w, hw, htouch⟩
    · exact h.registry.versions (hsame.symm.trans hrow)
    · refine Write.nulFree_of_mem_keys ((h.plans hrunp hplanp).writes w hw)
        (k := .version q.context q.subject v) ?_
      by_contra hk
      rw [Write.touch_eq_none hk] at htouch
      cases htouch

theorem clean_init {tenant : TenantId} {reqs : List Request}
    (hnames : ∀ req ∈ reqs, req.verb.NulFree) : (init tenant reqs).Clean := by
  have hempty : (init tenant reqs).registry.rows = Rows.empty := Registry.rows_empty tenant
  refine ⟨?_, ⟨fun h => ?_, fun h => ?_⟩, fun h hplan => (not_underWay_init h hplan).elim⟩
  · simpa [System.reqs, init] using hnames
  · rw [hempty] at h
    cases h
  · rw [hempty] at h
    cases h

/-- What holds in every interleaving in which conflicting batches are published in turn. -/
structure Publishes (srv : Server) (stripe : String → Fin 64) (sys : System) : Prop where
  sound : sys.Sound srv stripe
  clean : sys.Clean
  tracks : ∃ ser : Registry, sys.Tracks ser ∧ ser.Agrees

theorem Publishes.step (h : sys.Publishes srv stripe) (hturn : sys.InTurn i) :
    (sys.step srv stripe i).Publishes srv stripe := by
  have hs := steps_step srv stripe sys i
  obtain ⟨ser, ht, hagrees⟩ := h.tracks
  refine ⟨h.sound.step hs, h.clean.step h.sound hs, ?_⟩
  rcases ht.step h.sound hturn hs with ht' | ⟨run, plan, hrun, hphase, -, ht'⟩
  · exact ⟨ser, ht', hagrees⟩
  · have hnul := (h.clean.plans hrun (.inl hphase)).writes
    exact ⟨ser.apply plan, ht', hagrees.apply hnul (ht.hints h.sound hrun hphase)⟩

end System

/-! ### Runs that overtake each other -/

/-- The stripes that the hash of a context gives for the contexts used below. -/
def plainStripe (ctx : String) : Fin 64 :=
  if ctx = ".c" then 49 else 32

/-- Two writers, on the default context and on another one. -/
def twoWriters : List Request := [registerText "s" "\"string\"", registerText ":.c:t" "\"int\""]

theorem nulFree_twoWriters : ∀ req ∈ twoWriters, req.verb.NulFree := by
  intro req hreq name hname
  simp only [twoWriters, List.mem_cons, List.not_mem_nil, or_false] at hreq
  rcases hreq with rfl | rfl <;> cases hname <;> decide

/-- The second writer commits after the first and publishes before it. -/
def overtaking : List Nat := [0, 0, 0, 1, 1, 1, 1, 0]

/-- The snapshot then ends with the sequence number of the first commit. -/
theorem staleLogSeq_of_overtaking :
    (∀ req ∈ twoWriters, req.verb.NulFree) ∧
    let sys := (System.init .default twoWriters).runSchedule plainServer plainStripe overtaking
    sys.Finished ∧
      ¬ ∃ snap, sys.store.loadSnapshot = some snap ∧ sys.snapshot.SameAnswers snap := by
  refine ⟨nulFree_twoWriters, by decide, ?_⟩
  rintro ⟨snap, hload, hsame⟩
  have hstore : (((System.init .default twoWriters).runSchedule plainServer plainStripe
      overtaking).store.loadSnapshot.map (·.logSeq)) = some 2 := by decide
  have hsnap : ((System.init .default twoWriters).runSchedule plainServer plainStripe
      overtaking).snapshot.logSeq = 1 := by decide
  rw [hload, Option.map_some, ← hsame.logSeq, hsnap] at hstore
  cases hstore

/-- Concurrent publication: if names are without NUL and no run publishes before an earlier
commit that it conflicts with, then once every run has finished, the published snapshot
answers every query as the one rebuilt from the store does. -/
theorem sameAnswers_of_inTurn (srv : Server) (stripe : String → Fin 64) (tenant : TenantId)
    (reqs : List Request) (schedule : List Nat) (hnames : ∀ req ∈ reqs, req.verb.NulFree)
    (hturn : Along (System.step srv stripe) System.InTurn (System.init tenant reqs) schedule) :
    let sys := (System.init tenant reqs).runSchedule srv stripe schedule
    sys.Finished → ∃ snap, sys.store.loadSnapshot = some snap ∧ sys.snapshot.SameAnswers snap := by
  intro sys hfin
  have h0 : (System.init tenant reqs).Publishes srv stripe :=
    ⟨System.sound_init tenant reqs, System.clean_init hnames, Registry.empty tenant,
      System.tracks_init tenant reqs, Registry.agrees_empty tenant⟩
  have h : sys.Publishes srv stripe := inv_of_along hturn h0 fun _ _ h hturn => h.step hturn
  obtain ⟨ser, ht, hagrees⟩ := h.tracks
  have hnone := h.sound.queued.pending_eq_nil hfin
  exact (ht.agrees hagrees h.sound.consistent hnone).sameAnswers

/-- The two writers at the same time, publishing in the order of their commits. -/
theorem sameAnswers_twoWriters :
    let sys := (System.init .default twoWriters).runSchedule plainServer plainStripe
      [0, 0, 1, 1, 0, 1, 0, 1]
    sys.Finished ∧ ∃ snap, sys.store.loadSnapshot = some snap ∧ sys.snapshot.SameAnswers snap := by
  have hfin : ((System.init .default twoWriters).runSchedule plainServer plainStripe
      [0, 0, 1, 1, 0, 1, 0, 1]).Finished := by decide
  refine ⟨hfin, sameAnswers_of_inTurn plainServer plainStripe .default twoWriters _
    nulFree_twoWriters ?_ hfin⟩
  decide

end SchemaRegistry

import SchemaRegistry.Footprint
import SchemaRegistry.Concurrent

/-!
What holds in every interleaving of runs. Runs that hold locks at the same time own
disjoint rows, reference edges apart, so what is yet to be published can be published
in another order than it was committed in: the snapshot that gets every batch at its
commit stays one publication away.
-/

namespace SchemaRegistry

open Lib

variable {srv : Server} {stripe : String → Fin 64}

/-! ### Locks keep writers apart -/

theorem excludes_comm (t t' : Target) : t.excludes stripe t' = t'.excludes stripe t := by
  cases t <;> cases t' <;> simp [Target.excludes, Target.lockContext?, Bool.beq_comm]

/-- Targets that do not exclude each other own no row in common. -/
theorem not_owns_of_not_excludes {t t' : Target} (h : t.excludes stripe t' = false) {k : RowKey}
    (hk : t.Owns k) : ¬ t'.Owns k := by
  have hcovers : ∀ ctx, t.Covers ctx → ¬ t'.Covers ctx := by
    intro ctx hctx hctx'
    cases t <;> cases t' <;>
      simp_all [Target.excludes, Target.Covers, Target.lockContext?]
  have hscope : ∀ scope, t.OwnsScope scope → ¬ t'.OwnsScope scope := by
    intro scope hs hs'
    cases scope with
    | global =>
      obtain rfl : t = .global := hs
      obtain rfl : t' = .global := hs'
      simp [Target.excludes] at h
    | context ctx => exact hcovers ctx hs hs'
    | subject ctx subject => exact hcovers ctx hs hs'
  intro hk'
  cases k with
  | version ctx | body ctx | fingerprint ctx | nextId ctx | known ctx => exact hcovers ctx hk hk'
  | refby => exact hk
  | config scope => exact hscope scope hk hk'
  | mode scope => exact hscope scope hk hk'
  | exporter name =>
    obtain rfl : t = .exporters := hk
    obtain rfl : t' = .exporters := hk'
    simp [Target.excludes] at h

theorem target_of_target? {verb : Verb} {t : Target} (h : verb.target? srv = some t) :
    t = verb.target := by
  unfold Verb.target? at h
  split at h
  · next m hm =>
      cases h
      exact mutation_target hm
  · cases h

/-! ### Steps -/

namespace System

variable {sys sys' : System} {i : Nat}

/-- What a step of a run does. -/
inductive Steps (srv : Server) (stripe : String → Fin 64) (sys : System) (i : Nat) :
    System → Prop
  | idle : Steps srv stripe sys i sys
  | refuse (run : Run) (hrun : sys.runs[i]? = some run)
      (hphase : run.phase = .waiting ∨ run.phase = .locked) :
      Steps srv stripe sys i (sys.setPhase i .refused)
  | lock (run : Run) (hrun : sys.runs[i]? = some run) (hphase : run.phase = .waiting)
      (htarget : run.req.verb.target? srv = some run.req.verb.target)
      (hfree : sys.free srv stripe run.req.verb.target = true) :
      Steps srv stripe sys i (sys.setPhase i .locked)
  | plan (run : Run) (hrun : sys.runs[i]? = some run) (hphase : run.phase = .locked)
      (plan : Plan Unit)
      (hplan : run.req.verb.gatedPlan srv (sys.registry.view run.req.now run.req.newGuid)
        = .ok plan) :
      Steps srv stripe sys i (sys.setPhase i (.planned plan))
  | commit (run : Run) (hrun : sys.runs[i]? = some run) (plan : Plan Unit)
      (hphase : run.phase = .planned plan) : Steps srv stripe sys i (sys.commit i plan)
  | publish (run : Run) (hrun : sys.runs[i]? = some run) (hphase : run.phase = .committed)
      (p : Pending) (hp : sys.pending.find? (fun p => p.run == i) = some p) :
      Steps srv stripe sys i (sys.publish i p)

theorem steps_step (srv : Server) (stripe : String → Fin 64) (sys : System) (i : Nat) :
    Steps srv stripe sys i (sys.step srv stripe i) := by
  unfold step
  split
  · exact .idle
  · next run hrun =>
      split
      · next hphase =>
          split
          · exact .refuse run hrun (.inl hphase)
          · next t ht =>
              obtain rfl := target_of_target? ht
              split
              · next hfree => exact .lock run hrun hphase ht hfree
              · exact .idle
      · next hphase =>
          split
          · exact .refuse run hrun (.inr hphase)
          · next plan hplan => exact .plan run hrun hphase plan hplan
      · next plan hphase => exact .commit run hrun plan hphase
      · next hphase =>
          split
          · exact .idle
          · next p hp => exact .publish run hrun hphase p hp
      · exact .idle
      · exact .idle

/-- The runs after one of them moved to another phase. -/
theorem getElem?_setPhase (sys : System) (i j : Nat) (phase : Phase) :
    (sys.setPhase i phase).runs[j]? =
      if i = j then sys.runs[j]?.map fun run => { run with phase } else sys.runs[j]? := by
  simp only [setPhase, List.getElem?_modify]
  split <;> simp

/-- A run that moved was there, and the others are as they were. -/
theorem run_of_setPhase {j : Nat} {phase : Phase} {run run' : Run} (hrun : sys.runs[i]? = some run)
    (hj : (sys.setPhase i phase).runs[j]? = some run') :
    i = j ∧ run' = { run with phase } ∨ i ≠ j ∧ sys.runs[j]? = some run' := by
  rw [getElem?_setPhase] at hj
  by_cases hij : i = j
  · subst hij
    rw [if_pos rfl, hrun] at hj
    cases hj
    exact .inl ⟨rfl, rfl⟩
  · rw [if_neg hij] at hj
    exact .inr ⟨hij, hj⟩

/-- Runs that hold locks do not exclude each other. -/
structure Exclusive (srv : Server) (stripe : String → Fin 64) (sys : System) : Prop where
  target : ∀ {i : Nat} {run : Run}, sys.runs[i]? = some run → run.phase.holdsLock = true →
    run.req.verb.target? srv = some run.req.verb.target
  apart : ∀ {i j : Nat} {run run' : Run}, sys.runs[i]? = some run →
    sys.runs[j]? = some run' → i ≠ j →
    run.phase.holdsLock = true → run'.phase.holdsLock = true →
    run.req.verb.target.excludes stripe run'.req.verb.target = false

/-- A run that moves without taking a lock keeps locks exclusive. -/
theorem Exclusive.setPhase (h : sys.Exclusive srv stripe) {run : Run} {phase : Phase}
    (hrun : sys.runs[i]? = some run)
    (hphase : phase.holdsLock = true → run.phase.holdsLock = true) :
    (sys.setPhase i phase).Exclusive srv stripe := by
  have hheld : ∀ {j : Nat} {run' : Run}, (sys.setPhase i phase).runs[j]? = some run' →
      run'.phase.holdsLock = true → ∃ old, sys.runs[j]? = some old ∧ old.req = run'.req ∧
        old.phase.holdsLock = true := by
    intro j run' hj hhold
    rcases run_of_setPhase hrun hj with ⟨rfl, rfl⟩ | ⟨-, hj⟩
    · exact ⟨run, hrun, rfl, hphase hhold⟩
    · exact ⟨run', hj, rfl, hhold⟩
  constructor
  · intro j run' hj hhold
    obtain ⟨old, hold, hreq, hheld⟩ := hheld hj hhold
    rw [← hreq]
    exact h.target hold hheld
  · intro j k run₁ run₂ hj hk hjk hhold₁ hhold₂
    obtain ⟨old₁, hold₁, hreq₁, hheld₁⟩ := hheld hj hhold₁
    obtain ⟨old₂, hold₂, hreq₂, hheld₂⟩ := hheld hk hhold₂
    rw [← hreq₁, ← hreq₂]
    exact h.apart hold₁ hold₂ hjk hheld₁ hheld₂

/-- A free lock may be taken. -/
theorem Exclusive.lock (h : sys.Exclusive srv stripe) {run : Run} (hrun : sys.runs[i]? = some run)
    (htarget : run.req.verb.target? srv = some run.req.verb.target)
    (hfree : sys.free srv stripe run.req.verb.target = true) :
    (sys.setPhase i .locked).Exclusive srv stripe := by
  have hothers : ∀ {j : Nat} {run' : Run}, sys.runs[j]? = some run' → run'.phase.holdsLock = true →
      run'.req.verb.target.excludes stripe run.req.verb.target = false := by
    intro j run' hj hhold
    have hall := List.all_eq_true.mp hfree run' (List.mem_of_getElem? hj)
    simpa [hhold, h.target hj hhold] using hall
  constructor
  · intro j run' hj hhold
    rcases run_of_setPhase hrun hj with ⟨rfl, rfl⟩ | ⟨-, hj⟩
    · exact htarget
    · exact h.target hj hhold
  · intro j k run₁ run₂ hj hk hjk hhold₁ hhold₂
    rcases run_of_setPhase hrun hj with ⟨rfl, rfl⟩ | ⟨-, hj⟩
    · rcases run_of_setPhase hrun hk with ⟨rfl, rfl⟩ | ⟨-, hk⟩
      · exact (hjk rfl).elim
      · rw [excludes_comm]
        exact hothers hk hhold₂
    · rcases run_of_setPhase hrun hk with ⟨rfl, rfl⟩ | ⟨-, hk⟩
      · exact hothers hj hhold₁
      · exact h.apart hj hk hjk hhold₁ hhold₂

theorem Exclusive.step (h : sys.Exclusive srv stripe) (hs : Steps srv stripe sys i sys') :
    sys'.Exclusive srv stripe := by
  cases hs with
  | idle => exact h
  | refuse run hrun hphase => exact h.setPhase hrun nofun
  | lock run hrun hphase htarget hfree => exact h.lock hrun htarget hfree
  | plan run hrun hphase plan hplan => exact h.setPhase hrun fun _ => by rw [hphase]; rfl
  | commit run hrun plan hphase =>
    have hmoved : (sys.setPhase i .committed).Exclusive srv stripe :=
      h.setPhase hrun fun _ => by rw [hphase]; rfl
    exact ⟨hmoved.target, hmoved.apart⟩
  | publish run hrun hphase p hp =>
    have hmoved : (sys.setPhase i .done).Exclusive srv stripe := h.setPhase hrun nofun
    exact ⟨hmoved.target, hmoved.apart⟩

/-- The batches yet to be published are those of the committed runs, one each. -/
structure Queued (sys : System) : Prop where
  nodup : (sys.pending.map (·.run)).Nodup
  run : ∀ p ∈ sys.pending, ∃ run : Run, sys.runs[p.run]? = some run ∧ run.phase = .committed
  batch : ∀ {i : Nat} {run : Run}, sys.runs[i]? = some run → run.phase = .committed →
    ∃ p ∈ sys.pending, p.run = i

theorem Queued.setPhase (h : sys.Queued) {run : Run} {phase : Phase}
    (hrun : sys.runs[i]? = some run) (hold : run.phase ≠ .committed) (hnew : phase ≠ .committed) :
    (sys.setPhase i phase).Queued := by
  refine ⟨h.nodup, fun p hp => ?_, fun {j run'} hj hphase => ?_⟩
  · obtain ⟨run', hrun', hphase⟩ := h.run p hp
    refine ⟨run', ?_, hphase⟩
    rw [getElem?_setPhase, if_neg]
    · exact hrun'
    · rintro rfl
      rw [hrun, Option.some.injEq] at hrun'
      exact hold (hrun' ▸ hphase)
  · rcases run_of_setPhase hrun hj with ⟨rfl, rfl⟩ | ⟨-, hj⟩
    · exact (hnew hphase).elim
    · exact h.batch hj hphase

/-- The batch a run is about to publish, among those committed before and after it. -/
theorem Queued.split (h : sys.Queued) {p : Pending}
    (hp : sys.pending.find? (fun p => p.run == i) = some p) :
    p.run = i ∧ ∃ earlier later, sys.pending = earlier ++ p :: later ∧
      sys.pending.takeWhile (fun p => p.run != i) = earlier ∧
      sys.pending.filter (fun p => p.run != i) = earlier ++ later := by
  obtain ⟨hi, earlier, later, hsplit, hearlier⟩ := List.find?_eq_some_iff_append.mp hp
  have hi : p.run = i := by simpa using hi
  have hne : ∀ a ∈ earlier, (a.run != i) = true := fun a ha => by simpa using hearlier a ha
  have hlater : ∀ a ∈ later, (a.run != i) = true := by
    intro a ha
    have hnodup := h.nodup
    rw [hsplit, List.map_append, List.map_cons, List.nodup_append] at hnodup
    have hnot := (List.nodup_cons.mp hnodup.2.1).1
    have hai : a.run ≠ i := fun hai => hnot (List.mem_map.mpr ⟨a, ha, hai.trans hi.symm⟩)
    simpa using hai
  have hself : (p.run != i) = false := by simp [hi]
  refine ⟨hi, earlier, later, hsplit, ?_, ?_⟩
  · rw [hsplit, List.takeWhile_append_of_pos hne, List.takeWhile_cons, hself]
    simp
  · rw [hsplit, List.filter_append, List.filter_cons, hself, List.filter_eq_self.mpr hne,
      List.filter_eq_self.mpr hlater]
    simp

theorem Queued.commit (h : sys.Queued) {run : Run} {plan : Plan Unit}
    (hrun : sys.runs[i]? = some run) (hphase : run.phase = .planned plan) :
    (sys.commit i plan).Queued := by
  have hfresh : ∀ p ∈ sys.pending, p.run ≠ i := by
    rintro p hp rfl
    obtain ⟨run', hrun', hphase'⟩ := h.run p hp
    rw [hrun, Option.some.injEq] at hrun'
    rw [← hrun', hphase] at hphase'
    cases hphase'
  refine ⟨?_, fun p hp => ?_, fun {j run'} hj hphase' => ?_⟩
  · change ((sys.pending ++ [_]).map Pending.run).Nodup
    rw [List.map_append, List.nodup_append]
    refine ⟨h.nodup, by simp, ?_⟩
    simp only [List.mem_map, List.map_cons, List.map_nil, List.mem_singleton, forall_exists_index,
      and_imp, forall_apply_eq_imp_iff₂, forall_eq]
    exact hfresh
  · rcases List.mem_append.mp hp with hp | hp
    · obtain ⟨run', hrun', hphase'⟩ := h.run p hp
      refine ⟨run', ?_, hphase'⟩
      change (sys.setPhase i .committed).runs[p.run]? = some run'
      rw [getElem?_setPhase, if_neg (hfresh p hp).symm]
      exact hrun'
    · obtain rfl := List.mem_singleton.mp hp
      refine ⟨{ run with phase := .committed }, ?_, rfl⟩
      change (sys.setPhase i .committed).runs[i]? = _
      rw [getElem?_setPhase, if_pos rfl, hrun]
      rfl
  · rcases run_of_setPhase hrun hj with ⟨rfl, rfl⟩ | ⟨-, hj⟩
    · exact ⟨_, List.mem_append_right _ (List.mem_singleton_self _), rfl⟩
    · obtain ⟨p, hp, hpj⟩ := h.batch hj hphase'
      exact ⟨p, List.mem_append_left _ hp, hpj⟩

theorem Queued.publish (h : sys.Queued) {run : Run} {p : Pending}
    (hrun : sys.runs[i]? = some run) : (sys.publish i p).Queued := by
  refine ⟨?_, fun p' hp' => ?_, fun {j run'} hj hphase => ?_⟩
  · exact h.nodup.sublist (List.filter_sublist.map _)
  · obtain ⟨hp', hne⟩ := List.mem_filter.mp hp'
    obtain ⟨run', hrun', hphase⟩ := h.run p' hp'
    refine ⟨run', ?_, hphase⟩
    change (sys.setPhase i .done).runs[p'.run]? = some run'
    rw [getElem?_setPhase, if_neg]
    · exact hrun'
    · rintro rfl
      simp at hne
  · rcases run_of_setPhase hrun hj with ⟨rfl, rfl⟩ | ⟨hij, hj⟩
    · cases hphase
    · obtain ⟨p', hp', rfl⟩ := h.batch hj hphase
      exact ⟨p', List.mem_filter.mpr ⟨hp', by simpa using hij.symm⟩, rfl⟩

theorem Queued.step (h : sys.Queued) (hs : Steps srv stripe sys i sys') : sys'.Queued := by
  cases hs with
  | idle => exact h
  | refuse run hrun hphase =>
    refine h.setPhase hrun ?_ nofun
    rcases hphase with hphase | hphase <;> rw [hphase] <;> nofun
  | lock run hrun hphase =>
    refine h.setPhase hrun ?_ nofun
    rw [hphase]
    nofun
  | plan run hrun hphase plan hplan =>
    refine h.setPhase hrun ?_ nofun
    rw [hphase]
    nofun
  | commit run hrun plan hphase => exact h.commit hrun hphase
  | publish run hrun hphase p hp => exact h.publish hrun

/-! ### Plans under way -/

theorem commit_eq (sys : System) (i : Nat) (plan : Plan Unit) :
    sys.commit i plan = { sys.setPhase i .committed with
      store := sys.store.afterPlan plan
      pending := sys.pending ++ [⟨i, plan, sys.store.planOps plan⟩] } := by
  rw [commit, Store.commit_planTx]

/-- A run has made a plan that it has not published yet. -/
def UnderWay (sys : System) (i : Nat) (run : Run) (plan : Plan Unit) : Prop :=
  run.phase = .planned plan ∨ ∃ p ∈ sys.pending, p.run = i ∧ p.plan = plan

theorem Queued.holdsLock (h : sys.Queued) {run : Run} {plan : Plan Unit}
    (hrun : sys.runs[i]? = some run) (hplan : sys.UnderWay i run plan) :
    run.phase.holdsLock = true := by
  rcases hplan with hphase | ⟨p, hp, rfl, -⟩
  · rw [hphase]
    rfl
  · obtain ⟨run', hrun', hphase⟩ := h.run p hp
    rw [hrun, Option.some.injEq] at hrun'
    rw [hrun', hphase]
    rfl

/-- A plan made by this step. -/
structure Makes (srv : Server) (sys : System) (i : Nat) (run : Run) (plan : Plan Unit)
    (sys' : System) : Prop where
  phase : run.phase = .locked
  made : run.req.verb.gatedPlan srv (sys.registry.view run.req.now run.req.newGuid) = .ok plan
  next : sys' = sys.setPhase i (.planned plan)

/-- A run that moved without planning has no other plan under way than before. -/
theorem underWay_of_setPhase {j : Nat} {run run' : Run} {plan : Plan Unit} {phase : Phase}
    (hrun : sys.runs[i]? = some run) (hphase : ∀ plan, phase = .planned plan → False)
    (hj : (sys.setPhase i phase).runs[j]? = some run') (hplan : sys.UnderWay j run' plan) :
    ∃ run, sys.runs[j]? = some run ∧ run.req = run'.req ∧ sys.UnderWay j run plan := by
  rcases run_of_setPhase hrun hj with ⟨rfl, rfl⟩ | ⟨-, hj⟩
  · rcases hplan with hplan | hpending
    · exact (hphase _ hplan).elim
    · exact ⟨run, hrun, rfl, .inr hpending⟩
  · exact ⟨run', hj, rfl, hplan⟩

/-- A plan that is under way after a step was under way before or was made by the step. -/
theorem underWay_of_step (hs : Steps srv stripe sys i sys') {j : Nat} {run' : Run}
    {plan : Plan Unit} (hj : sys'.runs[j]? = some run') (hplan : sys'.UnderWay j run' plan) :
    ∃ run, sys.runs[j]? = some run ∧ run.req = run'.req ∧
      (sys.UnderWay j run plan ∨ j = i ∧ Makes srv sys i run plan sys') := by
  suffices hold : (∃ run, sys.runs[j]? = some run ∧ run.req = run'.req ∧
      sys.UnderWay j run plan) ∨ ∃ run, sys.runs[j]? = some run ∧ run.req = run'.req ∧
      j = i ∧ Makes srv sys i run plan sys' by
    rcases hold with ⟨run, hrun, hreq, h⟩ | ⟨run, hrun, hreq, h⟩
    · exact ⟨run, hrun, hreq, .inl h⟩
    · exact ⟨run, hrun, hreq, .inr h⟩
  cases hs with
  | idle => exact .inl ⟨run', hj, rfl, hplan⟩
  | refuse run hrun => exact .inl (underWay_of_setPhase hrun (by nofun) hj hplan)
  | lock run hrun => exact .inl (underWay_of_setPhase hrun (by nofun) hj hplan)
  | plan run hrun hphase plan' hmade =>
    rcases run_of_setPhase hrun hj with ⟨rfl, rfl⟩ | ⟨-, hj⟩
    · rcases hplan with hplan | hpending
      · cases hplan
        exact .inr ⟨run, hrun, rfl, rfl, hphase, hmade, rfl⟩
      · exact .inl ⟨run, hrun, rfl, .inr hpending⟩
    · exact .inl ⟨run', hj, rfl, hplan⟩
  | commit run hrun plan' hphase =>
    rw [commit_eq] at hj hplan
    rcases hplan with hplan | ⟨p, hp, rfl, rfl⟩
    · exact .inl (underWay_of_setPhase hrun (by nofun) hj (.inl hplan))
    · rcases List.mem_append.mp hp with hp | hp
      · exact .inl (underWay_of_setPhase hrun (by nofun) hj (.inr ⟨p, hp, rfl, rfl⟩))
      · obtain rfl := List.mem_singleton.mp hp
        rcases run_of_setPhase hrun hj with ⟨-, rfl⟩ | ⟨hne, -⟩
        · exact .inl ⟨run, hrun, rfl, .inl hphase⟩
        · exact (hne rfl).elim
  | publish run hrun hphase p hp =>
    refine .inl (underWay_of_setPhase hrun (by nofun) hj (hplan.imp_right ?_))
    rintro ⟨p', hp', hpj⟩
    exact ⟨p', (List.mem_filter.mp hp').1, hpj⟩

/-! ### Requests -/

/-- The requests of the runs, which no step changes. -/
def reqs (sys : System) : List Request := sys.runs.map Run.req

theorem getElem?_reqs {run : Run} (h : sys.runs[i]? = some run) : sys.reqs[i]? = some run.req := by
  simp [reqs, h]

theorem reqs_setPhase (sys : System) (i : Nat) (phase : Phase) :
    (sys.setPhase i phase).reqs = sys.reqs := by
  refine List.ext_getElem? fun j => ?_
  simp only [reqs, List.getElem?_map, getElem?_setPhase]
  split
  · cases sys.runs[j]? <;> rfl
  · rfl

theorem reqs_step (hs : Steps srv stripe sys i sys') : sys'.reqs = sys.reqs := by
  cases hs with
  | idle => rfl
  | refuse | lock | plan => exact reqs_setPhase ..
  | commit =>
    rw [commit_eq]
    exact reqs_setPhase ..
  | publish => exact reqs_setPhase ..

end System

end SchemaRegistry

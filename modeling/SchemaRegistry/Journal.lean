import SchemaRegistry.ChangeLog
import SchemaRegistry.History

/-!
The change log as a journal. A plan logs one event for each version row it stores, hides or
removes, in the order of its writes, and a request that fails logs nothing. So a log that nothing
has pruned says all there is to know about the versions: replaying it over an empty table gives
the id of every version row and whether it is soft-deleted.
-/

namespace SchemaRegistry

open Lib

/-! ### Writes and their events -/

/-- The event a write is logged under; only writes of version rows have one. -/
def Write.event : Write → Option LogEvent
  | .putVersion ctx subject v vr =>
      some ⟨ctx, subject, v, vr.id, if vr.deleted then .softDelete else .register⟩
  | .deleteVersion ctx subject v id => some ⟨ctx, subject, v, id, .hardDelete⟩
  | _ => none

theorem events_settings {ws : List Write} (h : ∀ w ∈ ws, w.IsSetting) :
    ws.filterMap Write.event = [] := by
  rw [List.filterMap_eq_nil_iff]
  intro w hw
  have := h w hw
  cases w <;> first | rfl | exact this.elim

/-- What goes with the body of a removed version is no version. -/
theorem events_hardDeleteWrites (r : Reader) (q : QualifiedSubject) (v : UInt32)
    (vr : VersionRecord) (also : List (String × UInt32)) :
    (hardDeleteWrites r q v vr also).1.filterMap Write.event
      = [(hardDeleteWrites r q v vr also).2] := by
  refine congrArg (List.cons _) (List.filterMap_eq_nil_iff.mpr fun w hw => ?_)
  split at hw
  · cases hw
  · split at hw
    · cases hw
    · rcases List.mem_append.mp hw with hw | hw
      · obtain ⟨sr, -, rfl⟩ := List.mem_map.mp hw
        rfl
      · rw [List.mem_singleton.mp hw]
        rfl

theorem events_hardDeleteAll (r : Reader)
    (rows : List (QualifiedSubject × UInt32 × VersionRecord)) (also : List (String × UInt32)) :
    (hardDeleteAll r rows also).1.filterMap Write.event = (hardDeleteAll r rows also).2 := by
  induction rows with
  | nil => rfl
  | cons p rows ih =>
    change
      ((hardDeleteWrites r p.1 p.2.1 p.2.2 also).1 ++ (hardDeleteAll r rows also).1).filterMap _
      = [_] ++ (hardDeleteAll r rows also).2
    rw [List.filterMap_append, ih, events_hardDeleteWrites]

theorem events_added (srv : Server) (view : ReadView) (q : QualifiedSubject) (version id : UInt32)
    (c : Canon srv.fmt.Inner) :
    (RegisterSchema.added srv view q version id c).filterMap Write.event
      = [⟨q.context, q.subject, version, id, .register⟩] := by
  have hrefs : (c.targets.map fun p => Write.putRefby p.1.context p.1.subject p.2 id).filterMap
      Write.event = [] := by
    simp [List.filterMap_eq_nil_iff, Write.event]
  unfold RegisterSchema.added
  rw [List.filterMap_append, List.filterMap_append, List.filterMap_append, hrefs]
  split <;> rfl

/-- The events of a plan are those of its writes. -/
theorem Effect.events {srv : Server} {view : ReadView} {verb : Verb} {ws : List Write}
    {evs : List LogEvent} (h : Effect srv view verb ws evs) : ws.filterMap Write.event = evs := by
  cases h with
  | silent => rfl
  | settings hws => exact events_settings hws
  | softDelete q rows extra hrows hextra =>
    rw [List.filterMap_append, events_settings hextra, List.append_nil, List.filterMap_map]
    exact congrFun List.filterMap_eq_map' rows
  | hardDelete => exact events_hardDeleteAll _ _ _
  | purge =>
    rw [List.filterMap_append, events_hardDeleteAll]
    exact List.append_nil _
  | register m hm x hx version id =>
    rw [List.filterMap_append, events_added, RegisterSchema.replaced, List.filterMap_append,
      events_hardDeleteAll, events_hardDeleteAll]

/-! ### Replaying events -/

/-- The id of each version of a subject of a context and whether it is soft-deleted. -/
abbrev VersionTable := String × String × UInt32 → Option (UInt32 × Bool)

/-- What an event says about a version. -/
def LogEvent.touch (ev : LogEvent) (k : String × String × UInt32) :
    Option (Option (UInt32 × Bool)) :=
  if (ev.ctx, ev.subject, ev.version) = k then
    match ev.kind with
    | .register => some (some (ev.id, false))
    | .softDelete => some (some (ev.id, true))
    | .hardDelete => some none
  else none

/-- The table after the events, first one first. -/
def replay (t : VersionTable) (evs : List LogEvent) : VersionTable := writeAll LogEvent.touch t evs

/-- What the version rows say, their timestamps apart. -/
def Rows.versions (ρ : Rows) : VersionTable
  | (ctx, subject, v) => (ρ (.version ctx subject v)).map fun vr => (vr.id, vr.deleted)

theorem versions_write (ρ : Rows) (w : Write) :
    (ρ.after [w]).versions = replay ρ.versions w.event.toList := by
  funext ⟨ctx, subject, v⟩
  cases w with
  | putVersion ctx' subject' v' vr =>
    by_cases hk : ctx' = ctx ∧ subject' = subject ∧ v' = v <;> cases hdel : vr.deleted <;>
      simp [Rows.versions, Rows.after, replay, Write.event, write, Write.touch, LogEvent.touch, hk,
        hdel]
  | deleteVersion ctx' subject' v' id =>
    by_cases hk : ctx' = ctx ∧ subject' = subject ∧ v' = v <;>
      simp [Rows.versions, Rows.after, replay, Write.event, write, Write.touch, LogEvent.touch, hk]
  | _ => rfl

theorem versions_after (ρ : Rows) (ws : List Write) :
    (ρ.after ws).versions = replay ρ.versions (ws.filterMap Write.event) := by
  induction ws generalizing ρ with
  | nil => rfl
  | cons w ws ih =>
    have hevents :
        (w :: ws).filterMap Write.event = w.event.toList ++ ws.filterMap Write.event := by
      cases h : w.event <;> simp [h]
    rw [hevents, replay, writeAll_append, ← replay, ← replay, ← versions_write]
    exact ih (ρ.after [w])

/-! ### Along a history -/

namespace Registry

/-- The events of a request, if it goes through. -/
def eventsOf (srv : Server) (reg : Registry) (req : Request) : List LogEvent :=
  match req.verb.decide srv (reg.view req.now req.newGuid) with
  | .ok plan => plan.events
  | .error _ => []

/-- The events of a history, in order. -/
def journal (srv : Server) (reg : Registry) : List Request → List LogEvent
  | [] => []
  | req :: reqs => reg.eventsOf srv req ++ (reg.step srv req).journal srv reqs

theorem versions_step (srv : Server) (reg : Registry) (req : Request) :
    (reg.step srv req).rows.versions = replay reg.rows.versions (reg.eventsOf srv req) := by
  unfold eventsOf step Verb.run
  cases h : req.verb.decide srv (reg.view req.now req.newGuid) with
  | error e => rfl
  | ok plan =>
    refine (congrArg Rows.versions (rows_apply reg plan)).trans ?_
    rw [versions_after, (effect_of_decide h).events]

theorem versions_runAll (srv : Server) (reg : Registry) (reqs : List Request) :
    (reg.runAll srv reqs).rows.versions = replay reg.rows.versions (reg.journal srv reqs) := by
  induction reqs generalizing reg with
  | nil => rfl
  | cons req reqs ih =>
    rw [journal, replay, writeAll_append]
    exact (ih (reg.step srv req)).trans (congrArg (replay · _) (versions_step srv reg req))

/-! ### The log in the store -/

/-- The log holds all these events under their numbers, and nothing else. -/
structure Logs (reg : Registry) (logged : List LogEvent) : Prop where
  seq : reg.store.logSeq.toNat = logged.length
  rows : ChangeLog.RowsAre (reg.store.get? .log) 0 logged

variable {srv : Server} {reg : Registry} {logged : List LogEvent}

theorem built_appends {s : Store} {o : ChangeLog.OpenTx} {evs : List LogEvent}
    (h : ChangeLog.Built s logged o) (hroom : logged.length + (o.events ++ evs).length < 2 ^ 64) :
    ChangeLog.Built s logged { tx := evs.foldl Tx.appendLog o.tx, events := o.events ++ evs } := by
  induction evs generalizing o with
  | nil => rwa [List.append_nil]
  | cons ev evs ih =>
    rw [← List.singleton_append, ← List.append_assoc] at hroom ⊢
    refine ih (h.append ?_ ev) hroom
    rw [h.seq]
    simp only [List.length_append, List.length_singleton] at hroom
    omega

/-- The transaction of a plan whose events the counter has room for. -/
theorem built_planTx {α : Type} {plan : Plan α} (h : reg.Logs logged)
    (hroom : logged.length + plan.events.length < 2 ^ 64) :
    ChangeLog.Built reg.store logged { tx := reg.store.planTx plan, events := plan.events } := by
  have hstaged : ∀ (ws : List Write) {tx : Tx}, ChangeLog.Built reg.store logged { tx } →
      ChangeLog.Built reg.store logged { tx := ws.foldl Tx.applyWrite tx } := by
    intro ws
    induction ws with
    | nil => exact id
    | cons w ws ih => exact fun hbuilt => ih (hbuilt.stage w)
  exact built_appends (hstaged plan.writes (ChangeLog.built_tx h.seq)) hroom

theorem store_foldl_appendLog (tx : Tx) (evs : List LogEvent) :
    (evs.foldl Tx.appendLog tx).store = tx.store := by
  induction evs generalizing tx with
  | nil => rfl
  | cons ev evs ih => exact ih (tx.appendLog ev)

theorem Logs.apply {α : Type} {plan : Plan α} (h : reg.Logs logged)
    (hroom : logged.length + plan.events.length < 2 ^ 64) :
    (reg.apply plan).Logs (logged ++ plan.events) := by
  have hstore : (reg.apply plan).store = reg.store.write (reg.store.planTx plan).lastBatch := by
    show (reg.store.planTx plan).commit.1 = _
    rw [Tx.commit_fst, Store.planTx, store_foldl_appendLog, (Tx.stages_applyWrites _ _).store]
    rfl
  have hbuilt := built_planTx h hroom
  constructor <;> rw [hstore]
  · rw [hbuilt.logSeq h.seq, hbuilt.seq, List.length_append]
  · exact hbuilt.rowsAre h.rows (Nat.zero_le _)

theorem Logs.runAll (h : reg.Logs logged) (reqs : List Request)
    (hroom : (logged ++ reg.journal srv reqs).length < 2 ^ 64) :
    (reg.runAll srv reqs).Logs (logged ++ reg.journal srv reqs) := by
  induction reqs generalizing reg logged with
  | nil => rwa [journal, List.append_nil]
  | cons req reqs ih =>
    rw [journal, ← List.append_assoc] at hroom ⊢
    refine ih ?_ hroom
    rw [List.length_append, List.length_append] at hroom
    revert hroom
    unfold eventsOf Registry.step Verb.run
    cases req.verb.decide srv (reg.view req.now req.newGuid) with
    | error e => exact fun _ => (List.append_nil logged).symm ▸ h
    | ok plan => exact fun hroom => h.apply (by dsimp only at hroom; omega)

theorem logs_empty (tenant : TenantId) : (Registry.empty tenant).Logs [] where
  seq := (ChangeLog.State.intact_empty tenant).seq
  rows key ev := by
    show ({ tenant } : Store).get? .log key = some ev ↔ _
    rw [Store.get?, PhysicalStore.get?_default]
    simp

/-- In every history whose events the sequence counter has room for, the log holds the events of
the requests that went through, in order, and tells every version there is: its id and whether it
is soft-deleted. -/
theorem log_replays (srv : Server) (tenant : TenantId) (reqs : List Request)
    (hroom : ((Registry.empty tenant).journal srv reqs).length < 2 ^ 64) :
    ((Registry.empty tenant).runAll srv reqs).Logs ((Registry.empty tenant).journal srv reqs) ∧
      ((Registry.empty tenant).runAll srv reqs).rows.versions
        = replay (fun _ => none) ((Registry.empty tenant).journal srv reqs) := by
  constructor
  · exact (logs_empty tenant).runAll reqs hroom
  · rw [versions_runAll, Registry.rows_empty]
    rfl

/-- A version that comes and is hidden. -/
theorem log_replays_hidden :
    (plainRun [registerText "a" "\"int\"",
      plainRequest (.deleteSubject "a" false)]).rows.versions (".", "a", 1) = some (1, true) := by
  rw [(log_replays plainServer .default _ (by decide)).2]
  decide

end Registry

end SchemaRegistry

import SchemaRegistry.Engine

/-!
Writers at the same time. A run takes the locks its target asks for, reads the
published snapshot, plans, commits durably, publishes and lets go. Commits are one
after another (the counters lock) and so are publications (the publish lock), but a
run may publish after one that committed later. A schedule names the run that takes
its next step; a run whose lock is taken waits.
-/

namespace SchemaRegistry

/-! ### Locks -/

/-- The context whose lock a target takes, under the shared container lock. -/
def Target.lockContext? : Target → Option String
  | .subject q => some q.context
  | .context ctx => some ctx
  | .global | .exporters => none

/-- Whether two targets' locks exclude each other. A global change holds the container lock
alone; context locks are striped by hash; exporter records have a lock of their own. -/
def Target.excludes (stripe : String → Fin 64) : Target → Target → Bool
  | .exporters, .exporters => true
  | .exporters, _ | _, .exporters => false
  | .global, _ | _, .global => true
  | t, t' => t.lockContext?.map stripe == t'.lockContext?.map stripe

/-! ### Runs -/

/-- How far a run has got. -/
inductive Phase where
  | waiting
  | locked
  | planned (plan : Plan Unit)
  /-- The batch is durable and its operations are yet to be published. -/
  | committed
  | done
  | refused

/-- One engine run. -/
structure Run where
  req : Request
  phase : Phase := .waiting

def Phase.holdsLock : Phase → Bool
  | .locked | .planned _ | .committed => true
  | .waiting | .done | .refused => false

/-- What the engine hands to `apply`: the writes and events of the verb's plan, past the gate. -/
def Verb.gatedPlan (srv : Server) (verb : Verb) (view : ReadView) : ApiResult (Plan Unit) := do
  let m ← verb.mutation srv
  let plan ← m.gatedPlan view
  .ok { writes := plan.writes, events := plan.events, output := () }

def Verb.target? (srv : Server) (verb : Verb) : Option Target :=
  match verb.mutation srv with
  | .ok m => some m.target
  | .error _ => none

/-- The operations of a batch that is durable and not yet published. -/
structure Pending where
  run : Nat
  plan : Plan Unit
  ops : List Op

/-- A container and the runs on it. -/
structure System where
  store : Store
  snapshot : Snapshot := {}
  runs : List Run
  /-- What is yet to be published, in the order of the commits. -/
  pending : List Pending := []

namespace System

/-- An empty container with runs about to start. -/
def init (tenant : TenantId) (reqs : List Request) : System :=
  { store := { tenant }, runs := reqs.map fun req => { req } }

/-- The container as a run sees it now. -/
def registry (sys : System) : Registry := ⟨sys.store, sys.snapshot⟩

/-- No run holds a lock that excludes the target. -/
def free (srv : Server) (stripe : String → Fin 64) (sys : System) (t : Target) : Bool :=
  sys.runs.all fun run =>
    !(run.phase.holdsLock && (run.req.verb.target? srv).any fun held => held.excludes stripe t)

def setPhase (sys : System) (i : Nat) (phase : Phase) : System :=
  { sys with runs := sys.runs.modify i fun run => { run with phase } }

/-- Commit the plan of a run as one durable batch. -/
def commit (sys : System) (i : Nat) (plan : Plan Unit) : System :=
  let (store, ops) := (sys.store.planTx plan).commit
  { sys.setPhase i .committed with store, pending := sys.pending ++ [⟨i, plan, ops⟩] }

/-- Apply the operations of a run to the published snapshot and let its lock go. -/
def publish (sys : System) (i : Nat) (p : Pending) : System :=
  { sys.setPhase i .done with
    snapshot := sys.snapshot.applyAll p.ops
    pending := sys.pending.filter fun p => p.run != i }

/-- The next step of a run. -/
def step (srv : Server) (stripe : String → Fin 64) (sys : System) (i : Nat) : System :=
  match sys.runs[i]? with
  | none => sys
  | some run =>
      match run.phase with
      | .waiting =>
          match run.req.verb.target? srv with
          | none => sys.setPhase i .refused
          | some t => if sys.free srv stripe t then sys.setPhase i .locked else sys
      | .locked =>
          match run.req.verb.gatedPlan srv (sys.registry.view run.req.now run.req.newGuid) with
          | .error _ => sys.setPhase i .refused
          | .ok plan => sys.setPhase i (.planned plan)
      | .planned plan => sys.commit i plan
      | .committed =>
          match sys.pending.find? fun p => p.run == i with
          | none => sys
          | some p => sys.publish i p
      | .done | .refused => sys

def runSchedule (srv : Server) (stripe : String → Fin 64) (sys : System) (schedule : List Nat) :
    System :=
  schedule.foldl (step srv stripe) sys

/-- Every run has finished. -/
def Finished (sys : System) : Prop :=
  ∀ run ∈ sys.runs, run.phase = .done ∨ run.phase = .refused

instance (phase : Phase) : Decidable (phase = .done) :=
  match phase with
  | .done => isTrue rfl
  | .refused | .waiting | .locked | .planned _ | .committed => isFalse nofun

instance (phase : Phase) : Decidable (phase = .refused) :=
  match phase with
  | .refused => isTrue rfl
  | .done | .waiting | .locked | .planned _ | .committed => isFalse nofun

instance (sys : System) : Decidable sys.Finished :=
  inferInstanceAs (Decidable (∀ run ∈ sys.runs, _))

end System

end SchemaRegistry

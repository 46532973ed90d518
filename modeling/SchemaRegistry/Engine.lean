import SchemaRegistry.Store.Container
import SchemaRegistry.Mutations.Register
import SchemaRegistry.Mutations.Deletes
import SchemaRegistry.Mutations.Settings
import SchemaRegistry.Mutations.Exporters

/-!
The one path a change to the registry takes: look for an answer that needs no
write, check the mode table before or after the plan, run the plan, apply its
writes and log events as one batch, publish the new snapshot.
-/

namespace SchemaRegistry

/-- One container: its rows and the published snapshot of them. -/
structure Registry where
  store : Store
  snapshot : Snapshot := {}

namespace Registry

/-- A container that holds nothing. -/
def empty (tenant : TenantId) : Registry := { store := { tenant } }

/-- Bodies are read through to the store. -/
def reader (reg : Registry) : Reader := ⟨reg.snapshot, reg.store.getSchema⟩

def view (reg : Registry) (now : Int) (newGuid : String) : ReadView :=
  ⟨reg.reader, reg.store.getExporter, now, newGuid⟩

end Registry

/-! ### Applying a plan -/

def Tx.applyWrite (tx : Tx) : Write → Tx
  | .putSchema ctx id rec index => tx.putSchema ctx id rec index
  | .putVersion ctx subject version rec => tx.putVersion ctx subject version rec
  | .deleteVersion ctx subject version id => tx.deleteVersion ctx subject version id
  | .deleteSchema ctx id => tx.deleteSchema ctx id
  | .putRefby ctx subject version id => tx.putRefby ctx subject version id
  | .deleteRefby ctx subject version id => tx.deleteRefby ctx subject version id
  | .setNextId ctx next => tx.setNextId ctx next
  | .putConfig scope rec => tx.putConfig scope rec
  | .deleteConfig scope => tx.deleteConfig scope
  | .putMode scope mode => tx.putMode scope mode
  | .deleteMode scope => tx.deleteMode scope
  | .deleteContext ctx => tx.deleteContext ctx
  | .putExporter rec => tx.putExporter rec
  | .deleteExporter name => tx.deleteExporter name

/-- The transaction that holds a plan's writes and, after them, its log events. -/
def Store.planTx {α : Type} (s : Store) (plan : Plan α) : Tx :=
  plan.events.foldl Tx.appendLog (plan.writes.foldl Tx.applyWrite s.tx)

/-- Commit durably, then publish. -/
def Registry.apply {α : Type} (reg : Registry) (plan : Plan α) : Registry :=
  let (store, ops) := (reg.store.planTx plan).commit
  ⟨store, reg.snapshot.applyAll ops⟩

/-! ### Running a mutation -/

namespace Mutation

variable {α : Type}

/-- What the engine does once it holds the lock: gate and plan, in the verb's order. -/
def gatedPlan (m : Mutation α) (view : ReadView) : ApiResult (Plan α) := do
  let gate := modegateCheck m.intent (modeFor view.reader m.target) m.target.scopeName
  match m.gate with
  | .beforePlan => do
      gate
      m.plan view
  | .afterPlan => do
      let plan ← m.plan view
      gate
      .ok plan

/-- The plan to apply: none when the fast path has the answer. -/
def decide (m : Mutation α) (view : ReadView) : ApiResult (Plan α) := do
  match ← m.fastPath view with
  | some out => .ok { output := out }
  | none => m.gatedPlan view

end Mutation

/-! ### Verbs -/

/-- Every intended change to the registry, as a request names it. -/
inductive Verb where
  | register (subject : String) (req : RegisterSchemaRequest) (normalize : Bool)
  | deleteSubject (subject : String) (permanent : Bool)
  | deleteVersion (subject : String) (spec : VersionSpec) (permanent : Bool)
  | setMode (subject : Option String) (mode : Mode) (force : Bool)
  | deleteMode (subject : String)
  | setConfig (subject : Option String) (update : ConfigRecord)
  | deleteConfig (subject : Option String)
  | deleteContext (ctx : String)
  | createExporter (req : ExporterUpdateRequest)
  | restoreExporter (rec : ExporterRecord)
  | updateExporter (name : String) (req : ExporterUpdateRequest)
  | deleteExporter (name : String)
  | transitionExporter (name : String) (action : ExporterAction)

namespace Verb

def Output : Verb → Type
  | .register .. => RegisterResponse
  | .deleteSubject .. => List UInt32
  | .deleteVersion .. => UInt32
  | .setMode .. => Unit
  | .deleteMode .. => Mode
  | .setConfig .. => Unit
  | .deleteConfig .. => ConfigRecord
  | .deleteContext .. => Unit
  | .createExporter .. => String
  | .restoreExporter .. => Bool
  | .updateExporter .. => String
  | .deleteExporter .. => Unit
  | .transitionExporter .. => String

/-- The mutation a verb is, once its request has been validated. -/
def mutation (srv : Server) : (verb : Verb) → ApiResult (Mutation verb.Output)
  | .register subject req normalize =>
      (RegisterSchema.new subject req normalize).map (RegisterSchema.mutation srv)
  | .deleteSubject subject permanent => .ok (DeleteSubject.new subject permanent).mutation
  | .deleteVersion subject spec permanent =>
      .ok (DeleteSubjectVersion.new subject spec permanent).mutation
  | .setMode subject mode force => .ok (SetMode.new subject mode force).mutation
  | .deleteMode subject => .ok (DeleteMode.new subject).mutation
  | .setConfig subject update => .ok (UpdateCompatibility.new subject update).mutation
  | .deleteConfig subject => .ok ((DeleteSubjectConfig.new subject).mutation srv)
  | .deleteContext ctx => (DeleteContext.new ctx).map DeleteContext.mutation
  | .createExporter req => .ok (SchemaRegistry.createExporter req)
  | .restoreExporter rec => .ok (SchemaRegistry.restoreExporter rec)
  | .updateExporter name req => .ok (SchemaRegistry.updateExporter name req)
  | .deleteExporter name => .ok (SchemaRegistry.deleteExporter name)
  | .transitionExporter name action => .ok (SchemaRegistry.transitionExporter name action)

/-- The plan of a verb against a view of the registry. -/
def decide (srv : Server) (verb : Verb) (view : ReadView) : ApiResult (Plan verb.Output) := do
  let m ← verb.mutation srv
  m.decide view

def run (srv : Server) (verb : Verb) (reg : Registry) (now : Int) (newGuid : String) :
    ApiResult (verb.Output × Registry) := do
  let plan ← verb.decide srv (reg.view now newGuid)
  .ok (plan.output, reg.apply plan)

end Verb

/-- How the exporter worker writes to an exporter's record: the new cursor and state apply only if
the cursor is still the one the worker started from and no operator has stopped the exporter. -/
def Registry.exporterState (reg : Registry) (name : String) (expected new : UInt64)
    (state : ExporterState) (trace : Option String) (now : Int) : Registry :=
  match reg.store.getExporter name with
  | none => reg
  | some rec =>
      if rec.offset ≠ expected || rec.state == .paused || rec.state == .failed then reg
      else
        { reg with
          store := reg.store.putExporter
            { rec with offset := new, ts := now, state, trace := trace.getD "" } }

/-! ### Histories -/

/-- One request: the verb, the clock and the fresh id when it ran. -/
structure Request where
  verb : Verb
  now : Int
  newGuid : String

/-- A refused request leaves everything as it was. -/
def Registry.step (srv : Server) (reg : Registry) (req : Request) : Registry :=
  match req.verb.run srv reg req.now req.newGuid with
  | .ok (_, reg') => reg'
  | .error _ => reg

def Registry.runAll (srv : Server) (reg : Registry) (reqs : List Request) : Registry :=
  reqs.foldl (Registry.step srv) reg

end SchemaRegistry

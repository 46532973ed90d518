import SchemaRegistry.Mutations.Plan

/-!
Modes, configurations and contexts. Entering IMPORT without `force` is the one
change of a mode that does work: it refuses while live subjects exist in scope and
removes the soft-deleted rows that are left.
-/

namespace SchemaRegistry

/-! ### `PUT /mode`, `PUT /mode/{subject}` -/

structure SetMode where
  /-- `none` is the registry as a whole. -/
  subject : Option QualifiedSubject
  mode : Mode
  force : Bool

namespace SetMode

def new (subject : Option String) (mode : Mode) (force : Bool) : SetMode :=
  ⟨subject.map QualifiedSubject.parse, mode, force⟩

/-- Every subject the new mode will cover. -/
def subjectsInScope (m : SetMode) (r : Reader) : List QualifiedSubject :=
  match m.subject with
  | none => r.listContexts.flatMap fun ctx => (r.listSubjectNames ctx).map fun n => ⟨ctx, n⟩
  | some q =>
      if q.isContextOnly then (r.listSubjectNames q.context).map fun n => ⟨q.context, n⟩ else [q]

def hasLive (m : SetMode) (r : Reader) : Bool :=
  match m.subject with
  | some q => hasSubjects r q false
  | none => hasAnySubject r false

/-- The rows in scope: only soft-deleted ones are left when they are purged. -/
def doomed (m : SetMode) (r : Reader) : List (QualifiedSubject × UInt32 × VersionRecord) :=
  (m.subjectsInScope r).flatMap fun sq =>
    (r.listVersions sq.context sq.subject).map fun p => (sq, p.1, p.2)

/-- Whether the change enters IMPORT and has to purge what is in scope. -/
def purges (m : SetMode) (r : Reader) : Bool :=
  m.mode == .«import» && modeFor r (targetOf m.subject) != .«import» && !m.force

def plan (m : SetMode) (view : ReadView) : ApiResult (Plan Unit) := do
  let r := view.reader
  let gone ←
    if m.purges r then
      if m.hasLive r then
        .error (.operationNotPermitted "Cannot import since found existing subjects")
      else do
        let doomed := m.doomed r
        doomed.forM fun (sq, v, _) => checkNotReferenced r sq v
        let keys := doomed.map fun (sq, v, _) => (sq.subject, v)
        .ok (hardDeleteAll r doomed keys)
    else .ok ([], [])
  .ok { writes := gone.1 ++ [.putMode (scopeOf m.subject) m.mode], events := gone.2, output := () }

/-- A mode change is never gated on the current mode. -/
def mutation (m : SetMode) : Mutation Unit where
  target := targetOf m.subject
  intent := .setMode
  plan := m.plan

end SetMode

/-! ### `DELETE /mode/{subject}` -/

structure DeleteMode where
  subject : QualifiedSubject

namespace DeleteMode

def new (subject : String) : DeleteMode := ⟨QualifiedSubject.parse subject⟩

/-- Answers with the mode that was set. -/
def plan (m : DeleteMode) (view : ReadView) : ApiResult (Plan Mode) :=
  match modeOfScope view.reader (some m.subject) with
  | none => .error (.subjectNotFound m.subject.qualified)
  | some previous => .ok { writes := [.deleteMode (scopeFor m.subject)], output := previous }

def mutation (m : DeleteMode) : Mutation Mode where
  target := targetOf (some m.subject)
  intent := .setMode
  gate := .afterPlan
  plan := m.plan

end DeleteMode

/-! ### `PUT /config`, `PUT /config/{subject}` -/

structure UpdateCompatibility where
  subject : Option QualifiedSubject
  update : ConfigRecord

namespace UpdateCompatibility

def new (subject : Option String) (update : ConfigRecord) : UpdateCompatibility :=
  ⟨subject.map QualifiedSubject.parse, update⟩

/-- Fields present in the update replace the stored ones. -/
def plan (m : UpdateCompatibility) (view : ReadView) : ApiResult (Plan Unit) :=
  let scope := scopeOf m.subject
  let merged := ((view.reader.getConfig scope).getD default).mergedWith m.update
  .ok { writes := [.putConfig scope merged], output := () }

def mutation (m : UpdateCompatibility) : Mutation Unit where
  target := targetOf m.subject
  intent := .modify
  plan := m.plan

end UpdateCompatibility

/-! ### `DELETE /config`, `DELETE /config/{subject}` -/

structure DeleteSubjectConfig where
  subject : Option QualifiedSubject

namespace DeleteSubjectConfig

def new (subject : Option String) : DeleteSubjectConfig := ⟨subject.map QualifiedSubject.parse⟩

/-- Answers with the configuration that was in effect before the delete. -/
def plan (srv : Server) (m : DeleteSubjectConfig) (view : ReadView) :
    ApiResult (Plan ConfigRecord) :=
  match configOf srv view.reader m.subject, m.subject with
  | some previous, _ => .ok { writes := [.deleteConfig (scopeOf m.subject)], output := previous }
  | none, some q => .error (.subjectNotFound q.qualified)
  -- The registry always has a global config.
  | none, none => .error (.internal "the registry always has a global config")

def mutation (srv : Server) (m : DeleteSubjectConfig) : Mutation ConfigRecord where
  target := targetOf m.subject
  intent := .modify
  gate := .afterPlan
  plan := m.plan srv

end DeleteSubjectConfig

/-! ### `DELETE /contexts/{context}` -/

structure DeleteContext where
  ctx : String

namespace DeleteContext

/-- The default context can never go. -/
def new (ctx : String) : ApiResult DeleteContext :=
  match normalizeContext ctx with
  | none => .error (.invalidSubject ctx)
  | some name =>
      if name = defaultContext || name = wildcardContext then
        .error (.operationNotPermitted "The default context cannot be deleted")
      else .ok ⟨name⟩

def plan (m : DeleteContext) (view : ReadView) : ApiResult (Plan Unit) :=
  if (view.reader.listSubjectNames m.ctx).isEmpty then
    .ok
      { writes := [.deleteContext m.ctx, .deleteConfig (.context m.ctx),
        .deleteMode (.context m.ctx)]
        output := () }
  else .error (.contextNotEmpty m.ctx)

def mutation (m : DeleteContext) : Mutation Unit where
  target := .context m.ctx
  intent := .notSchemaState
  plan := m.plan

end DeleteContext

end SchemaRegistry

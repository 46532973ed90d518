import SchemaRegistry.Mutations.Plan

/-!
`/exporters`: create, update, delete, restore, and pause / resume / reset. Exporter
records are registry metadata rather than schema state, so no mode gates them.
-/

namespace SchemaRegistry

/-- `to_ascii_uppercase`. -/
def toAsciiUppercase (s : String) : String :=
  String.ofList (s.toList.map fun c => if 'a' ≤ c && c ≤ 'z' then c.toUpper else c)

def isValidExporterName (name : String) : Bool :=
  !name.isEmpty && name.utf8ByteSize ≤ 256
    && name.toList.all fun c => isAsciiAlphanumeric c || c == '-' || c == '_' || c == '.'

/-- The contexts the subject patterns name, each once; a wildcard is refused, since ids
are per context and could not be kept. -/
def patternContexts (info : ExporterInfo) : List String → List String → ApiResult (List String)
  | [], acc => .ok acc
  | p :: ps, acc =>
      let q := QualifiedSubject.parse p
      if q.isWildcard then
        .error (.invalidExporter ("Exporter '" ++ info.name ++ "' with contextType "
          ++ info.contextType
          ++ " cannot use the context wildcard ':*:': ids are per context and could not be preserved in '"
          ++ info.context.getD defaultContext ++ "'"))
      else patternContexts info ps (if q.context ∈ acc then acc else acc ++ [q.context])

def validateContextType (info : ExporterInfo) : ApiResult Unit :=
  if info.contextType = "AUTO" || info.contextType = "NONE" || info.contextType = "DEFAULT" then
    .ok ()
  else if info.contextType = "CUSTOM" then
    if info.context.all fun c => (normalizeContext c).isNone then
      .error (.invalidExporter "Context type CUSTOM requires a valid 'context'")
    else .ok ()
  else .error (.invalidExporter ("Invalid context type '" ++ info.contextType ++ "'"))

/-- The shape rules an exporter has to satisfy, whatever put it there. -/
def validateExporter (info : ExporterInfo) : ApiResult Unit := do
  if !isValidExporterName info.name then
    .error (.invalidExporter ("Invalid exporter name '" ++ info.name ++ "'"))
  validateContextType info
  if ((info.config.lookup "schema.registry.url").bind Json.asStr).all String.isEmpty then
    .error (.invalidExporter "Missing required config 'schema.registry.url'")
  if info.subjects.isEmpty then
    .error (.invalidExporter "Exporter 'subjects' must not be empty")
  -- CUSTOM and DEFAULT map every source context onto one destination context.
  if info.contextType = "CUSTOM" || info.contextType = "DEFAULT" then
    let contexts ← patternContexts info info.subjects []
    if 1 < contexts.length then
      .error (.invalidExporter ("Exporter '" ++ info.name ++ "' with contextType "
        ++ info.contextType ++ " would merge contexts " ++ ", ".intercalate contexts
        ++ " into one destination context; ids are per context and could not be preserved"))

def exporterPlan (rec : ExporterRecord) : Plan String :=
  { writes := [.putExporter rec], output := rec.info.name }

/-- Exporter verbs have their own lock and no mode. -/
def exporterMutation {α : Type} (gate : Gate) (plan : ReadView → ApiResult (Plan α)) :
    Mutation α where
  target := .exporters
  intent := .notSchemaState
  gate := gate
  plan := plan

/-- The record an exporter verb works on. -/
def exporterOr404 (view : ReadView) (name : String) : ApiResult ExporterRecord :=
  match view.exporter name with
  | some rec => .ok rec
  | none => .error (.exporterNotFound name)

/-- `POST /exporters`. -/
def createExporter (req : ExporterUpdateRequest) : Mutation String :=
  exporterMutation .afterPlan fun view => do
    let name := req.name.getD ""
    if (view.exporter name).isSome then .error (.exporterExists name)
    let info : ExporterInfo :=
      { name
        subjects := req.subjects.getD ["*"]
        contextType := (req.contextType.map toAsciiUppercase).getD "AUTO"
        context := req.context
        subjectRenameFormat := req.subjectRenameFormat
        config := req.config.getD [] }
    validateExporter info
    .ok (exporterPlan ⟨info, .running, 0, view.now, ""⟩)

/-- Restore an exporter record; an existing one is left alone. -/
def restoreExporter (rec : ExporterRecord) : Mutation Bool :=
  exporterMutation .beforePlan fun view => do
    if (view.exporter rec.info.name).isSome then .ok { output := false }
    else
      validateExporter rec.info
      .ok { writes := [.putExporter rec], output := true }

/-- The record with the fields of a request in place: present ones replace, config
entries are merged. -/
def ExporterRecord.updated (rec : ExporterRecord) (req : ExporterUpdateRequest) (now : Int) :
    ExporterRecord :=
  { rec with
    info :=
      { rec.info with
        subjects := req.subjects.getD rec.info.subjects
        contextType := (req.contextType.map toAsciiUppercase).getD rec.info.contextType
        context := req.context.or rec.info.context
        subjectRenameFormat := req.subjectRenameFormat.or rec.info.subjectRenameFormat
        config := match req.config with
          | some cfg => JsonMap.extend rec.info.config cfg
          | none => rec.info.config }
    ts := now }

/-- `PUT /exporters/{name}` and `PUT /exporters/{name}/config`. The cursor and the state
stay as they are. -/
def updateExporter (name : String) (req : ExporterUpdateRequest) : Mutation String :=
  exporterMutation .afterPlan fun view => do
    let stored ← exporterOr404 view name
    let updated := stored.updated req view.now
    validateExporter updated.info
    .ok (exporterPlan updated)

/-- `DELETE /exporters/{name}`. -/
def deleteExporter (name : String) : Mutation Unit :=
  exporterMutation .afterPlan fun view => do
    let _ ← exporterOr404 view name
    .ok { writes := [.deleteExporter name], output := () }

/-- What an operator can ask of an exporter; anything else is refused. -/
inductive ExporterAction where
  | pause
  | resume
  | reset
  | other (action : String)
  deriving DecidableEq, Repr

/-- What an action makes of a record. A failed exporter cannot be resumed; a reset starts
over from the beginning of the log and keeps an explicit pause. -/
def ExporterRecord.transition (rec : ExporterRecord) (name : String) (now : Int) :
    ExporterAction → ApiResult ExporterRecord
  | .pause => .ok { rec with state := .paused, ts := now }
  | .resume =>
      if rec.state = .failed then
        .error (.operationNotPermitted ("Exporter " ++ name
          ++ " has failed and cannot be resumed; reset it to start over. Last error: "
          ++ rec.trace))
      else .ok { rec with state := .running, trace := "", ts := now }
  | .reset =>
      .ok { rec with
        offset := 0
        trace := ""
        state := if rec.state = .paused then .paused else .running
        ts := now }
  | .other action => .error (.unprocessable ("unknown action " ++ action))

/-- `PUT /exporters/{name}/pause|resume|reset`. -/
def transitionExporter (name : String) (action : ExporterAction) : Mutation String :=
  exporterMutation .afterPlan fun view => do
    let stored ← exporterOr404 view name
    let moved ← stored.transition name view.now action
    .ok (exporterPlan moved)

end SchemaRegistry

import SchemaRegistry.Api.Authz

/-!
The route table: which handler a method and a path reach, and what a handler takes its
subject or context to be. Literal segments match exactly and a capture is one non-empty
segment; a captured segment is percent-decoded, with `+` as it stands, before a handler
sees it, and a segment that is then no text is refused.
-/

namespace SchemaRegistry.Authz

open Lib

/-! ### Path patterns -/

/-- One segment of a route's path. -/
inductive Seg where
  | lit (s : String)
  /-- `{name}`. -/
  | capture
  /-- `{*rest}`. -/
  | tail
  deriving DecidableEq, Repr

/-- The captures of a path that matches, the path given by its segments. -/
def matchSegs : List Seg → List String → Option (List String)
  | [], [] => some []
  | .lit a :: ps, x :: xs => if x = a then matchSegs ps xs else none
  | .capture :: ps, x :: xs => if x = "" then none else (matchSegs ps xs).map (x :: ·)
  | [.tail], xs => if xs = [] || xs = [""] then none else some ["/".intercalate xs]
  | _, _ => none

/-- The segments of a path as the router sees them: nothing is trimmed. -/
def rawSegments (path : String) : List String := (path.toList.splitOn '/').map String.ofList

/-! ### Handlers -/

/-- The endpoints. -/
inductive Handler where
  | root | rootPost | metadataId | metadataVersion
  | listSchemas | schemaTypes | schemaById | schemaByIdRaw | schemaIdSubjects | schemaIdVersions
  | listSubjects | lookupSchema | deleteSubject | listVersions | registerSchema | getVersion
  | deleteVersion | getVersionRaw | referencedBy | modifyTags | latestWithMetadata
  | compatAll | compatVersion
  | getGlobalConfig | putGlobalConfig | deleteGlobalConfig
  | getSubjectConfig | putSubjectConfig | deleteSubjectConfig
  | getGlobalMode | putGlobalMode | getSubjectMode | putSubjectMode | deleteSubjectMode
  | listContexts | deleteContext
  | exportersList | exportersCreate | exportersGetInfo | exportersUpdate | exportersDelete
  | exportersStatus | exportersGetConfig | exportersPutConfig | exportersPause | exportersResume
  | exportersReset
  | adminPage | adminOverview | adminSubjectDetail | adminBackup | adminRestore | adminMoved
  | metricsEndpoint
  deriving DecidableEq, Repr

/-- One entry of the route table. -/
structure Route where
  path : List Seg
  method : Method
  handler : Handler

open Seg Method Handler in
/-- `router`: the routes in the order they are added. -/
def routes : List Route :=
  [⟨[lit ""], get, root⟩,
   ⟨[lit ""], post, rootPost⟩,
   ⟨[lit "v1", lit "metadata", lit "id"], get, metadataId⟩,
   ⟨[lit "v1", lit "metadata", lit "version"], get, metadataVersion⟩,
   -- schemas
   ⟨[lit "schemas"], get, listSchemas⟩,
   ⟨[lit "schemas", lit "types"], get, schemaTypes⟩,
   ⟨[lit "schemas", lit "ids", capture], get, schemaById⟩,
   ⟨[lit "schemas", lit "ids", capture, lit "schema"], get, schemaByIdRaw⟩,
   ⟨[lit "schemas", lit "ids", capture, lit "subjects"], get, schemaIdSubjects⟩,
   ⟨[lit "schemas", lit "ids", capture, lit "versions"], get, schemaIdVersions⟩,
   -- subjects
   ⟨[lit "subjects"], get, listSubjects⟩,
   ⟨[lit "subjects", capture], post, lookupSchema⟩,
   ⟨[lit "subjects", capture], delete, deleteSubject⟩,
   ⟨[lit "subjects", capture, lit "versions"], get, listVersions⟩,
   ⟨[lit "subjects", capture, lit "versions"], post, registerSchema⟩,
   ⟨[lit "subjects", capture, lit "versions", capture], get, getVersion⟩,
   ⟨[lit "subjects", capture, lit "versions", capture], delete, deleteVersion⟩,
   ⟨[lit "subjects", capture, lit "versions", capture, lit "schema"], get, getVersionRaw⟩,
   ⟨[lit "subjects", capture, lit "versions", capture, lit "referencedby"], get, referencedBy⟩,
   ⟨[lit "subjects", capture, lit "versions", capture, lit "tags"], post, modifyTags⟩,
   ⟨[lit "subjects", capture, lit "metadata"], get, latestWithMetadata⟩,
   -- compatibility
   ⟨[lit "compatibility", lit "subjects", capture, lit "versions"], post, compatAll⟩,
   ⟨[lit "compatibility", lit "subjects", capture, lit "versions", capture], post, compatVersion⟩,
   -- config
   ⟨[lit "config"], get, getGlobalConfig⟩,
   ⟨[lit "config"], put, putGlobalConfig⟩,
   ⟨[lit "config"], delete, deleteGlobalConfig⟩,
   ⟨[lit "config", capture], get, getSubjectConfig⟩,
   ⟨[lit "config", capture], put, putSubjectConfig⟩,
   ⟨[lit "config", capture], delete, deleteSubjectConfig⟩,
   -- mode
   ⟨[lit "mode"], get, getGlobalMode⟩,
   ⟨[lit "mode"], put, putGlobalMode⟩,
   ⟨[lit "mode", capture], get, getSubjectMode⟩,
   ⟨[lit "mode", capture], put, putSubjectMode⟩,
   ⟨[lit "mode", capture], delete, deleteSubjectMode⟩,
   -- contexts
   ⟨[lit "contexts"], get, listContexts⟩,
   ⟨[lit "contexts", capture], delete, deleteContext⟩,
   -- exporters
   ⟨[lit "exporters"], get, exportersList⟩,
   ⟨[lit "exporters"], post, exportersCreate⟩,
   ⟨[lit "exporters", capture], get, exportersGetInfo⟩,
   ⟨[lit "exporters", capture], put, exportersUpdate⟩,
   ⟨[lit "exporters", capture], delete, exportersDelete⟩,
   ⟨[lit "exporters", capture, lit "status"], get, exportersStatus⟩,
   ⟨[lit "exporters", capture, lit "config"], get, exportersGetConfig⟩,
   ⟨[lit "exporters", capture, lit "config"], put, exportersPutConfig⟩,
   ⟨[lit "exporters", capture, lit "pause"], put, exportersPause⟩,
   ⟨[lit "exporters", capture, lit "resume"], put, exportersResume⟩,
   ⟨[lit "exporters", capture, lit "reset"], put, exportersReset⟩,
   -- administrative UI
   ⟨[lit "admin"], get, adminPage⟩,
   ⟨[lit "admin", lit ""], get, adminPage⟩,
   ⟨[lit "admin", lit "api", lit "overview"], get, adminOverview⟩,
   ⟨[lit "admin", lit "api", lit "subjects", capture], get, adminSubjectDetail⟩,
   ⟨[lit "admin", lit "api", lit "backup"], get, adminBackup⟩,
   ⟨[lit "admin", lit "api", lit "restore"], post, adminRestore⟩,
   ⟨[lit "metrics"], get, metricsEndpoint⟩,
   ⟨[lit "_admin"], get, adminMoved⟩,
   ⟨[lit "_admin", lit ""], get, adminMoved⟩,
   ⟨[lit "_admin", tail], get, adminMoved⟩]

/-- A route for GET also serves HEAD. -/
def Route.serves (r : Route) (method : Method) : Bool :=
  r.method == method || (r.method == .get && method == .head)

/-- The handler a request reaches, with the captured segments; `none` is one of the two
fallbacks. -/
def dispatch (method : Method) (path : String) : Option (Handler × List String) :=
  match rawSegments path with
  | "" :: segs => routes.findSome? fun r =>
      if r.serves method then (matchSegs r.path segs).map (r.handler, ·) else none
  | _ => none

namespace Handler

/-- The handlers that can change registry or exporter state. -/
def mutates : Handler → Bool
  | registerSchema | modifyTags | deleteSubject | deleteVersion
  | putGlobalConfig | deleteGlobalConfig | putSubjectConfig | deleteSubjectConfig
  | putGlobalMode | putSubjectMode | deleteSubjectMode | deleteContext
  | exportersCreate | exportersUpdate | exportersDelete | exportersPutConfig | exportersPause
  | exportersResume | exportersReset | adminRestore => true
  | _ => false

/-- What a handler's first capture names. -/
inductive Naming where
  | subject
  | context
  deriving DecidableEq, Repr

/-- The handlers under `/subjects`, `/compatibility/subjects`, `/config`, `/mode` and
`/contexts` that take a name from the path. -/
def naming : Handler → Option Naming
  | lookupSchema | deleteSubject | listVersions | registerSchema | getVersion | deleteVersion
  | getVersionRaw | referencedBy | modifyTags | latestWithMetadata | compatAll | compatVersion
  | getSubjectConfig | putSubjectConfig | deleteSubjectConfig
  | getSubjectMode | putSubjectMode | deleteSubjectMode => some .subject
  | deleteContext => some .context
  | _ => none

end Handler

/-- A captured segment as the router hands it over; one that is no text is refused. -/
def capturedText (seg : String) : Option String :=
  String.fromUTF8? ⟨(unescape 0x2B (utf8 seg)).toArray⟩

/-- The (context, subject) a handler derives from its captured name, if it accepts it. -/
def Handler.derives (h : Handler) (seg : String) : Option (String × String) := do
  let naming ← h.naming
  let name ← capturedText seg
  match naming with
  | .subject =>
      let q := QualifiedSubject.parse name
      some (q.context, q.subject)
  | .context => (normalizeContext name).map (·, "")

/-- The (context, subject) the role decision is about. -/
def Target.names : Target → Option (String × String)
  | .subject q => some (q.context, q.subject)
  | .context ctx => some (ctx, "")
  | .listing | .global => none

end SchemaRegistry.Authz

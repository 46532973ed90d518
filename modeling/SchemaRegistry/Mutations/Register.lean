import SchemaRegistry.Mutations.Plan

/-!
`POST /subjects/{subject}/versions`. A schema already registered answers with its id
and writes nothing; an empty schema inherits the latest version's; a normal
registration must be compatible with what came before and gets the next version
and the next id; an import carries its own id and version, replaces the version
that occupied that number, and must not point an id in use at new content.
-/

namespace SchemaRegistry

variable (srv : Server)

structure RegisterSchema where
  subject : QualifiedSubject
  draft : Draft
  normalizeRequested : Bool

namespace RegisterSchema

/-- A subject name that cannot hold a schema is refused before anything else. -/
def new (subject : String) (req : RegisterSchemaRequest) (normalize : Bool) :
    ApiResult RegisterSchema :=
  if isValidSubject subject then
    .ok ⟨QualifiedSubject.parse subject, Draft.ofRequest req, normalize⟩
  else .error (.invalidSubject subject)

def normalize (m : RegisterSchema) (view : ReadView) : Bool :=
  m.normalizeRequested || normalizeInScope srv view.reader m.subject

/-- One more than the newest version, deleted or not. -/
def newVersion (versions : List (UInt32 × VersionRecord)) : UInt32 :=
  match (versions.map Prod.fst).max? with
  | some m => m + 1
  | none => 1

/-- What the plan knows once the schema is canonical and not already answered. -/
structure Resolved (Inner : Type) where
  draft : Draft
  modified : Bool
  canon : Canon Inner
  /-- The id asked for, or found under the content hash; negative when there is none. -/
  schemaId : Int32

def answer (modified : Bool) (e : Entity) : RegisterResponse :=
  if modified then .full e else .ofId e.id

/-- The version under which a subject already holds this content, if any. -/
def findEqual {Inner : Type} (r : Reader) (q : QualifiedSubject) (c : Canon Inner)
    (schemaId : Int32) :
    List (UInt32 × VersionRecord) → ApiResult (Option (UInt32 × VersionRecord))
  | [] => .ok none
  | (v, vr) :: rest => do
      if schemaId ≥ 0 && schemaId.toUInt32 != vr.id then findEqual r q c schemaId rest
      else
        let e ← entity r q v vr
        if canLookup c e then .ok (some (v, vr)) else findEqual r q c schemaId rest

/-- The live versions of a subject, newest first. -/
def undeleted (r : Reader) (q : QualifiedSubject) : List (UInt32 × VersionRecord) :=
  (r.listVersions q.context q.subject).reverse.filter fun p => !p.2.deleted

/-- A request without a version looks for an equal live one. -/
def equalVersion {Inner : Type} (r : Reader) (q : QualifiedSubject) (d : Draft) (c : Canon Inner)
    (schemaId : Int32) : ApiResult (Option (UInt32 × VersionRecord)) :=
  if d.version == 0 then findEqual r q c schemaId (undeleted r q) else .ok none

/-- An import takes what it is given; a normal registration inherits. -/
def inherited (m : RegisterSchema) (view : ReadView) : ApiResult (Draft × Bool) :=
  let r := view.reader
  let q := m.subject
  if modeFor r (.subject q) == .«import» then .ok (m.draft, false)
  else populateFromPrevious r q (configInScope srv r q) m.draft (undeleted r q).head?
    (newVersion (r.listVersions q.context q.subject))

/-- Everything before the checks on a new version: either the answer for content that is
already there, or what is to be stored. -/
def resolve (m : RegisterSchema) (view : ReadView) :
    ApiResult (RegisterResponse ⊕ Resolved srv.fmt.Inner) := do
  let r := view.reader
  let q := m.subject
  let (d, modified) ← m.inherited srv view
  let canon ← canonicalize srv r q d (d.id < 0) (m.normalize srv view)
  match canon with
  -- Only an import gets here: a normal registration of nothing was refused above.
  | none => .error ⟨42201, "Empty schema"⟩
  | some c =>
      let hit := (hashLookup srv r q c).filter fun h => d.id < 0 || d.id.toUInt32 == h.1
      match hit with
      | some (id, some (v, vr)) =>
          if d.version == 0 && !vr.deleted then
            .ok (.inl (answer modified (.fromCanon q v id c)))
          else afterHash r q d modified c id.toInt32
      | some (id, none) => afterHash r q d modified c id.toInt32
      | none => afterHash r q d modified c d.id
where
  /-- The search for an equal version, once the hash index has had its say. -/
  afterHash (r : Reader) (q : QualifiedSubject) (d : Draft) (modified : Bool)
      (c : Canon srv.fmt.Inner) (schemaId : Int32) :
      ApiResult (RegisterResponse ⊕ Resolved srv.fmt.Inner) := do
    match ← equalVersion r q d c schemaId with
    | some (v, vr) => .ok (.inl (answer modified (.fromCanon q v vr.id c)))
    | none => .ok (.inr ⟨d, modified, c, schemaId⟩)

/-- A normal registration must be compatible with the live versions. -/
def checkCompatible (view : ReadView) (q : QualifiedSubject) (c : Canon srv.fmt.Inner) :
    ApiResult Unit := do
  let r := view.reader
  let cfg := configInScope srv r q
  let level := cfg.compatibilityLevel.getD srv.defaultCompatibility
  let olds ← compatCandidates r q cfg c.metadata
  let msgs ← checkCompatibility srv (parseAfresh srv r) q.context c.parsed olds level cfg
  if msgs.isEmpty then .ok () else .error (.incompatible q.qualified msgs)

/-- The version number the row gets. -/
def chooseVersion («import» : Bool) (d : Draft) (next : UInt32) : ApiResult UInt32 :=
  if d.version ≤ 0 then .ok next
  else if next ≠ d.version.toUInt32 && !«import» then
    .error ⟨42201, "Version is not one more than previous version"⟩
  else .ok d.version.toUInt32

/-- The id the row gets. An id in use is a promise about content. -/
def chooseId (r : Reader) (ctx fp : String) (schemaId : Int32) : ApiResult UInt32 :=
  if schemaId ≥ 0 then
    let id := schemaId.toUInt32
    match if (r.idUsages ctx id).isEmpty then none else r.getSchema ctx id with
    | some existing =>
        if existing.fingerprint ≠ fp then
          .error (.operationNotPermitted
            ("Overwrite new schema with id " ++ toString id ++ " is not permitted."))
        else .ok id
    | none => .ok id
  else .ok (r.nextId ctx)

/-- The content to store: a body already there under the same fingerprint is kept. -/
def bodyFor (view : ReadView) (ctx : String) (id : UInt32) (c : Canon srv.fmt.Inner) :
    SchemaRecord :=
  let fresh : SchemaRecord :=
    { schemaType := c.schemaType
      schema := c.text
      references := c.refs
      metadata := c.metadata
      ruleSet := c.ruleSet
      fingerprint := c.fingerprint
      schemaFingerprint :=
        SchemaRegistry.fingerprint srv.fmt c.schemaType c.parsed.normalized c.refs none none
      guid := view.newGuid }
  match view.reader.getSchema ctx id with
  | some existing => if existing.fingerprint = c.fingerprint then existing else fresh
  | none => fresh

/-- The rows a registration replaces: the one under its version number, then older
soft-deleted ones that carry the same id. -/
def replaced (r : Reader) (q : QualifiedSubject) (version id : UInt32) :
    List Write × List LogEvent :=
  let versions := r.listVersions q.context q.subject
  let old := (versions.find? fun p => p.1 == version).toList
  let stale := versions.filter fun p => p.2.deleted && p.2.id == id && p.1 < version
  let staleKeys := stale.map fun p => (q.subject, p.1)
  let olds := hardDeleteAll r (old.map fun p => (q, version, p.2)) []
  let stales := hardDeleteAll r (stale.map fun p => (q, p.1, p.2)) staleKeys
  (olds.1 ++ stales.1, olds.2 ++ stales.2)

/-- The rows a registration adds. -/
def added (view : ReadView) (q : QualifiedSubject) (version id : UInt32)
    (c : Canon srv.fmt.Inner) : List Write :=
  [Write.putSchema q.context id (bodyFor srv view q.context id c) true]
    ++ (if id ≥ view.reader.nextId q.context then [.setNextId q.context (id + 1)] else [])
    ++ [.putVersion q.context q.subject version ⟨id, false, view.now⟩]
    ++ c.targets.map fun (t, v) => .putRefby t.context t.subject v id

/-- All that a registration writes. -/
abbrev written (view : ReadView) (q : QualifiedSubject) (version id : UInt32)
    (c : Canon srv.fmt.Inner) : List Write :=
  (replaced view.reader q version id).1 ++ added srv view q version id c

def plan (m : RegisterSchema) (view : ReadView) : ApiResult (Plan RegisterResponse) := do
  let r := view.reader
  let q := m.subject
  let «import» := modeFor r (.subject q) == .«import»
  match ← m.resolve srv view with
  | .inl out => .ok { output := out }
  | .inr x =>
      if !«import» then checkCompatible srv view q x.canon
      let next := newVersion (r.listVersions q.context q.subject)
      let version ← chooseVersion «import» x.draft next
      let id ← chooseId r q.context x.canon.fingerprint x.schemaId
      let gone := replaced r q version id
      .ok
        { writes := gone.1 ++ added srv view q version id x.canon
          events := gone.2 ++ [⟨q.context, q.subject, version, id, .register⟩]
          output := answer x.modified (.fromCanon q version id x.canon) }

def mutation (m : RegisterSchema) : Mutation RegisterResponse where
  target := .subject m.subject
  -- An id in the request is what makes this an import.
  intent := if m.draft.id ≥ 0 then .«import» else .write
  fastPath view := registerFastPath srv view.reader m.subject m.draft (m.normalize srv view)
  plan := m.plan srv

end RegisterSchema

end SchemaRegistry

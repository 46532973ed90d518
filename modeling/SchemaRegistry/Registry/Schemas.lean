import SchemaRegistry.Registry.Resolution

/-!
Turning a request's schema into something storable: reference resolution,
canonical and normalized forms, the content-hash lookup, and what a registration
inherits from the previous version.
-/

namespace SchemaRegistry

/-! ### Finding a version -/

/-- A version selector: a number or `latest`. -/
inductive VersionSpec where
  | latest
  | exact (n : UInt32)
  deriving DecidableEq, Repr

/-- As printed in messages: `latest` is -1. -/
def VersionSpec.display : VersionSpec → String
  | .latest => "-1"
  | .exact n => toString n

/-- `latest` is the newest live version. -/
def getExact (r : Reader) (q : QualifiedSubject) (spec : VersionSpec) (deleted : Bool) :
    Option (UInt32 × VersionRecord) :=
  let vs := r.listVersions q.context q.subject
  match spec with
  | .latest => vs.reverse.find? fun p => !p.2.deleted
  | .exact n => vs.find? fun p => p.1 == n && (deleted || !p.2.deleted)

def entity (r : Reader) (q : QualifiedSubject) (version : UInt32) (vr : VersionRecord) :
    ApiResult Entity :=
  match r.getSchema q.context vr.id with
  | some rec => .ok (.stored q version vr.id rec)
  | none => .error .schemaNotFound

/-! ### References -/

/-- A reference stays in its context unless its subject is qualified. -/
def refTarget (ctx : String) (sr : SchemaReference) : QualifiedSubject :=
  let q := QualifiedSubject.parse sr.subject
  if startsQualified sr.subject then q else ⟨ctx, q.subject⟩

/-- The version a stored reference points at (`version.max(1) as u32`). -/
def SchemaReference.target (sr : SchemaReference) : UInt32 := (max sr.version 1).toUInt32

def noReferenceFound (q : QualifiedSubject) (version : String) : String :=
  "No schema reference found for subject \"" ++ q.qualified ++ "\" and version " ++ version

/-- What resolution has seen and produced so far: the versions visited, and the
referenced texts, dependencies first. -/
structure Collected where
  visited : List (String × String × UInt32) := []
  out : List ResolvedRef := []

/-- Collect the closure of one reference. `levels` counts down from 65: a chain
deeper than 64 is refused. -/
def collectRef (r : Reader) : Nat → String → QualifiedSubject → UInt32 → Collected →
    ApiResult Collected
  | 0, _, _, _, _ => .error (.invalidSchema "reference chain too deep")
  | levels + 1, name, q, version, acc =>
      if (q.context, q.subject, version) ∈ acc.visited then .ok acc
      else
        match r.getVersion q.context q.subject version with
        | none => .error ⟨42201, noReferenceFound q (toString version)⟩
        | some vr =>
            match r.getSchema q.context vr.id with
            | none => .error .schemaNotFound
            | some rec => do
                let acc := { acc with visited := (q.context, q.subject, version) :: acc.visited }
                let acc ← rec.references.foldlM (fun acc sr =>
                  collectRef r levels sr.name (refTarget q.context sr) sr.target acc) acc
                .ok { acc with out := acc.out ++ [⟨name, rec.schema⟩] }

def maxLevels : Nat := 65

/-- What one request reference resolves to. -/
structure ResolvedReference where
  concrete : SchemaReference
  target : QualifiedSubject × UInt32

/-- The version a request reference selects. -/
def referenceSpec (version : Int32) : Except String VersionSpec :=
  if version = -1 then .ok .latest
  else if version > 0 then .ok (.exact version.toUInt32)
  else .error ("io.confluent.kafka.schemaregistry.exceptions.InvalidVersionException: "
    ++ toString version.toInt)

/-- One request reference: every member must be there and the version must exist;
soft-deleted versions resolve. -/
def resolveReference (r : Reader) (ctx : String) (rin : RefIn) (acc : Collected) :
    Except String (ResolvedReference × Collected) :=
  if rin.null then
    .error "Cannot invoke \"io.confluent.kafka.schemaregistry.client.rest.entities.SchemaReference.getName()\" because \"reference\" is null"
  else
    match rin.name, rin.subject, rin.version with
    | some name, some subject, some version => do
        let q := refTarget ctx ⟨name, subject, version⟩
        let spec ← referenceSpec version
        match getExact r q spec true with
        | none => .error (noReferenceFound q (toString version.toInt))
        | some (v, _) =>
            match collectRef r maxLevels name q v acc with
            | .error e => .error e.message
            | .ok acc => .ok (⟨⟨name, subject, v.toInt32⟩, (q, v)⟩, acc)
    | _, _, _ => .error ("Invalid reference: " ++ rin.display)

def resolveLoop (r : Reader) (ctx : String) :
    List RefIn → Collected → Except String (List ResolvedReference × Collected)
  | [], acc => .ok ([], acc)
  | rin :: rest, acc => do
      let (one, acc) ← resolveReference r ctx rin acc
      let (more, acc) ← resolveLoop r ctx rest acc
      .ok (one :: more, acc)

/-- The concrete references, the transitive closure for the parsers, and the direct
targets. -/
def resolveReferences (r : Reader) (ctx : String) (refs : List RefIn) :
    Except String (List SchemaReference × List ResolvedRef × List (QualifiedSubject × UInt32)) := do
  let (found, acc) ← resolveLoop r ctx refs {}
  .ok (found.map (·.concrete), acc.out, found.map (·.target))

/-- Resolve the references of a stored schema. -/
def resolveStored (r : Reader) (ctx : String) (refs : List SchemaReference) :
    ApiResult (List ResolvedRef) :=
  match resolveReferences r ctx (refs.map RefIn.ofReference) with
  | .ok (_, resolved, _) => .ok resolved
  | .error e => .error (.internal e)

/-! ### Canonical forms -/

variable (srv : Server)

/-- Parse, validate and (optionally) normalize a request schema; `none` for an empty one. -/
def canonicalize (r : Reader) (q : QualifiedSubject) (d : Draft) (isNew normalize : Bool) :
    ApiResult (Option (Canon srv.fmt.Inner)) :=
  match d.schema.filter fun s => !isBlank s with
  | none => .ok none
  | some text => do
      let schemaType ← SchemaType.parse d.schemaType
      match resolveReferences r q.context d.refs with
      | .error detail => .error (d.invalid q .parse detail)
      | .ok (refs, resolved, targets) =>
          match srv.fmt.parseWith schemaType text resolved (normalize && isNew) with
          | .error e => .error (d.invalid q e.kind e.message)
          | .ok parsed =>
              match if normalize then parsed.normalizeError else none with
              | some e => .error (d.invalid q .validate e)
              | none =>
                  let text := if normalize then parsed.normalized else parsed.canonical
                  .ok (some ⟨schemaType, text, refs, targets, d.metadata, d.ruleSet, parsed⟩)

/-- The id holding this exact content in the context, if any subject-version still uses
it, and this subject's newest version of it. -/
def hashLookup (r : Reader) (q : QualifiedSubject) (c : Canon srv.fmt.Inner) :
    Option (UInt32 × Option (UInt32 × VersionRecord)) := do
  let id ← r.idForFingerprint q.context c.fingerprint
  let usages := r.idUsages q.context id
  if usages.isEmpty then none
  else
    let v := ((usages.filter fun p => p.1 == q.subject).map Prod.snd).max?
    some (id, v.bind fun v => (r.getVersion q.context q.subject v).map (v, ·))

/-- Parse a stored schema with what its references resolve to now. -/
def parseRecord (r : Reader) (ctx : String) (rec : SchemaRecord) :
    ApiResult (ParsedSchema srv.fmt.Inner) := do
  let resolved ← resolveStored r ctx rec.references
  match srv.fmt.parseWith rec.schemaType rec.schema resolved false with
  | .ok parsed => .ok parsed
  | .error e => .error (.internal ("stored schema no longer parses: " ++ e.message))

/-- An empty schema re-uses the latest version's; the flag says whether it did. -/
def inheritSchema (d : Draft) (previous : Option Entity) : ApiResult (Draft × Bool) :=
  if d.schema.all isBlank then
    match previous with
    | none => .error ⟨42201, "Empty schema"⟩
    | some p => .ok ({ d with
        schema := some p.schema
        schemaType := some p.schemaType.asStr
        refs := p.references.map RefIn.ofReference }, true)
  else .ok (d, false)

/-- Metadata and rules are inherited from the previous version and wrapped with the
configured defaults and overrides. -/
def inheritMetadata (cfg : ConfigRecord) (d : Draft) (populated : Bool) (previous : Option Entity)
    (newVersion : UInt32) : Draft × Bool :=
  let specificMeta := d.metadata.or (previous.bind (·.metadata))
  let metadata := mergeMetadata [cfg.defaultMetadata, specificMeta, cfg.overrideMetadata]
  let specificRules := d.ruleSet.or (previous.bind (·.ruleSet))
  let ruleSet := mergeRuleSets [cfg.defaultRuleSet, specificRules, cfg.overrideRuleSet]
  let metadata :=
    if d.version ≠ 0 || (metadataProperty metadata "confluent:version").isSome then
      withConfluentVersion metadata newVersion
    else metadata
  if metadata.isSome || ruleSet.isSome then ({ d with metadata, ruleSet }, true)
  else (d, populated)

/-- What a registration inherits from the latest live version. The flag says whether the
request was modified. -/
def populateFromPrevious (r : Reader) (q : QualifiedSubject) (cfg : ConfigRecord) (d : Draft)
    (latestLive : Option (UInt32 × VersionRecord)) (newVersion : UInt32) :
    ApiResult (Draft × Bool) := do
  let previous ← latestLive.mapM fun (v, vr) => entity r q v vr
  let (d, populated) ← inheritSchema d previous
  .ok (inheritMetadata cfg d populated previous newVersion)

end SchemaRegistry

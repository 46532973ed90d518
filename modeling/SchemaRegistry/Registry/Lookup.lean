import SchemaRegistry.Registry.Schemas
import Mathlib.Data.List.Sort

/-!
Finding a schema, deciding whether a new one may follow it, and the listings the
verbs consult: who still references a version, and which subjects exist.
-/

namespace SchemaRegistry

variable (srv : Server)

/-! ### Lookup under a subject -/

/-- The first version, in the order given, that the request can be looked up as. -/
def firstLookup {Inner : Type} (r : Reader) (q : QualifiedSubject) (c : Canon Inner) :
    List (UInt32 × VersionRecord) → ApiResult (Option Entity)
  | [] => .ok none
  | (v, vr) :: rest => do
      let prev ← entity r q v vr
      if canLookup c prev then .ok (some prev) else firstLookup r q c rest

def lookupUnderSubject (r : Reader) (q : QualifiedSubject) (d : Draft)
    (normalize lookupDeleted latestOnly : Bool) : ApiResult (Option Entity) := do
  let some c ← canonicalize srv r q d false normalize | .ok none
  let hit := match if latestOnly then none else hashLookup srv r q c with
    | some (id, some (v, vr)) => if lookupDeleted || !vr.deleted then some (v, id) else none
    | _ => none
  match hit with
  | some (v, id) => .ok (some (.fromCanon q v id c))
  | none =>
      let newestFirst := (r.listVersions q.context q.subject).reverse
      if latestOnly then
        firstLookup r q c (newestFirst.find? fun p => !p.2.deleted).toList
      else firstLookup r q c (newestFirst.filter fun p => lookupDeleted || !p.2.deleted)

/-- The check a registration makes before it takes a lock. -/
def registerFastPath (r : Reader) (q : QualifiedSubject) (d : Draft) (normalize : Bool) :
    ApiResult (Option RegisterResponse) := do
  if (configInScope srv r q).hasDefaultsOrOverrides then .ok none
  else
    let isLatest := d.version == -1
    let some existing ← lookupUnderSubject srv r q d normalize false isLatest | .ok none
    if d.version == 0 || isLatest then
      if d.id < 0 || d.id.toUInt32 == existing.id then .ok (some (.ofId existing.id))
      else .ok none
    else if d.id ≥ 0 && existing.id == d.id.toUInt32 && d.version > 0 then
      if existing.version == d.version.toUInt32 then .ok (some (.full existing))
      else
        match getExact r q (.exact d.version.toUInt32) false with
        | none => .ok none
        | some (v, vr) => do
            let older ← entity r q v vr
            if older.id == existing.id
                && older.fingerprint srv.fmt == existing.fingerprint srv.fmt then
              .ok (some (.full older))
            else .ok none
    else .ok none

/-! ### Compatibility -/

/-- A live version considered for a compatibility check. -/
structure OldVersion where
  version : UInt32
  id : UInt32
  body : SchemaRecord

/-- The bodies of the versions to compare with; a compatibility group keeps only versions of the
same group. -/
def oldVersions (r : Reader) (q : QualifiedSubject) (cfg : ConfigRecord) (newMetadata : Option Json)
    (previous : List (UInt32 × VersionRecord)) : ApiResult (List OldVersion) := do
  let olds ← previous.mapM fun (v, vr) =>
    match r.getSchema q.context vr.id with
    | some rec => .ok (OldVersion.mk v vr.id rec)
    | none => .error ApiError.schemaNotFound
  match cfg.compatibilityGroup with
  | none => .ok olds
  | some group => .ok (olds.filter fun o =>
      Json.eqvOpt (metadataProperty o.body.metadata group) (metadataProperty newMetadata group))

/-- Live versions of a subject, newest first. -/
def liveVersions (r : Reader) (q : QualifiedSubject) : List (UInt32 × VersionRecord) :=
  (r.listVersions q.context q.subject).reverse.filter fun p => !p.2.deleted

/-- The live versions that take part in compatibility checks. -/
def compatCandidates (r : Reader) (q : QualifiedSubject) (cfg : ConfigRecord)
    (newMetadata : Option Json) : ApiResult (List OldVersion) :=
  oldVersions r q cfg newMetadata (liveVersions r q)

/-- `parse_record`: it goes through a cache, so that the answer for an id need not be the parse of
the body. -/
abbrev RecordParser (Inner : Type) :=
  String → UInt32 → SchemaRecord → ApiResult (ParsedSchema Inner)

/-- With nothing in the cache. -/
def parseAfresh (r : Reader) : RecordParser srv.fmt.Inner := fun ctx _ => parseRecord srv r ctx

/-- Check `new` against `olds` (newest first) at `level`, with the server's trailer on
failure. -/
def checkCompatibility (parse : RecordParser srv.fmt.Inner) (ctx : String)
    (new : ParsedSchema srv.fmt.Inner) (olds : List OldVersion) (level : CompatibilityLevel)
    (cfg : ConfigRecord) : ApiResult (List String) := do
  if level = .none || olds.isEmpty then .ok []
  else
    let needed := if level.transitive then olds.length else 1
    let previous ← (olds.take needed).mapM fun o => do
      let parsed ← parse ctx o.id o.body
      .ok (Previous.mk o.version parsed)
    let msgs := checkLevel srv.fmt new previous level
    if msgs.isEmpty then .ok []
    else .ok (msgs ++ ["\x7bvalidateFields: '" ++ toString (cfg.validateFields.getD false)
      ++ "', compatibility: '" ++ level.asStr ++ "'\x7d"])

/-- The versions a dry run compares with: the one asked for, or every live one, newest first. -/
def dryRunVersions (r : Reader) (q : QualifiedSubject) :
    Option VersionSpec → ApiResult (List (UInt32 × VersionRecord))
  | some spec =>
      match getExact r q spec false with
      | some found => .ok [found]
      | none => if spec = .latest then .ok [] else .error (.versionNotFound spec.display)
  | none => .ok (liveVersions r q)

/-- `POST /compatibility/subjects/{subject}/versions[/{version}]`: the incompatibilities a
schema would have. With `verbose`, an invalid schema is reported as one. -/
def testCompatibility (r : Reader) (subject : String) (version : Option VersionSpec)
    (req : RegisterSchemaRequest) (normalize verbose : Bool) : ApiResult (List String) := do
  let q := QualifiedSubject.parse subject
  let previous ← dryRunVersions r q version
  let result : ApiResult (List String) := do
    let some c ← canonicalize srv r q (Draft.ofRequest req) true
        (normalize || normalizeInScope srv r q)
      | .error ⟨42201, "Empty schema"⟩
    let cfg := configInScope srv r q
    let olds ← oldVersions r q cfg c.metadata previous
    let level := cfg.compatibilityLevel.getD srv.defaultCompatibility
    checkCompatibility srv (parseAfresh srv r) q.context c.parsed olds level cfg
  match result with
  | .ok msgs => .ok msgs
  | .error e => if e.code = 42201 && verbose then .ok [e.message] else .error e

/-! ### Listings -/

/-- Ids of live schemas referencing (subject, version): those the index names that a live
version of the target's own context uses. The index lists ids in order without repetition, so the
source's final sort and dedup change nothing. -/
def liveReferrers (r : Reader) (ctx subject : String) (version : UInt32) : List UInt32 :=
  (r.referencedBy ctx subject version).filter fun id =>
    (r.idUsages ctx id).any fun (s, v) =>
      match r.getVersion ctx s v with
      | some vr => !vr.deleted
      | none => false

def checkNotReferenced (r : Reader) (q : QualifiedSubject) (version : UInt32) : ApiResult Unit :=
  if (liveReferrers r q.context q.subject version).isEmpty then .ok ()
  else .error (.referenceExists
    ("One or more references exist to the schema \x7bmagic=1,keytype=SCHEMA,subject="
      ++ q.qualified ++ ",version=" ++ toString version ++ "\x7d."))

def anyVersion (deleted : Bool) (vs : List (UInt32 × VersionRecord)) : Bool :=
  vs.any fun p => deleted || !p.2.deleted

/-- The subject has a (live) version; a context-only name matches any subject in the
context. -/
def hasSubjects (r : Reader) (q : QualifiedSubject) (deleted : Bool) : Bool :=
  anyVersion deleted (r.listVersions q.context q.subject)
    || q.isContextOnly && (r.listSubjectNames q.context).any fun name =>
      anyVersion deleted (r.listVersions q.context name)

/-- Any subject anywhere. -/
def hasAnySubject (r : Reader) (deleted : Bool) : Bool :=
  r.listContexts.any fun ctx => (r.listSubjectNames ctx).any fun name =>
    anyVersion deleted (r.listVersions ctx name)

/-- Contexts matched by a (possibly wildcard) context name. -/
def contextsMatching (r : Reader) (ctx : String) : List String :=
  if ctx = wildcardContext then r.listContexts else [ctx]

/-- `str::cmp`, as an order to sort by. -/
def StrLe (a b : String) : Prop := (compare a b).isLE = true

instance : DecidableRel StrLe := fun a b => inferInstanceAs (Decidable ((compare a b).isLE = true))

/-- The subjects under a name that may stop short (every subject of every context when absent),
in order. -/
def listSubjects (r : Reader) (within : Option String) (deleted deletedOnly : Bool) : List String :=
  let p := match within with
    | some s => QualifiedSubject.parse s
    | none => ⟨wildcardContext, ""⟩
  ((contextsMatching r p.context).flatMap fun ctx =>
    ((r.listSubjectNames ctx).filter fun name =>
      let versions := r.listVersions ctx name
      let live := versions.any fun v => !v.2.deleted
      p.subject.toList.isPrefixOf name.toList
        && if deletedOnly then !live && !versions.isEmpty
          else live || (deleted && !versions.isEmpty)).map (qualify ctx)).insertionSort StrLe

/-- The versions of a subject by number. -/
def listVersionNumbers (r : Reader) (subject : String) (deleted deletedOnly : Bool) :
    ApiResult (List UInt32) :=
  let q := QualifiedSubject.parse subject
  if hasSubjects r q (deleted || deletedOnly) then
    .ok (((r.listVersions q.context q.subject).filter fun p =>
      if deletedOnly then p.2.deleted else deleted || !p.2.deleted).map Prod.fst)
  else .error (.subjectNotFound q.qualified)

/-! ### Lookup across contexts -/

/-- The same name in other contexts; one in which the schema is invalid is passed over. -/
def lookupInContexts (r : Reader) (subject : String) (d : Draft) (normalize deleted : Bool) :
    List String → ApiResult (Option Entity)
  | [] => .ok none
  | ctx :: rest =>
      match lookupUnderSubject srv r ⟨ctx, subject⟩ d normalize deleted false with
      | .ok (some e) => .ok (some e)
      | .ok none => lookupInContexts r subject d normalize deleted rest
      | .error e =>
          if e.code = 42201 then lookupInContexts r subject d normalize deleted rest else .error e

/-- An unqualified subject is also looked up under the same name in every other context. -/
def lookupUsingContexts (r : Reader) (q : QualifiedSubject) (d : Draft) (normalize deleted : Bool) :
    ApiResult (Option Entity) := do
  match ← lookupUnderSubject srv r q d normalize deleted false with
  | some e => .ok (some e)
  | none =>
      let others := r.listContexts.filter (· != defaultContext)
      if q.context ≠ defaultContext then .ok none
      else lookupInContexts srv r q.subject d normalize deleted others

/-- `POST /subjects/{subject}`: the version under which a schema is registered. -/
def lookup (r : Reader) (subject : String) (req : RegisterSchemaRequest)
    (normalize deleted : Bool) : ApiResult Entity := do
  let q := QualifiedSubject.parse subject
  match ← lookupUsingContexts srv r q (Draft.ofRequest req)
      (normalize || normalizeInScope srv r q) deleted with
  | some e => .ok e
  | none => .error (if hasSubjects r q deleted then .schemaNotFound
      else .subjectNotFound q.qualified)

/-! ### Reading a version -/

/-- What the Protobuf format offers a `format` parameter: the text without its extensions, and
the serialized descriptor. -/
structure Rendering (Inner : Type) where
  withoutExtensions : String → Option String
  serialized : Inner → Option String

variable (out : Rendering srv.fmt.Inner)

/-- Apply a `format` parameter; only Protobuf texts change. -/
def formatted (parse : RecordParser srv.fmt.Inner) (ctx : String) (id : UInt32)
    (rec : SchemaRecord) (format : String) : ApiResult String :=
  if rec.schemaType = .protobuf then
    match format with
    | "ignore_extensions" => .ok ((out.withoutExtensions rec.schema).getD rec.schema)
    | "serialized" => do
        let parsed ← parse ctx id rec
        .ok ((out.serialized parsed.inner).getD rec.schema)
    | _ => .ok rec.schema
  else .ok rec.schema

/-- A blank `format` is none. -/
def formatAsked (format : Option String) : Option String := format.filter fun f => !isBlank f

/-- An unqualified subject not found in the default context is looked for under the same name
in every other context. -/
def getUsingContexts (r : Reader) (q : QualifiedSubject) (spec : VersionSpec) (deleted : Bool) :
    Option (QualifiedSubject × UInt32 × VersionRecord) :=
  match getExact r q spec deleted with
  | some found => some (q, found)
  | none =>
      if q.context ≠ defaultContext then none
      else (r.listContexts.filter (· != defaultContext)).findSome? fun ctx =>
        (getExact r ⟨ctx, q.subject⟩ spec deleted).map ((⟨ctx, q.subject⟩ : QualifiedSubject), ·)

def versionOrError (r : Reader) (subject : String) (spec : VersionSpec) (deleted : Bool) :
    ApiResult (QualifiedSubject × UInt32 × VersionRecord) :=
  let q := QualifiedSubject.parse subject
  match getUsingContexts r q spec deleted with
  | some found => .ok found
  | none =>
      .error (if hasSubjects r q deleted then .versionNotFound spec.display
        else .subjectNotFound q.qualified)

/-- A version as it is stored. -/
def getVersion (r : Reader) (subject : String) (spec : VersionSpec) (deleted : Bool) :
    ApiResult Entity := do
  let (q, v, vr) ← versionOrError r subject spec deleted
  match r.getSchema q.context vr.id with
  | none => .error .schemaNotFound
  | some rec => .ok (.stored q v vr.id rec)

/-- `GET /subjects/{subject}/versions/{version}`. -/
def getVersionFormatted (parse : RecordParser srv.fmt.Inner) (r : Reader) (subject : String)
    (spec : VersionSpec) (deleted : Bool) (format : Option String) : ApiResult Entity := do
  let (q, v, vr) ← versionOrError r subject spec deleted
  match r.getSchema q.context vr.id with
  | none => .error .schemaNotFound
  | some rec =>
      let view := Entity.stored q v vr.id rec
      match formatAsked format with
      | none => .ok view
      | some f => do
          let schema ← formatted srv out parse q.context vr.id rec f
          .ok { view with schema }

/-- `POST /subjects/{subject}` with its `format` parameter. -/
def lookupFormatted (parse : RecordParser srv.fmt.Inner) (r : Reader) (subject : String)
    (req : RegisterSchemaRequest) (normalize deleted : Bool) (format : Option String) :
    ApiResult Entity := do
  let view ← lookup srv r subject req normalize deleted
  match formatAsked format with
  | none => .ok view
  | some f =>
      let q := QualifiedSubject.parse view.subject
      match r.getSchema q.context view.id with
      | none => .ok view
      | some rec => do
          let schema ← formatted srv out parse q.context view.id rec f
          .ok { view with schema }

end SchemaRegistry

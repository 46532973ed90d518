import SchemaRegistry.Snapshot
import SchemaRegistry.Schema.Formats

/-!
The shapes a request arrives in and an answer goes back in, and the small
comparisons made between them. `Draft` is a registration as sent, `Canon` is that
schema once canonicalized (or normalized), `Entity` is a version as stored.
-/

namespace SchemaRegistry

/-- What a server is configured with. -/
structure Server where
  fmt : Formats
  defaultCompatibility : CompatibilityLevel
  /-- Server-wide default for `normalize`. -/
  normalizeDefault : Bool

/-- A consistent view of the registry for one request: one metadata snapshot, and the
schema bodies read through to the store. -/
structure Reader where
  snap : Snapshot
  bodies : String → UInt32 → Option SchemaRecord

namespace Reader

def getSchema (r : Reader) (ctx : String) (id : UInt32) : Option SchemaRecord := r.bodies ctx id
def getVersion (r : Reader) := r.snap.getVersion
def listVersions (r : Reader) := r.snap.listVersions
def listSubjectNames (r : Reader) := r.snap.listSubjectNames
def idUsages (r : Reader) := r.snap.idUsages
def referencedBy (r : Reader) := r.snap.referencedBy
def idForFingerprint (r : Reader) := r.snap.idForFingerprint
def nextId (r : Reader) := r.snap.nextId
def listContexts (r : Reader) := r.snap.listContexts
def getConfig (r : Reader) := r.snap.getConfig
def getMode (r : Reader) := r.snap.getMode

end Reader

/-! ### Text helpers -/

/-- `char::is_whitespace`: the Unicode property White_Space. -/
def isWhitespace (c : Char) : Bool :=
  (9 ≤ c.val && c.val ≤ 13) || c.val == 32 || c.val == 0x85 || c.val == 0xA0 || c.val == 0x1680
    || (0x2000 ≤ c.val && c.val ≤ 0x200A) || c.val == 0x2028 || c.val == 0x2029
    || c.val == 0x202F || c.val == 0x205F || c.val == 0x3000

/-- `s.trim().is_empty()`. -/
def isBlank (s : String) : Bool := s.toList.all isWhitespace

/-- `str::parse::<u32>`: an optional `+` and decimal digits, in range. -/
def parseU32 (s : String) : Option UInt32 :=
  let digits := match s.toList with
    | '+' :: rest => rest
    | cs => cs
  if digits.isEmpty || !digits.all fun c => '0' ≤ c && c ≤ '9' then none
  else
    let n := digits.foldl (fun acc c => acc * 10 + (c.toNat - '0'.toNat)) 0
    if n < 2 ^ 32 then some (UInt32.ofNat n) else none

/-! ### Metadata -/

def metadataProperty (m : Option Json) (key : String) : Option Json := do
  (← (← m).get? "properties").get? key

def confluentVersion (m : Option Json) : Option String :=
  (metadataProperty m "confluent:version").bind Json.asStr

/-- `Metadata.removeConfluentVersion`, in canonical form. -/
def withoutConfluentVersion : Option Json → Option Json
  | some (.object members) =>
      match members.lookup "properties" with
      | some (.object props) =>
          let props := JsonMap.swapRemove props "confluent:version"
          if props.isEmpty then some (.object (JsonMap.swapRemove members "properties"))
          else some (.object (JsonMap.insert members "properties" (.object props)))
      | _ => some (.object members)
  | m => m

/-- Set `metadata.properties["confluent:version"]`. -/
def withConfluentVersion (metadata : Option Json) (version : UInt32) : Option Json :=
  let m := metadata.getD (.object [])
  let props := ((m.get? "properties").bind Json.asObject).getD []
  some (m.setMember "properties"
    (.object (JsonMap.insert props "confluent:version" (.string (toString version)))))

/-- Merge metadata objects: `tags` and `properties` merge key-wise, `sensitive` is a
set union. Later layers win. -/
def mergeMetadata (layers : List (Option Json)) : Option Json :=
  let present := (layers.filterMap id).filter fun v => !v.isNull
  if present.isEmpty then none
  else
    let merged (name : String) : JsonMap := present.foldl (fun acc m =>
      match (m.get? name).bind Json.asObject with
      | some t => JsonMap.extend acc t
      | none => acc) []
    let sensitive : List Json := present.foldl (fun acc m =>
      match (m.get? "sensitive").bind Json.asArray with
      | some vs => vs.foldl (fun acc v => if acc.any (Json.eqv v) then acc else acc ++ [v]) acc
      | none => acc) []
    let tags := merged "tags"
    let props := merged "properties"
    some (.object ((if tags.isEmpty then [] else [("tags", .object tags)])
      ++ (if props.isEmpty then [] else [("properties", .object props)])
      ++ (if sensitive.isEmpty then [] else [("sensitive", .array sensitive)])))

/-- One rule joins a list: a rule with the same `name` is replaced. -/
def mergeRule (rules : List Json) (rule : Json) : List Json :=
  let name := rule.get? "name"
  match rules.findIdx? fun x => name.isSome && Json.eqvOpt (x.get? "name") name with
  | some i => rules.set i rule
  | none => rules ++ [rule]

/-- Merge rule sets: rule lists concatenate, a later rule replaces one of its name. -/
def mergeRuleSets (layers : List (Option Json)) : Option Json :=
  let present := (layers.filterMap id).filter fun v => !v.isNull
  if present.isEmpty then none
  else
    let rulesOf (key : String) : List Json :=
      (present.flatMap fun rs => ((rs.get? key).bind Json.asArray).getD []).foldl mergeRule []
    some (.object (["migrationRules", "domainRules", "encodingRules"].filterMap fun key =>
      let rules := rulesOf key
      if rules.isEmpty then none else some (key, .array rules)))

/-! ### Java's string forms, for error messages -/

mutual

/-- `AbstractMap#toString` / `AbstractCollection#toString` of a JSON value. -/
def javaString : Json → String
  | .object members => "\x7b" ++ ", ".intercalate (javaMembers members) ++ "\x7d"
  | .array elems => "[" ++ ", ".intercalate (javaElems elems) ++ "]"
  | .string s => s
  | v => v.render

def javaElems : List Json → List String
  | [] => []
  | v :: vs => javaString v :: javaElems vs

def javaMembers : List (String × Json) → List String
  | [] => []
  | (name, v) :: rest => (name ++ "=" ++ javaString v) :: javaMembers rest

end

/-- `Metadata#toString`. -/
def javaMetadata : Option Json → String
  | none => "null"
  | some m =>
      let part (k empty : String) := ((m.get? k).map javaString).getD empty
      "Metadata\x7btags=" ++ part "tags" "\x7b\x7d" ++ ", properties="
        ++ part "properties" "\x7b\x7d"
        ++ ", sensitive=" ++ part "sensitive" "[]" ++ "\x7d"

def javaRule (x : Json) : String :=
  let f (n : String) := ((x.get? n).map javaString).getD "null"
  "Rule\x7bname=" ++ f "name" ++ ", doc=" ++ f "doc" ++ ", kind=" ++ f "kind"
    ++ ", mode=" ++ f "mode"
    ++ ", type='" ++ f "type" ++ "', tags='" ++ f "tags" ++ "', params='" ++ f "params"
    ++ "', expr='" ++ f "expr" ++ "', onSuccess='" ++ f "onSuccess" ++ "', onFailure='"
    ++ f "onFailure" ++ "', disabled='" ++ ((x.get? "disabled").map javaString).getD "false"
    ++ "'\x7d"

/-- `RuleSet#toString` (encoding rules are not printed). -/
def javaRuleSet : Option Json → String
  | none => "null"
  | some r =>
      let rules (k : String) :=
        match (r.get? k).bind Json.asArray with
        | some a => "[" ++ ", ".intercalate (a.map javaRule) ++ "]"
        | none => "[]"
      "Rules\x7bmigrationRules=" ++ rules "migrationRules" ++ ", domainRules="
        ++ rules "domainRules" ++ "\x7d"

/-! ### Drafts -/

/-- A schema entity while a request is processed. -/
structure Draft where
  schema : Option String
  /-- As sent; `none` is AVRO. -/
  schemaType : Option String
  refs : List RefIn
  metadata : Option Json
  ruleSet : Option Json
  /-- 0 when not given. -/
  version : Int32
  /-- -1 when not given. -/
  id : Int32

namespace Draft

def ofRequest (r : RegisterSchemaRequest) : Draft where
  schema := r.schema
  schemaType := r.schemaType
  refs := r.references.getD []
  metadata := r.metadata
  ruleSet := r.ruleSet
  version := r.version.getD 0
  id := r.id.getD (-1)

def refsString (d : Draft) : String := "[" ++ ", ".intercalate (d.refs.map RefIn.display) ++ "]"

/-- `Schema#toString`. -/
def entityString (d : Draft) (q : QualifiedSubject) : String :=
  "\x7bsubject=" ++ q.qualified ++ ",version=" ++ toString d.version.toInt ++ ",id="
    ++ toString d.id.toInt ++ ",schemaType=" ++ d.schemaType.getD "AVRO" ++ ",references="
    ++ d.refsString ++ ",metadata=" ++ javaMetadata d.metadata ++ ",ruleSet="
    ++ javaRuleSet d.ruleSet ++ ",schema=" ++ d.schema.getD "null" ++ ",schemaTags=null\x7d"

/-- The error for a schema that failed to parse or to validate. -/
def invalid (d : Draft) (q : QualifiedSubject) (kind : ErrorKind) (detail : String) : ApiError :=
  ⟨42201, match kind with
    | .parse => "Invalid schema " ++ d.entityString q ++ " with refs " ++ d.refsString
        ++ " of type " ++ d.schemaType.getD "AVRO" ++ ", details: " ++ detail
    | .validate => "Invalid schema " ++ d.entityString q ++ ", details: " ++ detail⟩

end Draft

/-! ### Canonical schemas and stored entities -/

/-- A request schema after `canonicalize`. -/
structure Canon (Inner : Type) where
  schemaType : SchemaType
  /-- Canonical, or normalized when normalizing. -/
  text : String
  refs : List SchemaReference
  targets : List (QualifiedSubject × UInt32)
  metadata : Option Json
  ruleSet : Option Json
  parsed : ParsedSchema Inner

def Canon.fingerprint {fmt : Formats} (c : Canon fmt.Inner) : String :=
  SchemaRegistry.fingerprint fmt c.schemaType c.text c.refs c.metadata c.ruleSet

/-- A stored or matched schema entity: what lookups and version reads answer. -/
structure Entity where
  subject : String
  version : UInt32
  id : UInt32
  schemaType : SchemaType
  references : List SchemaReference
  metadata : Option Json
  ruleSet : Option Json
  schema : String

namespace Entity

def stored (q : QualifiedSubject) (version id : UInt32) (rec : SchemaRecord) : Entity where
  subject := q.qualified
  version := version
  id := id
  schemaType := rec.schemaType
  references := rec.references
  metadata := rec.metadata
  ruleSet := rec.ruleSet
  schema := rec.schema

def fromCanon {Inner : Type} (q : QualifiedSubject) (version id : UInt32) (c : Canon Inner) :
    Entity where
  subject := q.qualified
  version := version
  id := id
  schemaType := c.schemaType
  references := c.refs
  metadata := c.metadata
  ruleSet := c.ruleSet
  schema := c.text

def fingerprint (fmt : Formats) (e : Entity) : String :=
  SchemaRegistry.fingerprint fmt e.schemaType e.schema e.references e.metadata e.ruleSet

end Entity

structure RegisterResponse where
  id : UInt32
  version : Option UInt32
  schemaType : Option String
  references : List SchemaReference
  metadata : Option Json
  ruleSet : Option Json
  schema : Option String

namespace RegisterResponse

def ofId (id : UInt32) : RegisterResponse := ⟨id, none, none, [], none, none, none⟩

/-- The full entity, for a "modified" or replayed schema; AVRO is not named. -/
def full (e : Entity) : RegisterResponse :=
  ⟨e.id, some e.version, if e.schemaType = .avro then none else some e.schemaType.asStr,
    e.references, e.metadata, e.ruleSet, some e.schema⟩

end RegisterResponse

/-! ### Is this the same schema? -/

section

variable {Inner : Type}

/-- `ParsedSchema#equivalent`: same type, canonical text, metadata and rules. -/
def equivalent (c : Canon Inner) (cMeta : Option Json) (p : Entity) (pMeta : Option Json) : Bool :=
  c.schemaType == p.schemaType && c.text == p.schema && Json.eqvOpt cMeta pMeta
    && Json.eqvOpt c.ruleSet p.ruleSet

/-- `AbstractSchemaProvider.canLookupIgnoringVersion`. -/
def canLookupIgnoringVersion (c : Canon Inner) (p : Entity) : Bool :=
  let cv := (confluentVersion c.metadata).bind parseU32
  let pv := (confluentVersion p.metadata).bind parseU32
  let orEmpty (m : Option Json) := m.or (some (.object []))
  match cv, pv with
  | none, some _ => equivalent c (orEmpty c.metadata) p (withoutConfluentVersion p.metadata)
  | some v, none =>
      v == p.version && equivalent c (withoutConfluentVersion c.metadata) p (orEmpty p.metadata)
  | _, _ => equivalent c c.metadata p p.metadata

/-- `ParsedSchema#canLookup`: a request without references matching a stored schema with
them, and `confluent:version` bookkeeping; exact content goes through the hash index. -/
def canLookup (c : Canon Inner) (p : Entity) : Bool :=
  if c.refs.isEmpty && !p.references.isEmpty && canLookupIgnoringVersion c p then true
  else if (confluentVersion c.metadata).isSome || (confluentVersion p.metadata).isSome then
    c.refs == p.references && canLookupIgnoringVersion c p
  else false

end

end SchemaRegistry

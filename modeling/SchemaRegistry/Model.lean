import SchemaRegistry.Json
import SchemaRegistry.Context

/-!
Persisted records, request shapes and error values of the registry. Integers
have the widths of the source: ids and versions are `u32`, what a client sends
is `i32`, log positions are `u64`.
-/

namespace SchemaRegistry

/-! ### Errors -/

structure ApiError where
  code : Nat
  message : String
  deriving DecidableEq, Repr

abbrev ApiResult := Except ApiError

namespace ApiError

def subjectNotFound (subject : String) : ApiError :=
  ⟨40401, s!"Subject '{subject}' not found."⟩
def versionNotFound (version : String) : ApiError :=
  ⟨40402, s!"Version {version} not found."⟩
def schemaNotFound : ApiError := ⟨40403, "Schema not found"⟩
def subjectSoftDeleted (subject : String) : ApiError :=
  ⟨40404, s!"Subject '{subject}' was soft deleted.Set permanent=true to delete permanently"⟩
def subjectNotSoftDeleted (subject : String) : ApiError :=
  ⟨40405, s!"Subject '{subject}' was not deleted first before being permanently deleted"⟩
def versionSoftDeleted (subject : String) (version : UInt32) : ApiError :=
  ⟨40406, s!"Subject '{subject}' Version {version} was soft deleted.Set permanent=true to delete permanently"⟩
def versionNotSoftDeleted (subject : String) (version : UInt32) : ApiError :=
  ⟨40407, s!"Subject '{subject}' Version {version} was not deleted first before being permanently deleted"⟩
def subjectCompatNotConfigured (subject : String) : ApiError :=
  ⟨40408, s!"Subject '{subject}' does not have subject-level compatibility configured"⟩
def subjectModeNotConfigured (subject : String) : ApiError :=
  ⟨40409, s!"Subject '{subject}' does not have subject-level mode configured"⟩
def exporterNotFound (name : String) : ApiError := ⟨40450, s!"Exporter '{name}' not found."⟩
def incompatible (subject : String) (messages : List String) : ApiError :=
  ⟨409, "Schema being registered is incompatible with an earlier schema for subject \""
    ++ subject ++ "\", details: [" ++ ", ".intercalate messages ++ "]"⟩
def exporterExists (name : String) : ApiError := ⟨40950, s!"Exporter '{name}' already exists."⟩
def invalidSchema (msg : String) : ApiError := ⟨42201, s!"Invalid schema: {msg}"⟩
def operationNotPermitted (msg : String) : ApiError := ⟨42205, msg⟩
def referenceExists (msg : String) : ApiError := ⟨42206, msg⟩
def invalidSubject (subject : String) : ApiError :=
  ⟨42208, s!"The specified subject '{subject}' is not a valid."⟩
def contextNotEmpty (ctx : String) : ApiError :=
  ⟨42211, s!"The specified context '{ctx}' is not empty."⟩
def invalidExporter (msg : String) : ApiError := ⟨42250, msg⟩
def unprocessable (msg : String) : ApiError := ⟨422, msg⟩
def internal (msg : String) : ApiError := ⟨500, s!"Internal error - {msg}"⟩

end ApiError

/-! ### Enumerations -/

inductive SchemaType where
  | avro
  | json
  | protobuf
  deriving DecidableEq, Repr

namespace SchemaType

/-- The provider is looked up by exact name; a missing name means AVRO. -/
def parse : Option String → ApiResult SchemaType
  | none => .ok .avro
  | some name =>
      if name = "AVRO" then .ok .avro
      else if name = "JSON" then .ok .json
      else if name = "PROTOBUF" then .ok .protobuf
      else .error ⟨42201, s!"Invalid schema type {name}"⟩

def asStr : SchemaType → String
  | .avro => "AVRO"
  | .json => "JSON"
  | .protobuf => "PROTOBUF"

end SchemaType

inductive CompatibilityLevel where
  | none
  | backward
  | backwardTransitive
  | forward
  | forwardTransitive
  | full
  | fullTransitive
  deriving DecidableEq, Repr

namespace CompatibilityLevel

def asStr : CompatibilityLevel → String
  | .none => "NONE"
  | .backward => "BACKWARD"
  | .backwardTransitive => "BACKWARD_TRANSITIVE"
  | .forward => "FORWARD"
  | .forwardTransitive => "FORWARD_TRANSITIVE"
  | .full => "FULL"
  | .fullTransitive => "FULL_TRANSITIVE"

def transitive : CompatibilityLevel → Bool
  | .backwardTransitive | .forwardTransitive | .fullTransitive => true
  | _ => false

/-- New schema must be able to read data written with old schemas. -/
def readsOld : CompatibilityLevel → Bool
  | .backward | .backwardTransitive | .full | .fullTransitive => true
  | _ => false

/-- Old schemas must be able to read data written with the new schema. -/
def readByOld : CompatibilityLevel → Bool
  | .forward | .forwardTransitive | .full | .fullTransitive => true
  | _ => false

end CompatibilityLevel

inductive Mode where
  | readwrite
  | readonly
  | readonlyOverride
  | «import»
  deriving DecidableEq, Repr

/-! ### References and requests -/

structure SchemaReference where
  name : String
  subject : String
  version : Int32
  deriving DecidableEq, Repr

/-- A reference as sent by a client: any member may be missing, the element may be `null`. -/
structure RefIn where
  null : Bool
  name : Option String
  subject : Option String
  version : Option Int32
  deriving DecidableEq, Repr

def RefIn.ofReference (r : SchemaReference) : RefIn :=
  ⟨false, some r.name, some r.subject, some r.version⟩

/-- `SchemaReference#toString`. -/
def RefIn.display (r : RefIn) : String :=
  if r.null then "null"
  else "\x7bname='" ++ r.name.getD "null" ++ "', subject='" ++ r.subject.getD "null"
    ++ "', version=" ++ (r.version.map (toString ·.toInt)).getD "null" ++ "\x7d"

/-- Body of `POST /subjects/{subject}/versions`, after Jackson's coercions. -/
structure RegisterSchemaRequest where
  schema : Option String := none
  schemaType : Option String := none
  references : Option (List RefIn) := none
  metadata : Option Json := none
  ruleSet : Option Json := none
  version : Option Int32 := none
  id : Option Int32 := none

/-! ### Persisted records -/

/-- Schema content, keyed by (context, id). -/
structure SchemaRecord where
  schemaType : SchemaType
  schema : String
  references : List SchemaReference
  metadata : Option Json
  ruleSet : Option Json
  /-- Fingerprint of the stored (as-registered) form. -/
  fingerprint : String
  /-- Fingerprint of (type, normalized text, references) only. -/
  schemaFingerprint : String
  guid : String

/-- A (context, subject, version) entry. -/
structure VersionRecord where
  id : UInt32
  deleted : Bool
  ts : Int
  deriving DecidableEq, Repr

/-- Subject, context or global configuration; every field is optional. -/
structure ConfigRecord where
  compatibilityLevel : Option CompatibilityLevel := none
  «alias» : Option String := none
  normalize : Option Bool := none
  validateFields : Option Bool := none
  validateRules : Option Bool := none
  compatibilityGroup : Option String := none
  defaultMetadata : Option Json := none
  overrideMetadata : Option Json := none
  defaultRuleSet : Option Json := none
  overrideRuleSet : Option Json := none
  deriving Inhabited

namespace ConfigRecord

def hasDefaultsOrOverrides (c : ConfigRecord) : Bool :=
  c.defaultMetadata.isSome || c.overrideMetadata.isSome || c.defaultRuleSet.isSome
    || c.overrideRuleSet.isSome

/-- Fields set in `other` override fields in `self`. -/
def mergedWith (self other : ConfigRecord) : ConfigRecord where
  compatibilityLevel := other.compatibilityLevel.or self.compatibilityLevel
  «alias» := other.«alias».or self.«alias»
  normalize := other.normalize.or self.normalize
  validateFields := other.validateFields.or self.validateFields
  validateRules := other.validateRules.or self.validateRules
  compatibilityGroup := other.compatibilityGroup.or self.compatibilityGroup
  defaultMetadata := other.defaultMetadata.or self.defaultMetadata
  overrideMetadata := other.overrideMetadata.or self.overrideMetadata
  defaultRuleSet := other.defaultRuleSet.or self.defaultRuleSet
  overrideRuleSet := other.overrideRuleSet.or self.overrideRuleSet

end ConfigRecord

/-- Where a config or mode value lives. -/
inductive Scope where
  | global
  | context (ctx : String)
  | subject (ctx subject : String)
  deriving DecidableEq, Repr

/-- The versions a walk has seen are told apart by what they are. -/
instance lawfulBEqVersion : LawfulBEq (String × String × UInt32) := inferInstance

/-! ### The change log -/

inductive LogEventKind where
  | register
  | softDelete
  | hardDelete
  deriving DecidableEq, Repr

structure LogEvent where
  ctx : String
  subject : String
  version : UInt32
  id : UInt32
  kind : LogEventKind
  deriving DecidableEq, Repr

/-! ### Exporters -/

structure ExporterInfo where
  name : String
  subjects : List String
  contextType : String
  context : Option String
  subjectRenameFormat : Option String
  config : JsonMap

/-- Body of `POST /exporters` and `PUT /exporters/{name}`. -/
structure ExporterUpdateRequest where
  name : Option String := none
  subjects : Option (List String) := none
  contextType : Option String := none
  context : Option String := none
  subjectRenameFormat : Option String := none
  config : Option JsonMap := none

inductive ExporterState where
  | starting
  | running
  | paused
  | error
  | failed
  deriving DecidableEq, Repr

structure ExporterRecord where
  info : ExporterInfo
  state : ExporterState
  /-- Next log sequence number to export. -/
  offset : UInt64
  ts : Int
  trace : String

end SchemaRegistry

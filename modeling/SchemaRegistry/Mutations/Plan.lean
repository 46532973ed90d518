import SchemaRegistry.Registry.Lookup

/-!
What a verb is: a target, an intent for the mode table, and a plan, which reads one
consistent view and says what to write, what to log and what to answer. A verb
neither locks nor writes; the engine does that, the same way for every verb.
-/

namespace SchemaRegistry

/-- What a mutation touches: it decides which lock is taken and which mode applies. -/
inductive Target where
  | subject (q : QualifiedSubject)
  | context (ctx : String)
  | global
  | exporters
  deriving DecidableEq, Repr

/-- How a target is named in an error message. -/
def Target.scopeName : Target → String
  | .subject q => q.qualified
  | .context ctx => qualify ctx ""
  | .global | .exporters => "null"

/-- The target a request names; no subject is the registry as a whole. -/
def targetOf : Option QualifiedSubject → Target
  | none => .global
  | some q => if q.isContextOnly then .context q.context else .subject q

/-! ### The mode table -/

/-- What a caller is in the middle of doing, as far as modes are concerned. -/
inductive Intent where
  /-- Register a schema and let the registry assign the id. -/
  | write
  /-- Register a schema with the id (and version) the caller chose. -/
  | «import»
  /-- Change stored state that is not a registration. -/
  | modify
  | setMode
  /-- Registry metadata that is not schema state. -/
  | notSchemaState
  deriving DecidableEq, Repr

/-- When the mode is checked: some verbs answer from state first. -/
inductive Gate where
  | beforePlan
  | afterPlan
  deriving DecidableEq, Repr

/-- Which operations a mode allows. -/
def modegateCheck (intent : Intent) (mode : Mode) (scope : String) : ApiResult Unit :=
  let refuse (what : String) : ApiResult Unit :=
    .error (.operationNotPermitted ("Subject " ++ scope ++ " is " ++ what))
  match intent, mode with
  | .setMode, _ | .notSchemaState, _ => .ok ()
  | _, .readonly | _, .readonlyOverride => refuse "in read-only mode"
  | .write, .readwrite => .ok ()
  | .write, .«import» => refuse "not in read-write mode"
  | .«import», .«import» => .ok ()
  | .«import», .readwrite => refuse "not in import mode"
  | .modify, .readwrite | .modify, .«import» => .ok ()

/-! ### Plans -/

/-- One row the store should write. -/
inductive Write where
  | putSchema (ctx : String) (id : UInt32) (rec : SchemaRecord) (index : Bool)
  | putVersion (ctx subject : String) (version : UInt32) (rec : VersionRecord)
  | deleteVersion (ctx subject : String) (version id : UInt32)
  | deleteSchema (ctx : String) (id : UInt32)
  | putRefby (ctx subject : String) (version id : UInt32)
  | deleteRefby (ctx subject : String) (version id : UInt32)
  | setNextId (ctx : String) (next : UInt32)
  | putConfig (scope : Scope) (rec : ConfigRecord)
  | deleteConfig (scope : Scope)
  | putMode (scope : Scope) (mode : Mode)
  | deleteMode (scope : Scope)
  | deleteContext (ctx : String)
  | putExporter (rec : ExporterRecord)
  | deleteExporter (name : String)

/-- What a verb decided to do. The events go to the change log in the same batch as the
writes. -/
structure Plan (α : Type) where
  writes : List Write := []
  events : List LogEvent := []
  output : α

/-- The registry as a verb sees it: one consistent snapshot, the exporter records, and
the time and the fresh id of this mutation. -/
structure ReadView where
  reader : Reader
  exporter : String → Option ExporterRecord
  now : Int
  newGuid : String

/-- The mode that applies to a target. -/
def modeFor (r : Reader) : Target → Mode
  | .subject q => modeInScope r q
  | .context ctx => modeInScope r ⟨ctx, ""⟩
  | .global | .exporters => globalModeIn r

structure Mutation (α : Type) where
  target : Target
  intent : Intent
  gate : Gate := .beforePlan
  /-- An answer that needs no lock and changes nothing. -/
  fastPath : ReadView → ApiResult (Option α) := fun _ => .ok none
  plan : ReadView → ApiResult (Plan α)

/-! ### Hard deletes -/

/-- Whether some row other than the given one, and other than the rows of its subject
known to be going too, still uses an id. -/
def stillUsed (r : Reader) (q : QualifiedSubject) (version id : UInt32)
    (alsoRemoved : List (String × UInt32)) : Bool :=
  (r.idUsages q.context id).any fun (s, v) =>
    !(s == q.subject && (v == version || (s, v) ∈ alsoRemoved))

/-- The rows a hard delete of (subject, version) removes: the version itself, and the
id's outgoing reference edges and content once nothing uses that id any more. -/
def hardDeleteWrites (r : Reader) (q : QualifiedSubject) (version : UInt32) (vr : VersionRecord)
    (alsoRemoved : List (String × UInt32)) : List Write × LogEvent :=
  let content :=
    if stillUsed r q version vr.id alsoRemoved then []
    else
      match r.getSchema q.context vr.id with
      | none => []
      | some rec =>
          rec.references.map (fun sr =>
            let t := refTarget q.context sr
            Write.deleteRefby t.context t.subject sr.target vr.id)
          ++ [.deleteSchema q.context vr.id]
  (.deleteVersion q.context q.subject version vr.id :: content,
    ⟨q.context, q.subject, version, vr.id, .hardDelete⟩)

/-- Hard deletes of several rows of one plan, in order. -/
def hardDeleteAll (r : Reader) (rows : List (QualifiedSubject × UInt32 × VersionRecord))
    (alsoRemoved : List (String × UInt32)) : List Write × List LogEvent :=
  let each := rows.map fun (q, v, vr) => hardDeleteWrites r q v vr alsoRemoved
  (each.flatMap Prod.fst, each.map Prod.snd)

end SchemaRegistry

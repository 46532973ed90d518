import SchemaRegistry.Engine
import SchemaRegistry.Lib.Template

/-!
Where an exporter sends a version: which subjects it is about, and the context and the name
they get at the destination.
-/

namespace SchemaRegistry

open Lib

/-- `*` and globs match subjects of the default context; `:.ctx:pattern` targets a context;
`:*:pattern` matches in every context. `glob` matches a pattern of the `glob` crate against a
text; a pattern it does not parse matches nothing. -/
def subjectMatches (glob : String → String → Bool) (patterns : List String) (ctx subject : String) :
    Bool :=
  patterns.any fun p =>
    let q := QualifiedSubject.parse p
    let ctxOk := q.isWildcard || q.context == ctx
    let pat := if q.subject.isEmpty then "*" else q.subject
    ctxOk && glob pat subject

namespace Exporter

/-- The source cluster's id, as it may stand in a context name. -/
def contextId (clusterId : String) : String :=
  String.ofList (clusterId.toList.map fun c =>
    if isAsciiAlphanumeric c || c == '-' || c == '_' then c else '-')

/-- The destination context for a source context. -/
def destContext (info : ExporterInfo) (clusterId srcCtx : String) : String :=
  if info.contextType = "CUSTOM" then (info.context.bind normalizeContext).getD defaultContext
  else if info.contextType = "NONE" then srcCtx
  else if info.contextType = "DEFAULT" then defaultContext
  -- AUTO: everything goes under the id of the source cluster.
  else if srcCtx = defaultContext then "." ++ contextId clusterId
  else "." ++ contextId clusterId ++ srcCtx

def subjectPlace : String := "$\x7bsubject\x7d"

/-- A subject's name at the destination, without the context. -/
def renamed (info : ExporterInfo) (subject : String) : String :=
  match info.subjectRenameFormat with
  | some f =>
      if f.isEmpty then subject
      else String.ofList (fillPlaces subjectPlace.toList subject.toList f.toList)
  | none => subject

def destSubject (info : ExporterInfo) (clusterId ctx subject : String) : String :=
  qualify (destContext info clusterId ctx) (renamed info subject)

/-! ### Sending a version -/

/-- What a version is sent with. -/
def exportPayload (r : Reader) (ctx subject : String) (version : UInt32) :
    ApiResult (Option (VersionRecord × SchemaRecord)) :=
  match r.getVersion ctx subject version with
  | none => .ok none
  | some vr =>
      match r.getSchema ctx vr.id with
      | none => .error .schemaNotFound
      | some rec => .ok (some (vr, rec))

/-- Where the exporter looks for what a reference names. -/
def exportTarget (ctx : String) (sr : SchemaReference) : QualifiedSubject :=
  let target := QualifiedSubject.parse sr.subject
  ⟨if sr.subject.toList.head? = some ':' then target.context else ctx, target.subject⟩

/-- The request that registers a version at the destination. -/
structure Post where
  subject : String
  schema : String
  schemaType : SchemaType
  references : List SchemaReference
  id : UInt32
  version : UInt32
  metadata : Option Json
  ruleSet : Option Json

def postOf (info : ExporterInfo) (clusterId ctx subject : String) (version : UInt32)
    (vr : VersionRecord) (rec : SchemaRecord) : Post :=
  { subject := destSubject info clusterId ctx subject
    schema := rec.schema
    schemaType := rec.schemaType
    references := rec.references.map fun sr =>
      let t := exportTarget ctx sr
      { sr with subject := destSubject info clusterId t.context t.subject }
    id := vr.id
    version
    metadata := rec.metadata
    ruleSet := rec.ruleSet }

structure Sending where
  /-- The versions that were taken up already. -/
  exported : List (String × String × UInt32) := []
  posts : List Post := []
  /-- An error has ended it. -/
  stopped : Bool := false

/-- Send a version, what it references first; the depth is how far references are followed. -/
def exportVersion (info : ExporterInfo) (clusterId : String) (r : Reader) :
    Nat → String → String → UInt32 → Sending → Sending
  | 0, _, _, _, s => s
  | depth + 1, ctx, subject, version, s =>
      if (ctx, subject, version) ∈ s.exported then s
      else
        let s := { s with exported := (ctx, subject, version) :: s.exported }
        match exportPayload r ctx subject version with
        | .error _ => { s with stopped := true }
        -- Hard-deleted since the event was logged.
        | .ok none => s
        | .ok (some (vr, rec)) =>
            let s := rec.references.foldl (fun s sr =>
              if s.stopped then s
              else
                let t := exportTarget ctx sr
                exportVersion info clusterId r depth t.context t.subject sr.target s) s
            if s.stopped then s
            else { s with posts := s.posts ++ [postOf info clusterId ctx subject version vr rec] }

/-- References are followed 32 deep. -/
def exportDepth : Nat := 33

end Exporter

end SchemaRegistry

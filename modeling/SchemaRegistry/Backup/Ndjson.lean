import SchemaRegistry.Api.Jackson
import SchemaRegistry.Registry.Views
import SchemaRegistry.Printing
import Mathlib.Data.List.Sort

/-!
A dump as text: one JSON value a line. Reading groups the versions of a subject whatever stands
between them, sorts them by number and fills in what an exporter leaves out; unknown records are
skipped.
-/

namespace SchemaRegistry

/-- `str::trim`. -/
def trimText (s : String) : String :=
  String.ofList ((s.toList.dropWhile isWhitespace).reverse.dropWhile isWhitespace).reverse

namespace Backup

open Std SchemaRegistry.Lib

/-! ### The text -/

/-- `str::lines`: a line may end in a carriage return; no line follows the last line feed. -/
def lines (text : String) : List String :=
  let parts := text.toList.splitOn '\n'
  let ended := parts.dropLast.map fun l => if l.getLast? = some '\r' then l.dropLast else l
  (ended ++ (parts.getLast?.filter (· ≠ [])).toList).map String.ofList

/-- A dump whose records are the values as they were read. -/
structure TextDump where
  header : Option Json := none
  /-- Subject -> its versions, oldest first. -/
  subjects : ExtTreeMap String (List Json) := ∅
  subjectOrder : List String := []
  /-- `none` is the registry as a whole. -/
  configs : List (Option String × Json) := []
  modes : List (Option String × String) := []
  exporters : List Json := []

/-! ### Reading -/

def recordType (v : Json) : String := ((v.get? "type").bind Json.asStr).getD ""

def recordSubject (v : Json) : Option String := (v.get? "subject").bind Json.asStr

/-- What an exporter is; one that does not say is itself that, but for its type. -/
def exporterInfo (v : Json) : Json :=
  match v.get? "info", v with
  | some info, _ => info
  | none, .object members => .object (JsonMap.swapRemove members "type")
  | none, v => v

/-- An exporter with all its members. -/
def exporterObject (info : Json) (state : String) (offset : Nat) (ts : Int) (trace : String) :
    Json :=
  .object [("info", info), ("state", .string state), ("offset", .number (.int offset)),
    ("ts", .number (.int ts)), ("trace", .string trace)]

/-- What an exporter leaves out is filled in. -/
def exporterEntry (v : Json) : Json :=
  exporterObject (exporterInfo v) (((v.get? "state").bind Json.asStr).getD "RUNNING")
    (((v.get? "offset").bind Json.asU64).getD 0)
    (((v.get? "ts").bind Json.asI64).getD 0)
    (((v.get? "trace").bind Json.asStr).getD "")

namespace TextDump

/-- A version goes to the end of its subject. -/
def noteSchema (d : TextDump) (subject : String) (v : Json) : TextDump :=
  { d with
    subjectOrder := if subject ∈ d.subjects then d.subjectOrder else d.subjectOrder ++ [subject]
    subjects := d.subjects.insert subject (d.subjects.getD subject [] ++ [v]) }

def noteRecord (d : TextDump) (v : Json) : TextDump :=
  match recordType v with
  | "registry" => { d with header := some v }
  | "config" =>
      { d with configs := d.configs ++ [(recordSubject v, (v.get? "config").getD (.object []))] }
  | "mode" =>
      match (v.get? "mode").bind Json.asStr with
      | some m => { d with modes := d.modes ++ [(recordSubject v, m)] }
      | none => d
  | "schema" =>
      match recordSubject v with
      | some s => d.noteSchema s v
      | none => d
  | "exporter" => { d with exporters := d.exporters ++ [exporterEntry v] }
  | _ => d

def versionKey (v : Json) : Nat := ((v.get? "version").bind Json.asU64).getD 0

def finish (d : TextDump) : TextDump :=
  { d with
    subjects := d.subjects.map fun _ vs =>
      vs.insertionSort fun a b => versionKey a ≤ versionKey b }

section Parse

-- `serde_json::from_str`.
variable (fromStr : String → Except String Json)

def noteLine (d : TextDump) (p : String × Nat) : Except String TextDump :=
  let line := trimText p.1
  if line.isEmpty then .ok d
  else
    match fromStr line with
    | .error e => .error s!"line {p.2 + 1}: {e}"
    | .ok v => .ok (d.noteRecord v)

/-- Newline-delimited JSON. -/
def parse (text : String) : Except String TextDump := do
  let d ← (lines text).zipIdx.foldlM (noteLine fromStr) {}
  .ok d.finish

end Parse

/-! ### Writing -/

def subjectMember : Option String → Json
  | some s => .string s
  | none => .null

def configRecord (p : Option String × Json) : Json :=
  .object [("type", .string "config"), ("subject", subjectMember p.1), ("config", p.2)]

def modeRecord (p : Option String × String) : Json :=
  .object [("type", .string "mode"), ("subject", subjectMember p.1), ("mode", .string p.2)]

def exporterRecord (e : Json) : Json := e.setMember "type" (.string "exporter")

/-- The values of a dump in the order they are written. -/
def records (d : TextDump) : List Json :=
  d.header.toList ++ d.configs.map configRecord ++ d.modes.map modeRecord
    ++ d.subjectOrder.flatMap (fun s => d.subjects.getD s [])
    ++ d.exporters.map exporterRecord

def writtenLines (vs : List Json) : String := String.join (vs.map fun v => v.render ++ "\n")

def toNdjson (d : TextDump) : String := writtenLines d.records

end TextDump

end Backup

end SchemaRegistry

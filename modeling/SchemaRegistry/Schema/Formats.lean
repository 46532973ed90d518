import SchemaRegistry.Model

/-!
What the registry asks of a schema format. Parsing, the direction-wise read check
and the hash are given by the format implementations and are arbitrary here; the
content fingerprint and the compatibility levels are built on them.
-/

namespace SchemaRegistry

open Lib

/-- A referenced schema, already fetched from the store. -/
structure ResolvedRef where
  name : String
  schema : String
  deriving DecidableEq, Repr

/-- Which of the two failure points rejected a schema. -/
inductive ErrorKind where
  | parse
  | validate
  deriving DecidableEq, Repr

structure SchemaError where
  kind : ErrorKind
  message : String
  deriving DecidableEq, Repr

structure ParsedSchema (Inner : Type) where
  schemaType : SchemaType
  /-- As-registered form. -/
  canonical : String
  /-- Normalized form, used when `normalize=true`. -/
  normalized : String
  /-- Why normalizing fails, when it does. -/
  normalizeError : Option String
  inner : Inner

/-- Labels used in messages ("new"/"old" depending on direction). -/
structure Labels where
  reader : String
  writer : String

/-- The three formats and the hash, as the registry calls them. -/
structure Formats where
  Inner : Type
  parseWith : SchemaType → String → List ResolvedRef → Bool →
    Except SchemaError (ParsedSchema Inner)
  /-- Can `reader` read data written with `writer`? Empty means yes. -/
  canRead : ParsedSchema Inner → ParsedSchema Inner → Labels → List String
  sha256 : Bytes → Bytes

/-! ### The content fingerprint -/

/-- `hex::encode`. -/
def hexEncode (b : Bytes) : String :=
  String.ofList (b.flatMap fun x => [Json.hexDigit (x.toNat / 16), Json.hexDigit x.toNat])

/-- What `fingerprint` feeds to the hash for one reference. -/
def referenceBytes (r : SchemaReference) : Bytes :=
  utf8 r.name ++ [1] ++ utf8 r.subject ++ [1] ++ be32 r.version.toUInt32 ++ [0]

/-- What an optional JSON value contributes; `null` counts as absent. -/
def jsonBytes (v : Option Json) : Bytes :=
  match v with
  | some m => if m.isNull then [] else utf8 m.render
  | none => []

def fingerprintInput (schemaType : SchemaType) (schema : String)
    (references : List SchemaReference) (metadata ruleSet : Option Json) : Bytes :=
  utf8 schemaType.asStr ++ [0] ++ utf8 schema ++ [0] ++ references.flatMap referenceBytes ++ [0]
    ++ jsonBytes metadata ++ [0] ++ jsonBytes ruleSet

/-- Identity of a schema within a context. -/
def fingerprint (fmt : Formats) (schemaType : SchemaType) (schema : String)
    (references : List SchemaReference) (metadata ruleSet : Option Json) : String :=
  hexEncode (fmt.sha256 (fingerprintInput schemaType schema references metadata ruleSet))

/-! ### Compatibility levels -/

/-- An earlier version to check against. -/
structure Previous (Inner : Type) where
  version : UInt32
  schema : ParsedSchema Inner

def maxSchemaSizeForLogging : Nat := 10240

/-- The longest run of characters that fits in `limit` bytes. -/
def cutAtBoundary (limit : Nat) : List Char → List Char
  | [] => []
  | c :: cs =>
      if c.utf8Size ≤ limit then c :: cutAtBoundary (limit - c.utf8Size) cs else []

/-- After a failing check, the old version and schema (truncated past 10 KiB) are appended. -/
def withTrailer {Inner : Type} (msgs : List String) (p : Previous Inner) (append : Bool) :
    List String :=
  if msgs.isEmpty || !append then msgs
  else
    let old := p.schema.canonical
    let shown :=
      if old.utf8ByteSize ≤ maxSchemaSizeForLogging then "\x7boldSchema: '" ++ old ++ "'\x7d"
      else "\x7boldSchema: <truncated> '"
        ++ String.ofList (cutAtBoundary maxSchemaSizeForLogging old.toList) ++ "...'\x7d"
    msgs ++ ["\x7boldSchemaVersion: " ++ toString p.version ++ "\x7d", shown]

/-- The problems of `new` against one earlier version. -/
def checkOne (fmt : Formats) (new : ParsedSchema fmt.Inner) (p : Previous fmt.Inner)
    (level : CompatibilityLevel) : List String :=
  let newReadsOld := fmt.canRead new p.schema ⟨"new", "old"⟩
  let oldReadsNew := fmt.canRead p.schema new ⟨"old", "new"⟩
  if p.schema.schemaType ≠ new.schemaType then ["Incompatible because of different schema type"]
  else
    match level.readsOld, level.readByOld with
    | true, false => withTrailer newReadsOld p true
    | false, true => withTrailer oldReadsNew p true
    | _, _ => withTrailer oldReadsNew p false ++ withTrailer newReadsOld p true

/-- Check `new` against earlier versions (newest first): the latest only at a
non-transitive level, else newest to oldest up to the first failure. -/
def checkLevel (fmt : Formats) (new : ParsedSchema fmt.Inner) (previous : List (Previous fmt.Inner))
    (level : CompatibilityLevel) : List String :=
  if level = .none then []
  else
    let candidates := if level.transitive then previous else previous.take 1
    ((candidates.map fun p => checkOne fmt new p level).find? fun msgs => !msgs.isEmpty).getD []

end SchemaRegistry

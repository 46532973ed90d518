import SchemaRegistry.Model

/-!
The database under the registry: nine column families, each an ordered map from
byte strings to rows, changed by atomic batches; and the keys one host container
writes into it. A value is held as the record it encodes, since what is read back
is what `serde_json` was given; counters and flags are held as their bytes.
-/

namespace SchemaRegistry

open Std SchemaRegistry.Lib

/-! ### Column families and batches -/

inductive Cf where
  | schemas
  | fingerprints
  | versions
  | refby
  | config
  | mode
  | exporters
  | log
  | «meta»
  deriving DecidableEq, Repr

/-- What a row of a column family holds. -/
@[reducible] def Cell : Cf → Type
  | .schemas => SchemaRecord
  | .fingerprints => Bytes
  | .versions => VersionRecord
  | .refby => Bytes
  | .config => ConfigRecord
  | .mode => Mode
  | .exporters => ExporterRecord
  | .log => LogEvent
  | .«meta» => Bytes

structure PhysicalStore where
  rows : (c : Cf) → ExtTreeMap Bytes (Cell c) := fun _ => ∅

instance : Inhabited PhysicalStore := ⟨{}⟩

/-- One entry of a `WriteBatch`. -/
inductive BatchOp where
  | put (c : Cf) (key : Bytes) (cell : Cell c)
  | delete (c : Cf) (key : Bytes)
  /-- `delete_range_cf`: keys from `lo` up to but excluding `hi`. -/
  | deleteRange (c : Cf) (lo hi : Bytes)

namespace PhysicalStore

def get? (db : PhysicalStore) (c : Cf) (key : Bytes) : Option (Cell c) := (db.rows c)[key]?

/-- One column family replaced. -/
def setCf (db : PhysicalStore) (c : Cf) (m : ExtTreeMap Bytes (Cell c)) : PhysicalStore :=
  ⟨fun c' => if h : c = c' then h ▸ m else db.rows c'⟩

def applyOp (db : PhysicalStore) : BatchOp → PhysicalStore
  | .put c key cell => db.setCf c ((db.rows c).insert key cell)
  | .delete c key => db.setCf c ((db.rows c).erase key)
  | .deleteRange c lo hi =>
      db.setCf c ((db.rows c).filter fun key _ => compare key lo == .lt || compare key hi != .lt)

/-- A batch is applied as a whole, its entries in order. -/
def write (db : PhysicalStore) (batch : List BatchOp) : PhysicalStore := batch.foldl applyOp db

@[simp] theorem setCf_rows_self (db : PhysicalStore) (c : Cf) (m : ExtTreeMap Bytes (Cell c)) :
    (db.setCf c m).rows c = m := by
  simp [setCf]

@[simp] theorem setCf_rows_ne (db : PhysicalStore) {c c' : Cf} (h : c ≠ c')
    (m : ExtTreeMap Bytes (Cell c)) : (db.setCf c m).rows c' = db.rows c' := by
  simp [setCf, h]

@[simp] theorem get?_put_self (db : PhysicalStore) (c : Cf) (key k : Bytes) (cell : Cell c) :
    (db.applyOp (.put c key cell)).get? c k = if key = k then some cell else db.get? c k := by
  simp [applyOp, get?, ExtTreeMap.getElem?_insert]

@[simp] theorem get?_put_ne (db : PhysicalStore) {c c' : Cf} (h : c ≠ c') (key k : Bytes)
    (cell : Cell c) : (db.applyOp (.put c key cell)).get? c' k = db.get? c' k := by
  simp [applyOp, get?, h]

@[simp] theorem get?_delete_self (db : PhysicalStore) (c : Cf) (key k : Bytes) :
    (db.applyOp (.delete c key)).get? c k = if key = k then none else db.get? c k := by
  simp [applyOp, get?, ExtTreeMap.getElem?_erase]

@[simp] theorem get?_delete_ne (db : PhysicalStore) {c c' : Cf} (h : c ≠ c') (key k : Bytes) :
    (db.applyOp (.delete c key)).get? c' k = db.get? c' k := by
  simp [applyOp, get?, h]

@[simp] theorem get?_default (c : Cf) (k : Bytes) : (default : PhysicalStore).get? c k = none := by
  show (∅ : ExtTreeMap Bytes (Cell c))[k]? = none
  simp

end PhysicalStore

/-! ### Keys inside a container -/

def Scope.key : Scope → Bytes
  | .global => utf8 "G"
  | .context ctx => utf8 "C" ++ utf8 ctx
  | .subject ctx name => utf8 "S" ++ utf8 ctx ++ [0] ++ utf8 name

def Scope.fromKey : Bytes → Option Scope
  | [] => none
  | tag :: rest =>
      let rest := fromUtf8Lossy rest
      if tag = 0x47 then some .global
      else if tag = 0x43 then some (.context rest)
      else if tag = 0x53 then
        (splitOnce '\x00' rest.toList).map fun p =>
          .subject (String.ofList p.1) (String.ofList p.2)
      else none

/-- Split `ctx 0x00 rest` keys. -/
def splitCtx (k : Bytes) : Option (String × Bytes) :=
  (splitOnce 0 k).map fun p => (fromUtf8Lossy p.1, p.2)

/-- Split `subject 0x00 version(u32 BE) [tail]`. -/
def splitSubjectVersion (k : Bytes) : Option (String × UInt32 × Bytes) := do
  let (subject, rest) ← splitOnce 0 k
  let v ← beU32 rest
  some (fromUtf8Lossy subject, v, rest.drop 4)

def schemaKey (ctx : String) (id : UInt32) : Bytes := utf8 ctx ++ 0 :: be32 id

def fpKey (ctx fp : String) : Bytes := utf8 ctx ++ 0 :: utf8 fp

def subjectPrefix (ctx subject : String) : Bytes := utf8 ctx ++ 0 :: (utf8 subject ++ [0])

def versionKey (ctx subject : String) (version : UInt32) : Bytes :=
  subjectPrefix ctx subject ++ be32 version

def refbyKey (ctx subject : String) (version id : UInt32) : Bytes :=
  versionKey ctx subject version ++ be32 id

def ctxKey (ctx : String) : Bytes := utf8 ("ctx/" ++ ctx)

def nextIdKey (ctx : String) : Bytes := utf8 ("next_id/" ++ ctx)

def logSeqKey : Bytes := utf8 "log_seq"

def logFloorKey : Bytes := utf8 "log_floor"

end SchemaRegistry

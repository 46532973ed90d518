import SchemaRegistry.Snapshot
import SchemaRegistry.Store.Physical

/-!
One host container's view of the database. Every key it reads or writes starts
with the container's name and a zero byte; a transaction collects a batch together
with the snapshot operations that mirror it; and the snapshot of a container can
be rebuilt from its rows.
-/

namespace SchemaRegistry

open Lib

/-- 1-64 characters of `[A-Za-z0-9._-]`, not starting with `.`. -/
def isValidTenant (name : String) : Bool :=
  !name.isEmpty && name.utf8ByteSize ≤ 64 && name.toList.head? != some '.'
    && name.toList.all fun c => isAsciiAlphanumeric c || c == '.' || c == '-' || c == '_'

/-- The name of a host container, usable as the start of a key. -/
structure TenantId where
  name : String
  valid : isValidTenant name = true

def TenantId.default : TenantId := ⟨"default", by decide⟩

/-- What every key of a container starts with. -/
def TenantId.keyPrefix (t : TenantId) : Bytes := utf8 t.name ++ [0]

/-- The store's own rows in `meta` start with this byte, which no container's name does. -/
def reservedByte : UInt8 := 0

def tenantKeyPrefix : Bytes := reservedByte :: utf8 "container/"

structure Store where
  tenant : TenantId
  db : PhysicalStore := default

namespace Store

def keyPrefix (s : Store) : Bytes := s.tenant.keyPrefix

def key (s : Store) (rest : Bytes) : Bytes := s.keyPrefix ++ rest

def get? (s : Store) (c : Cf) (key : Bytes) : Option (Cell c) := s.db.get? c (s.key key)

def write (s : Store) (batch : List BatchOp) : Store := { s with db := s.db.write batch }

/-- Record that the container exists. -/
def register (s : Store) : Store :=
  s.write [.put .«meta» (tenantKeyPrefix ++ utf8 s.tenant.name) []]

/-- The container's rows whose key starts with `start`, without the container's own
part of the key. -/
def scanPrefix (s : Store) (c : Cf) (start : Bytes) : List (Bytes × Cell c) :=
  (scanFrom (s.db.rows c) (s.key start)).map fun p => (p.1.drop s.keyPrefix.length, p.2)

def getSchema (s : Store) (ctx : String) (id : UInt32) : Option SchemaRecord :=
  s.get? .schemas (schemaKey ctx id)

def getMetaString (s : Store) (key : String) : Option String :=
  (s.get? .«meta» (utf8 key)).map fromUtf8Lossy

def putMetaString (s : Store) (key value : String) : Store :=
  s.write [.put .«meta» (s.key (utf8 key)) (utf8 value)]

def logSeq (s : Store) : UInt64 := ((s.get? .«meta» logSeqKey).bind beU64).getD 0

/-- The oldest sequence number the log still holds. -/
def logFloor (s : Store) : UInt64 := ((s.get? .«meta» logFloorKey).bind beU64).getD 0

/-- Drop change-log entries below `before`. -/
def pruneLog (s : Store) (before : UInt64) : Store :=
  if before ≤ s.logFloor then s
  else s.write
    [.deleteRange .log (s.key (be64 0)) (s.key (be64 before)),
     .put .«meta» (s.key logFloorKey) (be64 before)]

/-- Log events with sequence at least `start`, at most `limit`. A key that is not a
sequence number ends the read. -/
def readLog (s : Store) (start : UInt64) (limit : Nat) : List (UInt64 × LogEvent) :=
  let fromStart := (s.db.rows .log).toList.dropWhile fun p => compare p.1
      (s.key (be64 start)) == .lt
  let ours := fromStart.takeWhile fun p => s.keyPrefix.isPrefixOf p.1
  let decoded := ours.map fun p => (beU64 (p.1.drop s.keyPrefix.length), p.2)
  ((decoded.takeWhile fun p => p.1.isSome).filterMap fun p => p.1.map (·, p.2)).take limit

def listExporters (s : Store) : List ExporterRecord :=
  (s.scanPrefix .exporters []).map Prod.snd

def getExporter (s : Store) (name : String) : Option ExporterRecord :=
  s.get? .exporters (utf8 name)

def putExporter (s : Store) (rec : ExporterRecord) : Store :=
  s.write [.put .exporters (s.key (utf8 rec.info.name)) rec]

/-! ### Loading a snapshot -/

def loadVersion (snap : Snapshot) (p : Bytes × VersionRecord) : Option Snapshot := do
  let (ctx, rest) ← splitCtx p.1
  let (subject, version, _) ← splitSubjectVersion rest
  some (snap.apply (.putVersion ctx subject version p.2))

def loadFingerprint (snap : Snapshot) (p : Bytes × Bytes) : Option Snapshot := do
  let (ctx, fp) ← splitCtx p.1
  let id ← beU32 p.2
  some (snap.updateCtx ctx fun c =>
    { c with fingerprints := c.fingerprints.insert (fromUtf8Lossy fp) id })

def loadRefby (snap : Snapshot) (p : Bytes × Bytes) : Option Snapshot := do
  let (ctx, rest) ← splitCtx p.1
  let (subject, version, tail) ← splitSubjectVersion rest
  let id ← beU32 tail
  some (snap.apply (.putRefby ctx subject version id))

def loadConfig (snap : Snapshot) (p : Bytes × ConfigRecord) : Option Snapshot :=
  match Scope.fromKey p.1 with
  | some scope => some (snap.apply (.putConfig scope p.2))
  | none => some snap

def loadMode (snap : Snapshot) (p : Bytes × Mode) : Option Snapshot :=
  match Scope.fromKey p.1 with
  | some scope => some (snap.apply (.putMode scope p.2))
  | none => some snap

/-- `str::strip_prefix`. -/
def stripPrefix (start s : String) : Option String :=
  if start.toList.isPrefixOf s.toList then some (String.ofList (s.toList.drop start.toList.length))
  else none

/-- A row of `meta`: a known context, a next id, or something the snapshot does not hold. -/
def loadMeta (snap : Snapshot) (p : Bytes × Bytes) : Option Snapshot :=
  let key := fromUtf8Lossy p.1
  match stripPrefix "ctx/" key with
  | some ctx => some { snap with knownContexts := snap.knownContexts.insert ctx }
  | none =>
      match stripPrefix "next_id/" key with
      | some ctx => (beU32 p.2).map fun next => snap.apply (.setNextId ctx next)
      | none => some snap

/-- Rebuild the in-memory snapshot from every table except schema bodies; a key that
does not decode fails the load. -/
def loadSnapshot (s : Store) : Option Snapshot := do
  let snap ← (s.scanPrefix .versions []).foldlM loadVersion {}
  let snap ← (s.scanPrefix .fingerprints []).foldlM loadFingerprint snap
  let snap ← (s.scanPrefix .refby []).foldlM loadRefby snap
  let snap ← (s.scanPrefix .config []).foldlM loadConfig snap
  let snap ← (s.scanPrefix .mode []).foldlM loadMode snap
  -- Contexts can exist without versions, so they are read from `meta`.
  let snap ← (s.scanPrefix .«meta» []).foldlM loadMeta { snap with knownContexts := ∅ }
  some { snap with logSeq := s.logSeq }

end Store

/-! ### Transactions -/

/-- An atomic batch of writes with the same mutations for the in-memory snapshot. -/
structure Tx where
  store : Store
  logSeq : UInt64
  logDirty : Bool := false
  batch : List BatchOp := []
  ops : List Op := []

def Store.tx (s : Store) : Tx := { store := s, logSeq := s.logSeq }

namespace Tx

def putRow (tx : Tx) (c : Cf) (key : Bytes) (cell : Cell c) : Tx :=
  { tx with batch := tx.batch ++ [.put c (tx.store.key key) cell] }

def deleteRow (tx : Tx) (c : Cf) (key : Bytes) : Tx :=
  { tx with batch := tx.batch ++ [.delete c (tx.store.key key)] }

def pushOp (tx : Tx) (op : Op) : Tx := { tx with ops := tx.ops ++ [op] }

/-- `index` also maps the content's fingerprint to `id`. -/
def putSchema (tx : Tx) (ctx : String) (id : UInt32) (rec : SchemaRecord) (index : Bool) : Tx :=
  let tx := (tx.putRow .schemas (schemaKey ctx id) rec).pushOp (.putSchema ctx id rec index)
  if index then tx.putRow .fingerprints (fpKey ctx rec.fingerprint) (be32 id) else tx

/-- The content goes, its fingerprint stays indexed. -/
def deleteSchema (tx : Tx) (ctx : String) (id : UInt32) : Tx :=
  (tx.deleteRow .schemas (schemaKey ctx id)).pushOp (.deleteSchema ctx id)

def putVersion (tx : Tx) (ctx subject : String) (version : UInt32) (rec : VersionRecord) : Tx :=
  ((tx.putRow .versions (versionKey ctx subject version) rec).putRow .«meta» (ctxKey ctx) []).pushOp
    (.putVersion ctx subject version rec)

def deleteVersion (tx : Tx) (ctx subject : String) (version id : UInt32) : Tx :=
  (tx.deleteRow .versions (versionKey ctx subject version)).pushOp
    (.deleteVersion ctx subject version id)

def putRefby (tx : Tx) (ctx subject : String) (version id : UInt32) : Tx :=
  (tx.putRow .refby (refbyKey ctx subject version id) []).pushOp (.putRefby ctx subject version id)

def deleteRefby (tx : Tx) (ctx subject : String) (version id : UInt32) : Tx :=
  (tx.deleteRow .refby (refbyKey ctx subject version id)).pushOp
    (.deleteRefby ctx subject version id)

def setNextId (tx : Tx) (ctx : String) (next : UInt32) : Tx :=
  (tx.putRow .«meta» (nextIdKey ctx) (be32 next)).pushOp (.setNextId ctx next)

def deleteContext (tx : Tx) (ctx : String) : Tx :=
  (tx.deleteRow .«meta» (ctxKey ctx)).pushOp (.deleteContext ctx)

def putConfig (tx : Tx) (scope : Scope) (rec : ConfigRecord) : Tx :=
  (tx.pushOp (.putConfig scope rec)).putRow .config scope.key rec

def deleteConfig (tx : Tx) (scope : Scope) : Tx :=
  (tx.deleteRow .config scope.key).pushOp (.deleteConfig scope)

def putMode (tx : Tx) (scope : Scope) (mode : Mode) : Tx :=
  (tx.pushOp (.putMode scope mode)).putRow .mode scope.key mode

def deleteMode (tx : Tx) (scope : Scope) : Tx :=
  (tx.deleteRow .mode scope.key).pushOp (.deleteMode scope)

def putExporter (tx : Tx) (rec : ExporterRecord) : Tx :=
  tx.putRow .exporters (utf8 rec.info.name) rec

def deleteExporter (tx : Tx) (name : String) : Tx := tx.deleteRow .exporters (utf8 name)

def appendLog (tx : Tx) (ev : LogEvent) : Tx :=
  { tx.putRow .log (be64 tx.logSeq) ev with logSeq := tx.logSeq + 1, logDirty := true }

/-- Commit the batch; the operations are for the snapshot. -/
def commit (tx : Tx) : Store × List Op :=
  let tx :=
    if tx.logDirty then
      (tx.putRow .«meta» logSeqKey (be64 tx.logSeq)).pushOp (.setLogSeq tx.logSeq)
    else tx
  (tx.store.write tx.batch, tx.ops)

end Tx

end SchemaRegistry

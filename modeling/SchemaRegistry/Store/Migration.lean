import SchemaRegistry.Store.Container

/-!
Bringing a database written before host containers existed to the current format: every key
moves into the `default` container, in batches, and a marker written last says that it is
done. A run may stop after any batch; opening the database again runs it again.
-/

namespace SchemaRegistry

open Lib

def allCfs : List Cf :=
  [.schemas, .fingerprints, .versions, .refby, .config, .mode, .exporters, .log, .«meta»]

def formatVersionKey : Bytes := reservedByte :: utf8 "format_version"

/-- 2: every key carries the prefix of its container. -/
def formatVersion : UInt32 := 2

/-- How many rows go into one batch. -/
def batchRows : Nat := 10000

/-- The store's own rows. A change log key may start with the same byte, so they are told by
their column family as well. -/
def Cf.isReserved (c : Cf) (key : Bytes) : Bool :=
  c == .«meta» && key.head? == some reservedByte

namespace PhysicalStore

/-- The format the database says it has. -/
def formatVersion? (db : PhysicalStore) : Option UInt32 :=
  (db.get? .«meta» formatVersionKey).bind beU32

/-- The store's own rows stay, and so does what is in the container already. -/
def stays (c : Cf) (key : Bytes) : Bool :=
  c.isReserved key || TenantId.default.keyPrefix.isPrefixOf key

/-- One row goes into the container. -/
def moveRow {c : Cf} (row : Bytes × Cell c) : List BatchOp :=
  [.put c (TenantId.default.keyPrefix ++ row.1) row.2, .delete c row.1]

/-- The batches a scan of one column family writes, `batch` being the one under way with
`inBatch` rows in it. -/
def moveBatches {c : Cf} : List (Bytes × Cell c) → List BatchOp → Nat → List (List BatchOp)
  | [], batch, inBatch => if 0 < inBatch then [batch] else []
  | row :: rows, batch, inBatch =>
      if stays c row.1 then moveBatches rows batch inBatch
      else if batchRows ≤ inBatch + 1 then (batch ++ moveRow row) :: moveBatches rows [] 0
      else moveBatches rows (batch ++ moveRow row) (inBatch + 1)

/-- Write batches until they are done or the process dies: it has `budget` batches to live. -/
def writeBatches : Nat → PhysicalStore → List (List BatchOp) → PhysicalStore × Option Nat
  | budget, db, [] => (db, some budget)
  | 0, db, _ :: _ => (db, none)
  | budget + 1, db, batch :: batches => writeBatches budget (db.write batch) batches

/-- The column families one after the other, each scanned as it is when its turn comes. -/
def moveCfs : Nat → PhysicalStore → List Cf → PhysicalStore × Option Nat
  | budget, db, [] => (db, some budget)
  | budget, db, c :: cs =>
      match writeBatches budget db (moveBatches (db.rows c).toList [] 0) with
      | (db, none) => (db, none)
      | (db, some left) => moveCfs left db cs

/-- The last batch: the database is current, and it has the `default` container. -/
def markers : List BatchOp :=
  [.put .«meta» formatVersionKey (be32 formatVersion),
   .put .«meta» (tenantKeyPrefix ++ utf8 TenantId.default.name) []]

/-- One run of the migration, and whether it came to its end. -/
def migrateToCurrentFormat (budget : Nat) (db : PhysicalStore) : PhysicalStore × Bool :=
  if db.formatVersion? = some formatVersion then (db, true)
  else
    match moveCfs budget db allCfs with
    | (db, none) | (db, some 0) => (db, false)
    | (db, some (_ + 1)) => (db.write markers, true)

/-- Runs that were cut short, or were not, one after the other. -/
def restarts (db : PhysicalStore) (budgets : List Nat) : PhysicalStore :=
  budgets.foldl (fun db budget => (db.migrateToCurrentFormat budget).1) db

end PhysicalStore

end SchemaRegistry

import SchemaRegistry.Engine
import SchemaRegistry.Refinement.Keys

/-!
Which rows a batch can change. An entry reaches one key, or the keys of a range, of one
column family; a transaction's entries are all at keys of its container, and only its log
entries and its last row concern the change log.
-/

namespace SchemaRegistry

open Lib

namespace BatchOp

def cf : BatchOp → Cf
  | .put c _ _ | .delete c _ | .deleteRange c _ _ => c

/-- The keys an entry may change. -/
def Reaches (key : Bytes) : BatchOp → Prop
  | .put _ k _ | .delete _ k => k = key
  | .deleteRange _ lo hi => compare key lo ≠ .lt ∧ compare key hi = .lt

end BatchOp

namespace PhysicalStore

variable {db db' : PhysicalStore} {c : Cf} {key : Bytes} {batch : List BatchOp} {op : BatchOp}

theorem get?_deleteRange_self (db : PhysicalStore) (c : Cf) (lo hi key : Bytes) :
    (db.applyOp (.deleteRange c lo hi)).get? c key =
      if compare key lo ≠ .lt ∧ compare key hi = .lt then none else db.get? c key := by
  simp only [applyOp, get?, setCf_rows_self, Std.ExtTreeMap.getElem?_filter']
  by_cases hlo : compare key lo = .lt
  · simp only [hlo, ne_eq, not_true_eq_false, false_and, if_false]
    cases (db.rows c)[key]? <;> rfl
  · by_cases hhi : compare key hi = .lt
    · simp [hlo, hhi]
    · simp only [hhi, and_false, if_false]
      have hkeep : (compare key lo == .lt || compare key hi != .lt) = true := by simp [hhi]
      simp only [hkeep]
      cases (db.rows c)[key]? <;> rfl

theorem rows_applyOp_of_ne (h : op.cf ≠ c) : (db.applyOp op).rows c = db.rows c := by
  cases op <;> exact setCf_rows_ne db h _

theorem rows_applyOp_congr (h : db.rows c = db'.rows c) (hop : op.cf = c) :
    (db.applyOp op).rows c = (db'.applyOp op).rows c := by
  subst hop
  cases op with
  | put c k cell =>
    show (db.setCf c _).rows c = (db'.setCf c _).rows c
    rw [setCf_rows_self, setCf_rows_self, show db.rows c = db'.rows c from h]
  | delete c k =>
    show (db.setCf c _).rows c = (db'.setCf c _).rows c
    rw [setCf_rows_self, setCf_rows_self, show db.rows c = db'.rows c from h]
  | deleteRange c lo hi =>
    show (db.setCf c _).rows c = (db'.setCf c _).rows c
    rw [setCf_rows_self, setCf_rows_self, show db.rows c = db'.rows c from h]

/-- A column family changes by the entries that are for it. -/
theorem rows_write_filter (h : db.rows c = db'.rows c) :
    (db.write batch).rows c = (db'.write (batch.filter fun op => op.cf == c)).rows c := by
  induction batch generalizing db db' with
  | nil => exact h
  | cons op batch ih =>
    by_cases hop : op.cf = c
    · rw [List.filter_cons_of_pos (by simp [hop])]
      exact ih (rows_applyOp_congr h hop)
    · rw [List.filter_cons_of_neg (by simp [hop])]
      exact ih ((rows_applyOp_of_ne hop).trans h)

theorem get?_write_filter (db : PhysicalStore) (batch : List BatchOp) (c : Cf) (key : Bytes) :
    (db.write batch).get? c key = (db.write (batch.filter fun op => op.cf == c)).get? c key := by
  rw [get?, get?, rows_write_filter rfl]

theorem get?_applyOp_of_not_reaches (h : op.cf = c → ¬ op.Reaches key) :
    (db.applyOp op).get? c key = db.get? c key := by
  by_cases hop : op.cf = c
  · have hno := h hop
    subst hop
    cases op with
    | put c k cell => exact (get?_put_self db c k key cell).trans (if_neg hno)
    | delete c k => exact (get?_delete_self db c k key).trans (if_neg hno)
    | deleteRange c lo hi => exact (get?_deleteRange_self db c lo hi key).trans (if_neg hno)
  · rw [get?, get?, rows_applyOp_of_ne hop]

/-- A row that no entry reaches stays. -/
theorem get?_write_of_not_reaches (h : ∀ op ∈ batch, op.cf = c → ¬ op.Reaches key) :
    (db.write batch).get? c key = db.get? c key := by
  induction batch generalizing db with
  | nil => rfl
  | cons op batch ih =>
    have hrest : ((db.applyOp op).write batch).get? c key = (db.applyOp op).get? c key :=
      ih fun op' hmem => h op' (List.mem_cons_of_mem op hmem)
    exact hrest.trans (get?_applyOp_of_not_reaches (h op List.mem_cons_self))

end PhysicalStore

/-! ### The rows of a transaction -/

theorem ctxKey_ne_logFloorKey {ctx : String} : ctxKey ctx ≠ logFloorKey := by
  intro h
  rw [ctxKey, utf8_append] at h
  cases congrArg List.head? h

theorem nextIdKey_ne_logFloorKey {ctx : String} : nextIdKey ctx ≠ logFloorKey := by
  intro h
  rw [nextIdKey, utf8_append] at h
  cases congrArg List.head? h

/-- An entry for one row of a container that is neither a log row nor a log counter. -/
def BatchOp.PlainRow (s : Store) : BatchOp → Prop
  | .put c key _ | .delete c key =>
      c ≠ .log ∧ ∃ k, key = s.key k ∧ (c = .«meta» → k ≠ logSeqKey ∧ k ≠ logFloorKey)
  | .deleteRange .. => False

namespace Tx

/-- What staging rows makes of a transaction. -/
structure Stages (tx tx' : Tx) : Prop where
  store : tx'.store = tx.store
  logSeq : tx'.logSeq = tx.logSeq
  logDirty : tx'.logDirty = tx.logDirty
  batch : ∃ ops, tx'.batch = tx.batch ++ ops ∧ ∀ op ∈ ops, op.PlainRow tx.store

theorem Stages.trans {tx tx' tx'' : Tx} (h : Stages tx tx') (h' : Stages tx' tx'') :
    Stages tx tx'' := by
  obtain ⟨ops, hops, hplain⟩ := h.batch
  obtain ⟨ops', hops', hplain'⟩ := h'.batch
  refine ⟨h'.store.trans h.store, h'.logSeq.trans h.logSeq, h'.logDirty.trans h.logDirty,
    ops ++ ops', by rw [hops', hops, List.append_assoc], fun op hmem => ?_⟩
  rcases List.mem_append.mp hmem with hmem | hmem
  · exact hplain op hmem
  · exact h.store ▸ hplain' op hmem

theorem stages_putRow (tx : Tx) {c : Cf} {k : Bytes} (cell : Cell c) (hlog : c ≠ .log)
    (hmeta : c = .«meta» → k ≠ logSeqKey ∧ k ≠ logFloorKey) : Stages tx (tx.putRow c k cell) :=
  ⟨rfl, rfl, rfl, _, rfl, fun _ hmem => by
    rw [List.mem_singleton.mp hmem]
    exact ⟨hlog, k, rfl, hmeta⟩⟩

theorem stages_deleteRow (tx : Tx) {c : Cf} {k : Bytes} (hlog : c ≠ .log)
    (hmeta : c = .«meta» → k ≠ logSeqKey ∧ k ≠ logFloorKey) : Stages tx (tx.deleteRow c k) :=
  ⟨rfl, rfl, rfl, _, rfl, fun _ hmem => by
    rw [List.mem_singleton.mp hmem]
    exact ⟨hlog, k, rfl, hmeta⟩⟩

theorem stages_pushOp (tx : Tx) (op : Op) : Stages tx (tx.pushOp op) :=
  ⟨rfl, rfl, rfl, [], (List.append_nil _).symm, fun _ hmem => absurd hmem List.not_mem_nil⟩

theorem stages_refl (tx : Tx) : Stages tx tx :=
  ⟨rfl, rfl, rfl, [], (List.append_nil _).symm, fun _ hmem => absurd hmem List.not_mem_nil⟩

theorem plain_ctxKey {ctx : String} :
    Cf.«meta» = .«meta» → ctxKey ctx ≠ logSeqKey ∧ ctxKey ctx ≠ logFloorKey :=
  fun _ => ⟨ctxKey_ne_logSeqKey, ctxKey_ne_logFloorKey⟩

theorem plain_nextIdKey {ctx : String} :
    Cf.«meta» = .«meta» → nextIdKey ctx ≠ logSeqKey ∧ nextIdKey ctx ≠ logFloorKey :=
  fun _ => ⟨nextIdKey_ne_logSeqKey, nextIdKey_ne_logFloorKey⟩

/-- No write of a plan touches the change log. -/
theorem stages_applyWrite (tx : Tx) (w : Write) : Stages tx (tx.applyWrite w) := by
  cases w with
  | putSchema ctx id rec index =>
    have hput : Stages tx ((tx.putRow .schemas (schemaKey ctx id) rec).pushOp
        (.putSchema ctx id rec index)) :=
      (stages_putRow (c := .schemas) tx rec (by decide) (by nofun)).trans (stages_pushOp _ _)
    cases index with
    | false => exact hput
    | true => exact hput.trans (stages_putRow _ _ (by decide) (by nofun))
  | putVersion =>
    exact ((stages_putRow tx _ (by decide) (by nofun)).trans
      (stages_putRow _ _ (by decide) plain_ctxKey)).trans
      (stages_pushOp _ _)
  | deleteVersion => exact (stages_deleteRow tx (by decide) (by nofun)).trans (stages_pushOp _ _)
  | deleteSchema => exact (stages_deleteRow tx (by decide) (by nofun)).trans (stages_pushOp _ _)
  | putRefby => exact (stages_putRow tx _ (by decide) (by nofun)).trans (stages_pushOp _ _)
  | deleteRefby => exact (stages_deleteRow tx (by decide) (by nofun)).trans (stages_pushOp _ _)
  | setNextId => exact (stages_putRow tx _ (by decide) plain_nextIdKey).trans (stages_pushOp _ _)
  | putConfig => exact (stages_pushOp tx _).trans (stages_putRow _ _ (by decide) (by nofun))
  | deleteConfig => exact (stages_deleteRow tx (by decide) (by nofun)).trans (stages_pushOp _ _)
  | putMode => exact (stages_pushOp tx _).trans (stages_putRow _ _ (by decide) (by nofun))
  | deleteMode => exact (stages_deleteRow tx (by decide) (by nofun)).trans (stages_pushOp _ _)
  | deleteContext => exact (stages_deleteRow tx (by decide) plain_ctxKey).trans (stages_pushOp _ _)
  | putExporter => exact stages_putRow tx _ (by decide) (by nofun)
  | deleteExporter => exact stages_deleteRow tx (by decide) (by nofun)

theorem stages_applyWrites (tx : Tx) (ws : List Write) : Stages tx (ws.foldl applyWrite tx) := by
  induction ws generalizing tx with
  | nil => exact stages_refl tx
  | cons w ws ih => exact (stages_applyWrite tx w).trans (ih _)

/-- The batch a commit writes: the rows, and the new sequence counter if something was logged. -/
def lastBatch (tx : Tx) : List BatchOp :=
  if tx.logDirty then tx.batch ++ [.put .«meta» (tx.store.key logSeqKey) (be64 tx.logSeq)]
  else tx.batch

theorem commit_fst (tx : Tx) : tx.commit.1 = tx.store.write tx.lastBatch := by
  unfold commit lastBatch
  cases tx.logDirty <;> rfl

end Tx

end SchemaRegistry

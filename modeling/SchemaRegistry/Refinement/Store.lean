import SchemaRegistry.Engine
import SchemaRegistry.Refinement.Keys
import SchemaRegistry.Refinement.Snapshot

/-!
The byte store implements the table of rows. Each row is read at its key
(`Store.row`), the batch of a write acts on rows as the write does
(`row_applyWrites`), and the snapshot rebuilt from the store holds the same rows
(`loadSnapshot_spec`), as long as names are without NUL.
-/

namespace SchemaRegistry

open Lib

/-! ### Single rows -/

namespace Store

variable (s : Store) {c c' : Cf} {k k' : Bytes}

/-- The store with one row put or deleted. -/
def setRow (s : Store) (c : Cf) (k : Bytes) : Option (Cell c) → Store
  | some cell => s.write [.put c (s.key k) cell]
  | none => s.write [.delete c (s.key k)]

theorem key_inj : s.key k = s.key k' ↔ k = k' := List.append_right_inj _

@[simp] theorem get?_setRow_self (x : Option (Cell c)) :
    (s.setRow c k x).get? c k' = if k = k' then x else s.get? c k' := by
  cases x with
  | none =>
    show (s.db.applyOp (.delete c (s.key k))).get? c (s.key k') = _
    simp [key_inj, get?]
  | some cell =>
    show (s.db.applyOp (.put c (s.key k) cell)).get? c (s.key k') = _
    simp [key_inj, get?]

theorem get?_setRow_ne (h : c = c' → k ≠ k') (x : Option (Cell c)) :
    (s.setRow c k x).get? c' k' = s.get? c' k' := by
  rcases eq_or_ne c c' with rfl | hc
  · simp [h rfl]
  · cases x with
    | none => exact PhysicalStore.get?_delete_ne _ hc ..
    | some cell => exact PhysicalStore.get?_put_ne _ hc ..

end Store

/-! ### Where a row is stored -/

namespace RowKey

/-- The table a row is in. -/
@[reducible] def cf : RowKey → Cf
  | .version .. => .versions
  | .body .. => .schemas
  | .refby .. => .refby
  | .fingerprint .. => .fingerprints
  | .nextId _ => .«meta»
  | .known _ => .«meta»
  | .config _ => .config
  | .mode _ => .mode
  | .exporter _ => .exporters

/-- The key of a row in its table. -/
def bytes : RowKey → Bytes
  | .version ctx subject v => versionKey ctx subject v
  | .body ctx id => schemaKey ctx id
  | .refby ctx subject v id => refbyKey ctx subject v id
  | .fingerprint ctx fp => fpKey ctx fp
  | .nextId ctx => nextIdKey ctx
  | .known ctx => ctxKey ctx
  | .config scope => scope.key
  | .mode scope => scope.key
  | .exporter name => utf8 name

/-- What a stored value says about a row. -/
def decode : (k : RowKey) → Option (Cell k.cf) → RowVal k
  | .version .., x => x
  | .body .., x => x
  | .refby .., x => x.isSome
  | .fingerprint .., x => x.bind beU32
  | .nextId _, x => x.bind beU32
  | .known _, x => x.isSome
  | .config _, x => x
  | .mode _, x => x
  | .exporter _, x => x

/-- The names in a row's key are without NUL, as far as the key depends on it. -/
def NulFree : RowKey → Prop
  | .version ctx subject _ => Lib.NulFree ctx ∧ Lib.NulFree subject
  | .refby ctx subject _ _ => Lib.NulFree ctx ∧ Lib.NulFree subject
  | .fingerprint ctx _ => Lib.NulFree ctx
  | .config scope => scope.NulFree
  | .mode scope => scope.NulFree
  | _ => True

/-- Different rows are stored in different places; only the tables a snapshot indexes have
keys that need their names to be without NUL. -/
theorem eq_of_place {k k' : RowKey} (hnul : k'.indexed → k.NulFree ∧ k'.NulFree)
    (hcf : k.cf = k'.cf) (hbytes : k.bytes = k'.bytes) : k = k' := by
  cases k' with
  | version =>
    obtain ⟨hk, hk'⟩ := hnul trivial
    cases k <;> cases hcf
    simpa using (versionKey_inj hk.1 hk.2 hk'.1 hk'.2).mp hbytes
  | body =>
    cases k <;> cases hcf
    simpa using schemaKey_inj.mp hbytes
  | refby =>
    obtain ⟨hk, hk'⟩ := hnul trivial
    cases k <;> cases hcf
    simpa using (refbyKey_inj hk.1 hk.2 hk'.1 hk'.2).mp hbytes
  | fingerprint =>
    obtain ⟨hk, hk'⟩ := hnul trivial
    cases k <;> cases hcf
    simpa using (fpKey_inj hk hk').mp hbytes
  | nextId =>
    cases k <;> cases hcf
    · simpa using nextIdKey_inj.mp hbytes
    · exact (ctxKey_ne_nextIdKey hbytes).elim
  | known =>
    cases k <;> cases hcf
    · exact (ctxKey_ne_nextIdKey hbytes.symm).elim
    · simpa using ctxKey_inj.mp hbytes
  | config =>
    obtain ⟨hk, hk'⟩ := hnul trivial
    cases k <;> cases hcf
    simpa using (Scope.key_inj hk hk').mp hbytes
  | mode =>
    obtain ⟨hk, hk'⟩ := hnul trivial
    cases k <;> cases hcf
    simpa using (Scope.key_inj hk hk').mp hbytes
  | exporter =>
    cases k <;> cases hcf
    simpa using utf8_injective hbytes

end RowKey

namespace Store

variable (s : Store) {k k' : RowKey}

/-- What a store holds under a key. -/
def row (s : Store) : Rows := fun k => k.decode (s.get? k.cf k.bytes)

def setAt (s : Store) (k : RowKey) (x : Option (Cell k.cf)) : Store := s.setRow k.cf k.bytes x

theorem row_setAt_self (x : Option (Cell k.cf)) : (s.setAt k x).row k = k.decode x := by
  simp [row, setAt]

theorem row_setAt_ne (hnul : k'.indexed → k.NulFree ∧ k'.NulFree) (h : k ≠ k')
    (x : Option (Cell k.cf)) : (s.setAt k x).row k' = s.row k' :=
  congrArg _ (get?_setRow_ne s (fun e e' => h (RowKey.eq_of_place hnul e e')) x)

/-- The store after one write. -/
def applyWrite (s : Store) : Write → Store
  | .putSchema ctx id rec index =>
      let s := s.setAt (.body ctx id) (some rec)
      if index then s.setAt (.fingerprint ctx rec.fingerprint) (some (be32 id)) else s
  | .putVersion ctx subject version rec =>
      (s.setAt (.version ctx subject version) (some rec)).setAt (.known ctx) (some ([] : Bytes))
  | .deleteVersion ctx subject version _ => s.setAt (.version ctx subject version) none
  | .deleteSchema ctx id => s.setAt (.body ctx id) none
  | .putRefby ctx subject version id =>
      s.setAt (.refby ctx subject version id) (some ([] : Bytes))
  | .deleteRefby ctx subject version id => s.setAt (.refby ctx subject version id) none
  | .setNextId ctx next => s.setAt (.nextId ctx) (some (be32 next))
  | .putConfig scope rec => s.setAt (.config scope) (some rec)
  | .deleteConfig scope => s.setAt (.config scope) none
  | .putMode scope mode => s.setAt (.mode scope) (some mode)
  | .deleteMode scope => s.setAt (.mode scope) none
  | .deleteContext ctx => s.setAt (.known ctx) none
  | .putExporter rec => s.setAt (.exporter rec.info.name) (some rec)
  | .deleteExporter name => s.setAt (.exporter name) none

end Store

/-- The names in a write's keys are without NUL. -/
def Write.NulFree : Write → Prop
  | .putSchema ctx _ _ _ => Lib.NulFree ctx
  | .putVersion ctx subject _ _ => Lib.NulFree ctx ∧ Lib.NulFree subject
  | .deleteVersion ctx subject _ _ => Lib.NulFree ctx ∧ Lib.NulFree subject
  | .putRefby ctx subject _ _ => Lib.NulFree ctx ∧ Lib.NulFree subject
  | .deleteRefby ctx subject _ _ => Lib.NulFree ctx ∧ Lib.NulFree subject
  | .putConfig scope _ => scope.NulFree
  | .deleteConfig scope => scope.NulFree
  | .putMode scope _ => scope.NulFree
  | .deleteMode scope => scope.NulFree
  | _ => True

theorem Write.nulFree_of_mem_keys {w : Write} {k : RowKey} (hw : w.NulFree) (hk : k ∈ w.keys) :
    k.NulFree := by
  cases w with
  | putSchema ctx id rec index =>
    cases index <;> simp_all [Write.keys, Write.NulFree, RowKey.NulFree]
    rcases hk with rfl | rfl
    · trivial
    · exact hw
  | putVersion ctx subject version rec =>
    rcases List.mem_cons.mp hk with rfl | hk
    · exact hw
    · obtain rfl := List.mem_singleton.mp hk
      trivial
  | _ =>
    obtain rfl := List.mem_singleton.mp hk
    exact hw

namespace Store

/-- A write that sets one row acts as it does on the table. -/
theorem row_setAt_eq_write (s : Store) {w : Write} {k k' : RowKey} {x : Option (Cell k.cf)}
    (hnul : k'.indexed → k.NulFree ∧ k'.NulFree) (hself : w.touch k = some (k.decode x))
    (hkeys : w.keys = [k]) :
    (s.setAt k x).row k' = Lib.write Write.touch s.row w k' := by
  rcases eq_or_ne k k' with rfl | h
  · rw [row_setAt_self, write_of_touch hself]
  · rw [row_setAt_ne s hnul h, write_of_untouched (Write.touch_eq_none ?_)]
    simpa [hkeys] using h.symm

theorem row_applyWrite (s : Store) {w : Write} {k : RowKey}
    (hnul : k.indexed → w.NulFree ∧ k.NulFree) :
    (s.applyWrite w).row k = Lib.write Write.touch s.row w k := by
  cases w with
  | putSchema ctx id rec index =>
    have hbody : (s.setAt (.body ctx id) (some rec)).row k
        = Lib.write Write.touch s.row (.putSchema ctx id rec false) k :=
      row_setAt_eq_write s (fun h => ⟨trivial, (hnul h).2⟩)
        (by simp [Write.touch, RowKey.decode]) rfl
    cases index with
    | false => exact hbody
    | true =>
      show ((s.setAt (.body ctx id) (some rec)).setAt (.fingerprint ctx rec.fingerprint)
        (some (be32 id))).row k = _
      rcases eq_or_ne (RowKey.fingerprint ctx rec.fingerprint) k with rfl | h
      · rw [row_setAt_self]
        simp [RowKey.decode, Lib.write, Write.touch]
      · rw [row_setAt_ne _ (k := .fingerprint ctx rec.fingerprint) hnul h, hbody]
        cases k <;> simp_all [Lib.write, Write.touch]
  | putVersion ctx subject version rec =>
    show ((s.setAt (.version ctx subject version) (some rec)).setAt (.known ctx)
      (some ([] : Bytes))).row k = _
    rcases eq_or_ne (RowKey.known ctx) k with rfl | h
    · rw [row_setAt_self]
      simp [RowKey.decode, Lib.write, Write.touch]
    · rw [row_setAt_ne _ (k := .known ctx) (fun h => ⟨trivial, (hnul h).2⟩) h]
      rcases eq_or_ne (RowKey.version ctx subject version) k with rfl | h'
      · rw [row_setAt_self]
        simp [RowKey.decode, Lib.write, Write.touch]
      · rw [row_setAt_ne _ (k := .version ctx subject version) hnul h',
          write_of_untouched (Write.touch_eq_none ?_)]
        simp [Write.keys, h.symm, h'.symm]
  | deleteVersion | deleteSchema | putRefby | deleteRefby | setNextId | putConfig | deleteConfig
  | putMode | deleteMode | deleteContext | putExporter | deleteExporter =>
    refine row_setAt_eq_write s ?_ ?_ rfl
    · exact hnul
    · simp [Write.touch, RowKey.decode]

/-- The store after a list of writes. -/
def applyWrites (s : Store) (ws : List Write) : Store := ws.foldl applyWrite s

theorem row_applyWrites (s : Store) {ws : List Write} {k : RowKey}
    (hnul : k.indexed → (∀ w ∈ ws, w.NulFree) ∧ k.NulFree) :
    (s.applyWrites ws).row k = s.row.after ws k := by
  induction ws generalizing s with
  | nil => rfl
  | cons w ws ih =>
    refine (ih _ fun h => ⟨fun v hv => (hnul h).1 v (List.mem_cons_of_mem w hv),
      (hnul h).2⟩).trans ?_
    exact writeAll_congr (row_applyWrite s fun h => ⟨(hnul h).1 w List.mem_cons_self, (hnul h).2⟩)

end Store

/-! ### What a transaction commits -/

/-- The store after the change log got the events, numbered from `seq`. -/
def Store.appendEvents (s : Store) (seq : UInt64) : List LogEvent → Store
  | [] => s
  | ev :: evs => (s.setRow .log (be64 seq) (some ev)).appendEvents (seq + 1) evs

namespace Tx

variable (tx : Tx)

/-- The store as it would be if the batch collected so far were committed. -/
def flushed (tx : Tx) : Store := tx.store.write tx.batch

theorem flushed_putRow (c : Cf) (k : Bytes) (cell : Cell c) :
    (tx.putRow c k cell).flushed = tx.flushed.setRow c k (some cell) := by
  simp [flushed, putRow, Store.setRow, Store.write, PhysicalStore.write, Store.key, Store.keyPrefix]

theorem flushed_deleteRow (c : Cf) (k : Bytes) :
    (tx.deleteRow c k).flushed = tx.flushed.setRow c k none := by
  simp [flushed, deleteRow, Store.setRow, Store.write, PhysicalStore.write, Store.key,
    Store.keyPrefix]

@[simp] theorem flushed_pushOp (op : Op) : (tx.pushOp op).flushed = tx.flushed := rfl

theorem flushed_applyWrite (w : Write) :
    (tx.applyWrite w).flushed = tx.flushed.applyWrite w := by
  cases w with
  | putSchema ctx id rec index =>
    cases index <;>
      simp only [Tx.applyWrite, putSchema, flushed_putRow, flushed_pushOp, if_true,
        Bool.false_eq_true, if_false] <;> rfl
  | _ =>
    simp only [Tx.applyWrite, putVersion, putRefby, setNextId, putConfig, putMode, putExporter,
      deleteVersion, deleteSchema, deleteRefby, deleteConfig, deleteMode, deleteContext,
      deleteExporter, flushed_putRow, flushed_deleteRow, flushed_pushOp]
    rfl

/-- A write goes into the batch and, mirrored, into the operations; nothing else changes. -/
theorem applyWrite_spec (w : Write) : (tx.applyWrite w).flushed = tx.flushed.applyWrite w ∧
    (tx.applyWrite w).ops = tx.ops ++ w.op.toList ∧ (tx.applyWrite w).logSeq = tx.logSeq ∧
    (tx.applyWrite w).logDirty = tx.logDirty := by
  refine ⟨flushed_applyWrite tx w, ?_⟩
  cases w with
  | putSchema ctx id rec index => cases index <;> exact ⟨rfl, rfl, rfl⟩
  | putExporter | deleteExporter => exact ⟨(List.append_nil _).symm, rfl, rfl⟩
  | _ => exact ⟨rfl, rfl, rfl⟩

theorem applyWrites_spec (ws : List Write) :
    (ws.foldl applyWrite tx).flushed = tx.flushed.applyWrites ws ∧
    (ws.foldl applyWrite tx).ops = tx.ops ++ ws.filterMap Write.op ∧
    (ws.foldl applyWrite tx).logSeq = tx.logSeq ∧
    (ws.foldl applyWrite tx).logDirty = tx.logDirty := by
  induction ws generalizing tx with
  | nil => simp [Store.applyWrites]
  | cons w ws ih =>
    obtain ⟨hf, ho, hl, hd⟩ := applyWrite_spec tx w
    obtain ⟨hf', ho', hl', hd'⟩ := ih (tx.applyWrite w)
    refine ⟨hf'.trans (by rw [hf]; rfl), ?_, hl'.trans hl, hd'.trans hd⟩
    rw [List.foldl_cons, ho', ho]
    cases h : w.op <;> simp [h]

theorem appendLog_spec (evs : List LogEvent) :
    (evs.foldl appendLog tx).flushed = tx.flushed.appendEvents tx.logSeq evs ∧
    (evs.foldl appendLog tx).ops = tx.ops ∧
    (evs.foldl appendLog tx).logSeq = tx.logSeq + evs.length.toUInt64 ∧
    (evs.foldl appendLog tx).logDirty = (tx.logDirty || !evs.isEmpty) := by
  induction evs generalizing tx with
  | nil => simp [Store.appendEvents]
  | cons ev evs ih =>
    obtain ⟨hf, ho, hl, hd⟩ := ih (tx.appendLog ev)
    refine ⟨hf.trans ?_, ho, hl.trans ?_, hd.trans ?_⟩
    · show Store.appendEvents (flushed (tx.putRow .log (be64 tx.logSeq) ev)) (tx.logSeq + 1) evs = _
      rw [flushed_putRow]
      rfl
    · simp [appendLog, UInt64.ofNat_add, UInt64.add_assoc, UInt64.add_comm 1]
    · simp [appendLog]

theorem commit_eq : tx.commit =
    if tx.logDirty then
      (tx.flushed.setRow .«meta» logSeqKey (some (be64 tx.logSeq)),
        tx.ops ++ [.setLogSeq tx.logSeq])
    else (tx.flushed, tx.ops) := by
  unfold commit
  cases tx.logDirty with
  | false => rfl
  | true => exact Prod.ext (flushed_putRow tx .«meta» logSeqKey (be64 tx.logSeq)) rfl

end Tx

/-- The sequence number after a list of events. -/
def nextSeq (seq : UInt64) (evs : List LogEvent) : UInt64 := seq + evs.length.toUInt64

namespace Store

variable {α : Type} (s : Store) (plan : Plan α)

/-- The store after a plan: its writes, its events and, if there are any, the new
sequence number. -/
def afterPlan (s : Store) (plan : Plan α) : Store :=
  let s' := (s.applyWrites plan.writes).appendEvents s.logSeq plan.events
  if plan.events.isEmpty then s'
  else s'.setRow .«meta» logSeqKey (some (be64 (nextSeq s.logSeq plan.events)))

/-- The operations that publish a plan. -/
def planOps (s : Store) (plan : Plan α) : List Op :=
  plan.writes.filterMap Write.op
    ++ if plan.events.isEmpty then [] else [.setLogSeq (nextSeq s.logSeq plan.events)]

theorem commit_planTx : (s.planTx plan).commit = (s.afterPlan plan, s.planOps plan) := by
  obtain ⟨hf, ho, hl, hd⟩ := Tx.applyWrites_spec s.tx plan.writes
  obtain ⟨hf', ho', hl', hd'⟩ :=
    Tx.appendLog_spec (plan.writes.foldl Tx.applyWrite s.tx) plan.events
  have hflushed : (s.planTx plan).flushed
      = (s.applyWrites plan.writes).appendEvents s.logSeq plan.events := by
    rw [planTx, hf', hf, hl]
    rfl
  have hops : (s.planTx plan).ops = plan.writes.filterMap Write.op := ho'.trans ho
  have hseq : (s.planTx plan).logSeq = nextSeq s.logSeq plan.events := by
    rw [planTx, hl', hl]
    rfl
  have hdirty : (s.planTx plan).logDirty = !plan.events.isEmpty := by
    rw [planTx, hd', hd]
    rfl
  rw [Tx.commit_eq, hflushed, hops, hseq, hdirty, afterPlan, planOps]
  cases plan.events.isEmpty <;> simp

end Store

/-! ### Every key is one the container writes -/

/-- The keys and values the container's operations store, with names that decode. -/
inductive Placed : (c : Cf) → Bytes → Cell c → Prop
  | row {k : RowKey} (hk : k.NulFree) {x : Cell k.cf} (hx : k.decode (some x) ≠ Rows.empty k) :
      Placed k.cf k.bytes x
  | logSeq (x : Bytes) : Placed .«meta» logSeqKey x
  | log (k : Bytes) (ev : LogEvent) : Placed .log k ev

namespace Store

/-- Everything in the container was placed there by its own operations. -/
def WellKeyed (s : Store) : Prop := ∀ c k x, s.get? c k = some x → Placed c k x

theorem WellKeyed.setRow {s : Store} (h : s.WellKeyed) {c : Cf} {k : Bytes} {x : Option (Cell c)}
    (hx : ∀ cell ∈ x, Placed c k cell) : (s.setRow c k x).WellKeyed := by
  intro c' k' cell hcell
  by_cases hplace : c = c' ∧ k = k'
  · obtain ⟨rfl, rfl⟩ := hplace
    rw [get?_setRow_self, if_pos rfl] at hcell
    exact hx cell hcell
  · rw [get?_setRow_ne s fun e e' => hplace ⟨e, e'⟩] at hcell
    exact h c' k' cell hcell

theorem WellKeyed.setAt {s : Store} (h : s.WellKeyed) {k : RowKey} (hk : k.NulFree)
    {x : Option (Cell k.cf)} (hx : ∀ cell ∈ x, k.decode (some cell) ≠ Rows.empty k) :
    (s.setAt k x).WellKeyed :=
  h.setRow fun cell hcell => .row hk (hx cell hcell)

theorem WellKeyed.applyWrite {s : Store} (h : s.WellKeyed) {w : Write} (hw : w.NulFree) :
    (s.applyWrite w).WellKeyed := by
  cases w with
  | putSchema ctx id rec index =>
    have hbody := h.setAt (k := .body ctx id) trivial (x := some rec)
      (by simp [RowKey.decode, Rows.empty])
    cases index with
    | false => exact hbody
    | true =>
      exact hbody.setAt (k := .fingerprint ctx rec.fingerprint) hw (x := some (be32 id))
        (by simp [RowKey.decode, Rows.empty])
  | putVersion ctx subject version rec =>
    have hver := h.setAt (k := .version ctx subject version) hw (x := some rec)
      (by simp [RowKey.decode, Rows.empty])
    exact hver.setAt (k := .known ctx) trivial (x := some ([] : Bytes))
      (by simp [RowKey.decode, Rows.empty])
  | deleteVersion ctx subject version id =>
    exact h.setAt (k := .version ctx subject version) hw (x := none) (by simp)
  | deleteSchema ctx id => exact h.setAt (k := .body ctx id) trivial (x := none) (by simp)
  | putRefby ctx subject version id =>
    exact h.setAt (k := .refby ctx subject version id) hw (x := some ([] : Bytes))
      (by simp [RowKey.decode, Rows.empty])
  | deleteRefby ctx subject version id =>
    exact h.setAt (k := .refby ctx subject version id) hw (x := none) (by simp)
  | setNextId ctx next =>
    exact h.setAt (k := .nextId ctx) trivial (x := some (be32 next))
      (by simp [RowKey.decode, Rows.empty])
  | putConfig scope rec =>
    exact h.setAt (k := .config scope) hw (x := some rec) (by simp [RowKey.decode, Rows.empty])
  | deleteConfig scope => exact h.setAt (k := .config scope) hw (x := none) (by simp)
  | putMode scope mode =>
    exact h.setAt (k := .mode scope) hw (x := some mode) (by simp [RowKey.decode, Rows.empty])
  | deleteMode scope => exact h.setAt (k := .mode scope) hw (x := none) (by simp)
  | deleteContext ctx => exact h.setAt (k := .known ctx) trivial (x := none) (by simp)
  | putExporter rec =>
    exact h.setAt (k := .exporter rec.info.name) trivial (x := some rec)
      (by simp [RowKey.decode, Rows.empty])
  | deleteExporter name => exact h.setAt (k := .exporter name) trivial (x := none) (by simp)

theorem WellKeyed.applyWrites {s : Store} (h : s.WellKeyed) {ws : List Write}
    (hws : ∀ w ∈ ws, w.NulFree) : (s.applyWrites ws).WellKeyed := by
  induction ws generalizing s with
  | nil => exact h
  | cons w ws ih =>
    exact ih (h.applyWrite (hws w List.mem_cons_self)) fun v hv =>
      hws v (List.mem_cons_of_mem w hv)

theorem WellKeyed.appendEvents {s : Store} (h : s.WellKeyed) (seq : UInt64) (evs : List LogEvent) :
    (s.appendEvents seq evs).WellKeyed := by
  induction evs generalizing s seq with
  | nil => exact h
  | cons ev evs ih => exact ih (h.setRow fun cell _ => .log _ cell) _

variable {α : Type} {s : Store} {plan : Plan α}

theorem WellKeyed.afterPlan (h : s.WellKeyed) (hws : ∀ w ∈ plan.writes, w.NulFree) :
    (s.afterPlan plan).WellKeyed := by
  have hlog := (h.applyWrites hws).appendEvents s.logSeq plan.events
  rw [Store.afterPlan]
  split
  · exact hlog
  · exact hlog.setRow fun cell _ => .logSeq cell

/-! ### The log does not touch the rows -/

theorem get?_appendEvents (s : Store) (seq : UInt64) (evs : List LogEvent) {c : Cf} (hc : .log ≠ c)
    (k : Bytes) : (s.appendEvents seq evs).get? c k = s.get? c k := by
  induction evs generalizing s seq with
  | nil => rfl
  | cons ev evs ih => exact (ih _ _).trans (get?_setRow_ne s (fun e => absurd e hc) _)

theorem place_ne_logSeq (k : RowKey) (h : k.cf = .«meta») : k.bytes ≠ logSeqKey := by
  cases k <;> cases h
  · exact nextIdKey_ne_logSeqKey
  · exact ctxKey_ne_logSeqKey

theorem row_setLogSeq (s : Store) (x : Option Bytes) (k : RowKey) :
    (s.setRow .«meta» logSeqKey x).row k = s.row k := by
  have hget : (s.setRow .«meta» logSeqKey x).get? k.cf k.bytes = s.get? k.cf k.bytes :=
    get?_setRow_ne s (fun e => (place_ne_logSeq k e.symm).symm) x
  rw [row, row, hget]

theorem row_afterPlan (s : Store) {k : RowKey}
    (hnul : k.indexed → (∀ w ∈ plan.writes, w.NulFree) ∧ k.NulFree) :
    (s.afterPlan plan).row k = s.row.after plan.writes k := by
  rw [← row_applyWrites s hnul]
  have hlog : ((s.applyWrites plan.writes).appendEvents s.logSeq plan.events).row k
      = (s.applyWrites plan.writes).row k := by
    rw [row, row, get?_appendEvents _ _ _ (by cases k <;> simp)]
  rw [afterPlan]
  split
  · exact hlog
  · rw [row_setLogSeq, hlog]

theorem logSeq_setAt (s : Store) (k : RowKey) (x : Option (Cell k.cf)) :
    (s.setAt k x).logSeq = s.logSeq := by
  rw [logSeq, logSeq, setAt, get?_setRow_ne s (place_ne_logSeq k)]

theorem logSeq_applyWrites (s : Store) (ws : List Write) :
    (s.applyWrites ws).logSeq = s.logSeq := by
  induction ws generalizing s with
  | nil => rfl
  | cons w ws ih =>
    refine (ih _).trans ?_
    cases w with
    | putSchema ctx id rec index =>
      cases index <;> simp [applyWrite, logSeq_setAt]
    | _ => simp [applyWrite, logSeq_setAt]

theorem logSeq_afterPlan (s : Store) :
    (s.afterPlan plan).logSeq = nextSeq s.logSeq plan.events := by
  rw [afterPlan]
  split
  · next h =>
      have hseq : ((s.applyWrites plan.writes).appendEvents s.logSeq plan.events).logSeq
          = s.logSeq := by
        rw [logSeq, get?_appendEvents _ _ _ (by simp)]
        exact logSeq_applyWrites s plan.writes
      rw [hseq, List.isEmpty_iff.mp h]
      simp [nextSeq]
  · simp [logSeq]

end Store

end SchemaRegistry

import SchemaRegistry.History
import SchemaRegistry.Store.Batch

/-!
Host containers share a database and nothing else. Every key of a container starts with its
name and a zero byte, which no name holds, so no key is in two containers; a range between two
keys of a container has no key of another; and a scan of a container starts and ends inside it.
Whatever is done through one container, every read of another answers as before.
-/

namespace SchemaRegistry

open Lib

/-! ### What is done through a container -/

/-- A change made through a container. Reads are not among them: they change nothing. -/
inductive ContainerOp where
  | request (req : Request)
  /-- The exporter worker's write to a record. -/
  | exporterState (name : String) (expected new : UInt64) (state : ExporterState)
      (trace : Option String) (now : Int)
  | pruneLog (before : UInt64)
  | putMetaString (key value : String)
  | register

namespace Registry

def perform (srv : Server) (reg : Registry) : ContainerOp → Registry
  | .request req => reg.step srv req
  | .exporterState name expected new state trace now =>
      reg.exporterState name expected new state trace now
  | .pruneLog before => { reg with store := reg.store.pruneLog before }
  | .putMetaString key value => { reg with store := reg.store.putMetaString key value }
  | .register => { reg with store := reg.store.register }

def performAll (srv : Server) (reg : Registry) (ops : List ContainerOp) : Registry :=
  ops.foldl (perform srv) reg

end Registry

/-- Two stores of one container that no read can tell apart. -/
structure Store.SameReads (s s' : Store) : Prop where
  snapshot : s'.loadSnapshot = s.loadSnapshot
  schema : ∀ ctx id, s'.getSchema ctx id = s.getSchema ctx id
  exporters : s'.listExporters = s.listExporters
  exporter : ∀ name, s'.getExporter name = s.getExporter name
  log : ∀ start limit, s'.readLog start limit = s.readLog start limit
  logSeq : s'.logSeq = s.logSeq
  logFloor : s'.logFloor = s.logFloor
  metaString : ∀ key, s'.getMetaString key = s.getMetaString key

/-! ### Keys of different containers -/

theorem TenantId.nulFree (t : TenantId) : NulFree t.name := by
  intro hmem
  have hvalid := t.valid
  simp only [isValidTenant, Bool.and_eq_true, List.all_eq_true] at hvalid
  have hchar := hvalid.2 _ hmem
  revert hchar
  decide

theorem TenantId.eq_of_keyPrefix {a b : TenantId} {key : Bytes} (ha : a.keyPrefix <+: key)
    (hb : b.keyPrefix <+: key) : a.name = b.name := by
  obtain ⟨rest, rfl⟩ := ha
  obtain ⟨rest', heq⟩ := hb
  simp only [keyPrefix, List.append_assoc, List.singleton_append] at heq
  have := append_sep_inj (zero_not_mem_utf8 b.nulFree) (zero_not_mem_utf8 a.nulFree) heq
  exact (utf8_injective this.1).symm

/-- The store's own keys are in no container. -/
theorem TenantId.not_keyPrefix_reserved (t : TenantId) (rest : Bytes) :
    ¬ t.keyPrefix <+: reservedByte :: rest := by
  rintro ⟨more, heq⟩
  rw [keyPrefix, List.append_assoc] at heq
  cases hname : utf8 t.name with
  | nil =>
    have hempty : t.name = "" := utf8_injective hname
    have hvalid := t.valid
    rw [hempty] at hvalid
    revert hvalid
    decide
  | cons b bs =>
    rw [hname, List.cons_append] at heq
    have hb : b = 0 := (List.cons.inj heq).1
    exact zero_not_mem_utf8 t.nulFree (by rw [hname, hb]; exact List.mem_cons_self)

/-- An entry at keys of a container, or a range between two of them. -/
def BatchOp.InContainer (t : TenantId) : BatchOp → Prop
  | .put _ key _ | .delete _ key => t.keyPrefix <+: key
  | .deleteRange _ lo hi => t.keyPrefix <+: lo ∧ t.keyPrefix <+: hi

/-- Such an entry reaches keys of the container only. -/
theorem BatchOp.InContainer.keyPrefix_of_reaches {t : TenantId} {op : BatchOp} {key : Bytes}
    (h : op.InContainer t) (hreach : op.Reaches key) : t.keyPrefix <+: key := by
  cases op with
  | put c k cell => exact hreach ▸ h
  | delete c k => exact hreach ▸ h
  | deleteRange c lo hi =>
    obtain ⟨⟨rest, hlo⟩, ⟨rest', hhi⟩⟩ := h
    obtain ⟨hge, hlt⟩ := hreach
    refine isPrefix_of_between (t := rest') ?_ ?_
    · have hfront := le_of_isPrefix (List.prefix_append t.keyPrefix rest)
      rw [hlo] at hfront
      intro hgt
      refine hge ?_
      have hkey := Std.OrientedCmp.lt_of_gt hgt
      cases hcmp : compare t.keyPrefix lo with
      | gt => exact absurd hcmp hfront
      | eq => rwa [Std.LawfulEqOrd.compare_eq_iff_eq.mp hcmp] at hkey
      | lt => exact Std.TransCmp.lt_trans hkey hcmp
    · rw [hhi, hlt]
      decide

/-! ### What a batch of a container leaves alone -/

/-- The two databases hold the same rows in a container. -/
def PhysicalStore.SameUnder (t : TenantId) (db db' : PhysicalStore) : Prop :=
  ∀ c key, t.keyPrefix <+: key → db'.get? c key = db.get? c key

theorem PhysicalStore.SameUnder.trans {t : TenantId} {db db' db'' : PhysicalStore}
    (h : SameUnder t db db') (h' : SameUnder t db' db'') : SameUnder t db db'' :=
  fun c key hkey => (h' c key hkey).trans (h c key hkey)

theorem PhysicalStore.sameUnder_write {a b : TenantId} (hab : a.name ≠ b.name)
    (db : PhysicalStore) {batch : List BatchOp} (h : ∀ op ∈ batch, op.InContainer a) :
    SameUnder b db (db.write batch) := by
  intro c key hkey
  refine get?_write_of_not_reaches fun op hop _ hreach => hab ?_
  exact TenantId.eq_of_keyPrefix ((h op hop).keyPrefix_of_reaches hreach) hkey

theorem Store.keyPrefix_isPrefix_key (s : Store) (k : Bytes) : s.tenant.keyPrefix <+: s.key k :=
  List.prefix_append _ _

theorem BatchOp.PlainRow.inContainer {s : Store} {op : BatchOp} (h : op.PlainRow s) :
    op.InContainer s.tenant := by
  cases op with
  | put c key cell =>
    obtain ⟨-, k, rfl, -⟩ := h
    exact s.keyPrefix_isPrefix_key k
  | delete c key =>
    obtain ⟨-, k, rfl, -⟩ := h
    exact s.keyPrefix_isPrefix_key k
  | deleteRange c lo hi => exact h.elim

theorem Tx.inContainer_appendLogs (tx : Tx) (evs : List LogEvent)
    (h : ∀ op ∈ tx.batch, op.InContainer tx.store.tenant) :
    (evs.foldl Tx.appendLog tx).store = tx.store
      ∧ ∀ op ∈ (evs.foldl Tx.appendLog tx).batch, op.InContainer tx.store.tenant := by
  induction evs generalizing tx with
  | nil => exact ⟨rfl, h⟩
  | cons ev evs ih =>
    refine ih (tx.appendLog ev) fun op hop => ?_
    rcases List.mem_append.mp hop with hop | hop
    · exact h op hop
    · rw [List.mem_singleton.mp hop]
      exact tx.store.keyPrefix_isPrefix_key _

/-- The batch of a plan is at keys of the container. -/
theorem Store.inContainer_planTx {α : Type} (s : Store) (plan : Plan α) :
    (s.planTx plan).store = s ∧ ∀ op ∈ (s.planTx plan).lastBatch, op.InContainer s.tenant := by
  have hstages := Tx.stages_applyWrites s.tx plan.writes
  obtain ⟨ops, hops, hplain⟩ := hstages.batch
  have hstore : (plan.writes.foldl Tx.applyWrite s.tx).store = s := hstages.store
  have hwrites : ∀ op ∈ (plan.writes.foldl Tx.applyWrite s.tx).batch,
      op.InContainer (plan.writes.foldl Tx.applyWrite s.tx).store.tenant := by
    intro op hop
    rw [hops] at hop
    rw [hstore]
    exact (hplain op hop).inContainer
  obtain ⟨hsame, hlogs⟩ := Tx.inContainer_appendLogs _ plan.events hwrites
  rw [hstore] at hsame hlogs
  refine ⟨hsame, fun op hop => ?_⟩
  rw [Tx.lastBatch] at hop
  split at hop
  · rcases List.mem_append.mp hop with hop | hop
    · exact hlogs op hop
    · rw [List.mem_singleton.mp hop, show (s.planTx plan).store = s from hsame]
      exact s.keyPrefix_isPrefix_key _
  · exact hlogs op hop

section Other

variable {b : TenantId}

theorem Registry.sameUnder_apply {α : Type} (reg : Registry) (plan : Plan α)
    (h : reg.store.tenant.name ≠ b.name) :
    (reg.apply plan).store.tenant = reg.store.tenant
      ∧ PhysicalStore.SameUnder b reg.store.db (reg.apply plan).store.db := by
  obtain ⟨hstore, hbatch⟩ := reg.store.inContainer_planTx plan
  have happly : (reg.apply plan).store = reg.store.write (reg.store.planTx plan).lastBatch := by
    show (reg.store.planTx plan).commit.1 = _
    rw [Tx.commit_fst, hstore]
  rw [happly]
  exact ⟨rfl, PhysicalStore.sameUnder_write h _ hbatch⟩

theorem Registry.sameUnder_step (srv : Server) (reg : Registry) (req : Request)
    (h : reg.store.tenant.name ≠ b.name) :
    (reg.step srv req).store.tenant = reg.store.tenant
      ∧ PhysicalStore.SameUnder b reg.store.db (reg.step srv req).store.db := by
  rw [Registry.step, Verb.run]
  cases hplan : req.verb.decide srv (reg.view req.now req.newGuid) with
  | error e => exact ⟨rfl, fun _ _ _ => rfl⟩
  | ok plan => exact reg.sameUnder_apply plan h

theorem Store.sameUnder_putExporter (s : Store) (rec : ExporterRecord)
    (h : s.tenant.name ≠ b.name) : PhysicalStore.SameUnder b s.db (s.putExporter rec).db :=
  PhysicalStore.sameUnder_write h s.db fun op hop => by
    rw [List.mem_singleton.mp hop]
    exact s.keyPrefix_isPrefix_key _

theorem Store.sameUnder_pruneLog (s : Store) (before : UInt64) (h : s.tenant.name ≠ b.name) :
    (s.pruneLog before).tenant = s.tenant
      ∧ PhysicalStore.SameUnder b s.db (s.pruneLog before).db := by
  rw [Store.pruneLog]
  split
  · exact ⟨rfl, fun _ _ _ => rfl⟩
  · refine ⟨rfl, PhysicalStore.sameUnder_write h s.db fun op hop => ?_⟩
    rcases List.mem_cons.mp hop with rfl | hop
    · exact ⟨s.keyPrefix_isPrefix_key _, s.keyPrefix_isPrefix_key _⟩
    · rw [List.mem_singleton.mp hop]
      exact s.keyPrefix_isPrefix_key _

theorem Store.sameUnder_register (s : Store) : PhysicalStore.SameUnder b s.db s.register.db := by
  intro c key hkey
  refine PhysicalStore.get?_write_of_not_reaches fun op hop _ hreach => ?_
  rw [List.mem_singleton.mp hop] at hreach
  rw [← show tenantKeyPrefix ++ utf8 s.tenant.name = key from hreach] at hkey
  exact b.not_keyPrefix_reserved _ hkey

/-- One change through a container leaves the rows of every other. -/
theorem Registry.sameUnder_perform (srv : Server) (reg : Registry) (op : ContainerOp)
    (h : reg.store.tenant.name ≠ b.name) :
    (reg.perform srv op).store.tenant = reg.store.tenant
      ∧ PhysicalStore.SameUnder b reg.store.db (reg.perform srv op).store.db := by
  cases op with
  | request req => exact reg.sameUnder_step srv req h
  | exporterState name expected new state trace now =>
    rw [Registry.perform, Registry.exporterState]
    split
    · exact ⟨rfl, fun _ _ _ => rfl⟩
    · split
      · exact ⟨rfl, fun _ _ _ => rfl⟩
      · exact ⟨rfl, reg.store.sameUnder_putExporter _ h⟩
  | pruneLog before => exact reg.store.sameUnder_pruneLog before h
  | putMetaString key value =>
    refine ⟨rfl, PhysicalStore.sameUnder_write h _ fun op hop => ?_⟩
    rw [List.mem_singleton.mp hop]
    exact reg.store.keyPrefix_isPrefix_key _
  | register => exact ⟨rfl, reg.store.sameUnder_register⟩

theorem Registry.sameUnder_performAll (srv : Server) (reg : Registry) (ops : List ContainerOp)
    (h : reg.store.tenant.name ≠ b.name) :
    PhysicalStore.SameUnder b reg.store.db (reg.performAll srv ops).store.db := by
  induction ops generalizing reg with
  | nil => exact fun _ _ _ => rfl
  | cons op ops ih =>
    obtain ⟨htenant, hsame⟩ := reg.sameUnder_perform srv op h
    exact hsame.trans (ih (reg.perform srv op) (by rwa [htenant]))

end Other

/-! ### What a read depends on -/

section Reads

variable {t : TenantId} {db db' : PhysicalStore}

theorem scanPrefix_congr (h : PhysicalStore.SameUnder t db db') (c : Cf) (start : Bytes) :
    (⟨t, db'⟩ : Store).scanPrefix c start = (⟨t, db⟩ : Store).scanPrefix c start := by
  have hscan : scanFrom (db'.rows c) (t.keyPrefix ++ start)
      = scanFrom (db.rows c) (t.keyPrefix ++ start) := by
    rw [scanFrom_eq_filter, scanFrom_eq_filter]
    refine filter_toList_congr fun key hkey => ?_
    exact h c key ((List.prefix_append _ _).trans (List.isPrefixOf_iff_prefix.mp hkey))
  rw [Store.scanPrefix, Store.scanPrefix]
  exact congrArg (List.map _) hscan

/-- A read of the log runs over the rows of its container from a number on. -/
theorem logRange_eq_filter (m : Std.ExtTreeMap Bytes LogEvent) (t : TenantId) (start : UInt64) :
    ((m.toList.dropWhile fun p => compare p.1 (t.keyPrefix ++ be64 start) == .lt).takeWhile
        fun p => t.keyPrefix.isPrefixOf p.1)
      = m.toList.filter fun p =>
          t.keyPrefix.isPrefixOf p.1 && compare p.1 (t.keyPrefix ++ be64 start) != .lt := by
  rw [dropWhile_eq_filter m.ordered_keys_toList, takeWhile_eq_filter, List.filter_filter]
  · exact m.ordered_keys_toList.filter _
  · intro p hp hgt
    have hle := le_of_isPrefix (List.prefix_append t.keyPrefix (be64 start))
    have hge : compare p.1 (t.keyPrefix ++ be64 start) ≠ .lt := by
      simpa using (List.mem_filter.mp hp).2
    have hlt := Std.OrientedCmp.lt_of_gt hgt
    cases hcmp : compare t.keyPrefix (t.keyPrefix ++ be64 start) with
    | gt => exact hle hcmp
    | eq => exact hge (by rwa [Std.LawfulEqOrd.compare_eq_iff_eq.mp hcmp] at hlt)
    | lt => exact hge (Std.TransCmp.lt_trans hlt hcmp)

theorem readLog_congr (h : PhysicalStore.SameUnder t db db') (start : UInt64) (limit : Nat) :
    (⟨t, db'⟩ : Store).readLog start limit = (⟨t, db⟩ : Store).readLog start limit := by
  have hrange : ∀ db : PhysicalStore, (⟨t, db⟩ : Store).readLog start limit
      = (((((db.rows .log).toList.filter fun p =>
            t.keyPrefix.isPrefixOf p.1 && compare p.1 (t.keyPrefix ++ be64 start) != .lt).map
          fun p => (beU64 (p.1.drop t.keyPrefix.length), p.2)).takeWhile fun p =>
            p.1.isSome).filterMap
          fun p => p.1.map (·, p.2)).take limit := by
    intro db
    rw [← logRange_eq_filter]
    rfl
  have hfilter : ((db'.rows .log).toList.filter fun p =>
        t.keyPrefix.isPrefixOf p.1 && compare p.1 (t.keyPrefix ++ be64 start) != .lt)
      = (db.rows .log).toList.filter fun p =>
        t.keyPrefix.isPrefixOf p.1 && compare p.1 (t.keyPrefix ++ be64 start) != .lt := by
    refine filter_toList_congr (p := fun key =>
      t.keyPrefix.isPrefixOf key && compare key
        (t.keyPrefix ++ be64 start) != .lt) fun key hkey => ?_
    exact h .log key (List.isPrefixOf_iff_prefix.mp (Bool.and_eq_true_iff.mp hkey).1)
  rw [hrange, hrange, hfilter]

theorem sameReads_of_sameUnder (h : PhysicalStore.SameUnder t db db') :
    Store.SameReads ⟨t, db⟩ ⟨t, db'⟩ := by
  have hget : ∀ c key, (⟨t, db'⟩ : Store).get? c key = (⟨t, db⟩ : Store).get? c key :=
    fun c key => h c _ (List.prefix_append _ _)
  have hseq : (⟨t, db'⟩ : Store).logSeq = (⟨t, db⟩ : Store).logSeq := by
    rw [Store.logSeq, Store.logSeq, hget]
  constructor
  · simp only [Store.loadSnapshot, scanPrefix_congr h, hseq]
  · intro ctx id
    exact hget .schemas _
  · rw [Store.listExporters, Store.listExporters, scanPrefix_congr h]
  · intro name
    exact hget .exporters _
  · exact readLog_congr h
  · exact hseq
  · rw [Store.logFloor, Store.logFloor, hget]
  · intro key
    rw [Store.getMetaString, Store.getMetaString, hget]

end Reads

/-- Nothing done through one container changes what a read of another one answers. -/
theorem sameReads_of_other_container (srv : Server) (reg : Registry) (b : TenantId)
    (h : reg.store.tenant.name ≠ b.name) (ops : List ContainerOp) :
    Store.SameReads ⟨b, reg.store.db⟩ ⟨b, (reg.performAll srv ops).store.db⟩ :=
  sameReads_of_sameUnder (reg.sameUnder_performAll srv ops h)

def prodTenant : TenantId := ⟨"prod", by decide⟩

def prodEuTenant : TenantId := ⟨"prod-eu", by decide⟩

/-- The database after a registration in `prod-eu`. -/
def prodEuRegistered : Registry :=
  (Registry.empty prodEuTenant).step plainServer (registerText "orders" "\"int\"")

/-- The container `prod` on the same database, with nothing in it. -/
def prodBeside : Registry := ⟨⟨prodTenant, prodEuRegistered.store.db⟩, {}⟩

/-- A name that starts another one: the log of `prod` grows and is pruned, that of `prod-eu` stays
at its one event. -/
theorem sameReads_prodEu :
    Store.SameReads ⟨prodEuTenant, prodEuRegistered.store.db⟩
        ⟨prodEuTenant, (prodBeside.performAll plainServer
          [.request (registerText "orders" "\"long\""), .pruneLog 1]).store.db⟩
      ∧ (⟨prodEuTenant, prodEuRegistered.store.db⟩ : Store).logSeq = 1 := by
  refine ⟨sameReads_of_other_container plainServer prodBeside prodEuTenant ?_ _, by decide⟩
  show "prod" ≠ "prod-eu"
  decide

end SchemaRegistry

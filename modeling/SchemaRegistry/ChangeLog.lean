import SchemaRegistry.Lib.Run
import SchemaRegistry.Store.Batch

/-!
The change log of a container under concurrent transactions and prunes. A transaction holds
the counters lock from the moment it reads the sequence counter to its commit, so there is one
at a time; a prune looks at the floor and writes its batch later, under no lock. As long as no
prune writes after one that went further, the log holds exactly the events from its floor to
its sequence counter, each under the number it was given.
-/

namespace SchemaRegistry

open Lib

/-- What a prune writes. -/
def Store.pruneBatch (s : Store) (before : UInt64) : List BatchOp :=
  [.deleteRange .log (s.key (be64 0)) (s.key (be64 before)),
   .put .«meta» (s.key logFloorKey) (be64 before)]

namespace ChangeLog

/-! ### Transactions and prunes at work -/

/-- The transaction that holds the counters lock, and the events it has logged. -/
structure OpenTx where
  tx : Tx
  events : List LogEvent := []

structure State where
  store : Store
  holder : Option OpenTx := none
  /-- Prunes that have looked at the floor and are yet to write. -/
  prunes : List UInt64 := []
  /-- The events of the committed transactions, in the order of the commits. -/
  logged : List LogEvent := []

inductive Step where
  | openTx
  | stage (w : Write)
  | append (ev : LogEvent)
  | commit
  /-- The transaction goes without a commit. -/
  | abort
  | startPrune (before : UInt64)
  | prune (i : Nat)

namespace State

def step (s : State) : Step → State
  | .openTx =>
      match s.holder with
      | some _ => s
      | none => { s with holder := some { tx := s.store.tx } }
  | .stage w => { s with holder := s.holder.map fun o => { o with tx := o.tx.applyWrite w } }
  | .append ev =>
      { s with holder := s.holder.map fun o =>
          { tx := o.tx.appendLog ev, events := o.events ++ [ev] } }
  | .commit =>
      match s.holder with
      | none => s
      | some o =>
          { s with
            store := s.store.write o.tx.lastBatch
            holder := none
            logged := s.logged ++ o.events }
  | .abort => { s with holder := none }
  | .startPrune before =>
      if before ≤ s.store.logFloor then s else { s with prunes := s.prunes ++ [before] }
  | .prune i =>
      match s.prunes[i]? with
      | none => s
      | some before =>
          { s with
            store := s.store.write (s.store.pruneBatch before)
            prunes := s.prunes.eraseIdx i }

def run (s : State) (steps : List Step) : State := steps.foldl step s

theorem run_append (s : State) (steps steps' : List Step) :
    s.run (steps ++ steps') = (s.run steps).run steps' := List.foldl_append

/-- The log holds the committed events from the floor to the counter, under their numbers, and
nothing else. -/
structure Intact (s : State) : Prop where
  seq : s.store.logSeq.toNat = s.logged.length
  floor : s.store.logFloor ≤ s.store.logSeq
  rows : ∀ key ev, s.store.get? .log key = some ev ↔
    ∃ n : UInt64, s.store.logFloor ≤ n ∧ n < s.store.logSeq ∧ key = be64 n
      ∧ s.logged[n.toNat]? = some ev

end State

namespace Step

/-- Nothing is pruned that has not been logged. -/
def InRange (s : State) : Step → Prop
  | .startPrune before => before ≤ s.store.logSeq
  | _ => True

/-- No prune writes after one that went further, and the sequence counter does not wrap. -/
def Orderly (s : State) : Step → Prop
  | .append _ => ∀ o ∈ s.holder, o.tx.logSeq.toNat + 1 < 2 ^ 64
  | .prune i => ∀ before ∈ s.prunes[i]?, s.store.logFloor ≤ before
  | _ => True

end Step

/-! ### The rows of the log -/

/-- `lookup` finds the events from `floor` on under their numbers, and nothing else. -/
def RowsAre (lookup : Bytes → Option LogEvent) (floor : Nat) (logged : List LogEvent) : Prop :=
  ∀ key ev, lookup key = some ev ↔ ∃ n, floor ≤ n ∧ logged[n]? = some ev ∧ key = be 8 n

section Rows

variable {lookup lookup' : Bytes → Option LogEvent} {floor : Nat} {logged : List LogEvent}

theorem RowsAre.snoc (h : RowsAre lookup floor logged) (hfloor : floor ≤ logged.length)
    (hlen : logged.length < 256 ^ 8) (ev : LogEvent)
    (hput : ∀ key, lookup' key = if be 8 logged.length = key then some ev else lookup key) :
    RowsAre lookup' floor (logged ++ [ev]) := by
  intro key ev'
  rw [hput key]
  by_cases hkey : be 8 logged.length = key
  · rw [if_pos hkey]
    constructor
    · intro heq
      exact ⟨logged.length, hfloor, by simpa using heq, hkey.symm⟩
    · rintro ⟨n, -, hn, rfl⟩
      have hle : n ≤ logged.length := by
        have := (List.getElem?_eq_some_iff.mp hn).1
        simp only [List.length_append, List.length_singleton] at this
        omega
      obtain rfl : n = logged.length :=
        be_inj (Nat.lt_of_le_of_lt hle hlen) hlen hkey.symm
      simpa using hn
  · rw [if_neg hkey, h key ev']
    constructor
    · rintro ⟨n, hn, hev, rfl⟩
      have hlt := (List.getElem?_eq_some_iff.mp hev).1
      exact ⟨n, hn, by rw [List.getElem?_append_left hlt, hev], rfl⟩
    · rintro ⟨n, hn, hev, rfl⟩
      have hlt : n < logged.length := by
        have hlt := (List.getElem?_eq_some_iff.mp hev).1
        simp only [List.length_append, List.length_singleton] at hlt
        have hne : n ≠ logged.length := by
          rintro rfl
          exact hkey rfl
        omega
      exact ⟨n, hn, by rwa [List.getElem?_append_left hlt] at hev, rfl⟩

/-- Taking away the numbers below `before`. -/
theorem RowsAre.prune (h : RowsAre lookup floor logged) (hlen : logged.length < 256 ^ 8)
    {before : Nat} (hfloor : floor ≤ before)
    (hcut : ∀ n, n < 256 ^ 8 → lookup' (be 8 n) = if n < before then none else lookup (be 8 n))
    (hother : ∀ key, lookup key = none → lookup' key = none) :
    RowsAre lookup' before logged := by
  intro key ev
  constructor
  · intro hev
    cases hold : lookup key with
    | none =>
      rw [hother key hold] at hev
      cases hev
    | some ev' =>
      obtain ⟨n, -, hn, rfl⟩ := (h key ev').mp hold
      have hlt := (List.getElem?_eq_some_iff.mp hn).1
      rw [hcut n (by omega)] at hev
      by_cases hcase : n < before
      · rw [if_pos hcase] at hev
        cases hev
      · rw [if_neg hcase, hold] at hev
        exact ⟨n, by omega, by rw [hn, hev], rfl⟩
  · rintro ⟨n, hn, hev, rfl⟩
    have hlt := (List.getElem?_eq_some_iff.mp hev).1
    rw [hcut n (by omega), if_neg (by omega)]
    exact (h _ ev).mpr ⟨n, by omega, hev, rfl⟩

end Rows

namespace State

variable {s : State}

theorem getElem?_logged_iff (hseq : s.store.logSeq.toNat = s.logged.length) {key : Bytes}
    {ev : LogEvent} :
    (∃ n : UInt64, s.store.logFloor ≤ n ∧ n < s.store.logSeq ∧ key = be64 n
        ∧ s.logged[n.toNat]? = some ev) ↔
      ∃ n, s.store.logFloor.toNat ≤ n ∧ s.logged[n]? = some ev ∧ key = be 8 n := by
  constructor
  · rintro ⟨n, hfloor, -, rfl, hev⟩
    exact ⟨n.toNat, UInt64.le_iff_toNat_le.mp hfloor, hev, rfl⟩
  · rintro ⟨n, hfloor, hev, rfl⟩
    have hlt := (List.getElem?_eq_some_iff.mp hev).1
    have hn : (UInt64.ofNat n).toNat = n :=
      UInt64.toNat_ofNat_of_lt' (Nat.lt_trans (hseq ▸ hlt) s.store.logSeq.toNat_lt)
    refine ⟨UInt64.ofNat n, UInt64.le_iff_toNat_le.mpr (by omega),
      UInt64.lt_iff_toNat_lt.mpr (by omega), ?_, by rwa [hn]⟩
    rw [be64, hn]

theorem Intact.rowsAre (h : s.Intact) :
    RowsAre (s.store.get? .log) s.store.logFloor.toNat s.logged := fun key ev =>
  (h.rows key ev).trans (getElem?_logged_iff h.seq)

theorem intact_of_rowsAre (hseq : s.store.logSeq.toNat = s.logged.length)
    (hfloor : s.store.logFloor ≤ s.store.logSeq)
    (hrows : RowsAre (s.store.get? .log) s.store.logFloor.toNat s.logged) : s.Intact :=
  ⟨hseq, hfloor, fun key ev => (hrows key ev).trans (getElem?_logged_iff hseq).symm⟩

theorem Intact.length_lt (h : s.Intact) : s.logged.length < 256 ^ 8 :=
  h.seq ▸ s.store.logSeq.toNat_lt

end State

/-! ### The batch of a transaction -/

/-- The rows of events, numbered from `n` on. -/
def logPuts (s : Store) : Nat → List LogEvent → List BatchOp
  | _, [] => []
  | n, ev :: evs => .put .log (s.key (be 8 n)) ev :: logPuts s (n + 1) evs

theorem logPuts_append (s : Store) (n : Nat) (evs : List LogEvent) (ev : LogEvent) :
    logPuts s n (evs ++ [ev])
      = logPuts s n evs ++ [.put .log (s.key (be 8 (n + evs.length))) ev] := by
  induction evs generalizing n with
  | nil => rfl
  | cons e evs ih =>
    rw [List.cons_append, logPuts, ih, logPuts, List.cons_append, List.length_cons,
      Nat.add_assoc n 1, Nat.add_comm 1]

theorem key_eq_of_tenant {s s' : Store} (h : s'.tenant = s.tenant) (k : Bytes) :
    s'.key k = s.key k := by
  rw [Store.key, Store.keyPrefix, h, Store.key, Store.keyPrefix]

theorem logPuts_eq_of_tenant {s s' : Store} (h : s'.tenant = s.tenant) (n : Nat)
    (evs : List LogEvent) : logPuts s' n evs = logPuts s n evs := by
  induction evs generalizing n with
  | nil => rfl
  | cons ev evs ih => rw [logPuts, logPuts, key_eq_of_tenant h, ih]

theorem rowsAre_logPuts {s : Store} {floor : Nat} {logged evs : List LogEvent}
    (h : RowsAre (s.get? .log) floor logged) (hfloor : floor ≤ logged.length)
    (hlen : logged.length + evs.length ≤ 256 ^ 8) :
    RowsAre ((s.write (logPuts s logged.length evs)).get? .log) floor (logged ++ evs) := by
  induction evs generalizing s logged with
  | nil => rwa [List.append_nil]
  | cons ev evs ih =>
    rw [List.length_cons] at hlen
    have hone : RowsAre ((s.write [.put .log (s.key (be 8 logged.length)) ev]).get? .log) floor
        (logged ++ [ev]) := by
      refine h.snoc hfloor (by omega) ev fun key => ?_
      show (s.db.applyOp (.put .log _ ev)).get? .log (s.key key) = _
      rw [PhysicalStore.get?_put_self]
      simp only [Store.key, List.append_cancel_left_eq]
      rfl
    have hrest := ih hone (by simp only [List.length_append, List.length_singleton]; omega)
      (by simp only [List.length_append, List.length_singleton]; omega)
    rw [List.length_append, List.length_singleton, List.append_assoc,
      logPuts_eq_of_tenant (show (s.write _).tenant = s.tenant from rfl)] at hrest
    exact hrest

/-- What the transaction of a container has in its batch, as far as the log is concerned, when
`logged` events are committed and it has logged `events`. -/
structure Built (s : Store) (logged : List LogEvent) (o : OpenTx) : Prop where
  tenant : o.tx.store.tenant = s.tenant
  seq : o.tx.logSeq.toNat = logged.length + o.events.length
  dirty : o.tx.logDirty = !o.events.isEmpty
  logRows : (o.tx.batch.filter fun op => op.cf == .log) = logPuts s logged.length o.events
  counters : ∀ op ∈ o.tx.batch, op.cf = .«meta» →
    ¬ op.Reaches (s.key logSeqKey) ∧ ¬ op.Reaches (s.key logFloorKey)

section Built

variable {s : Store} {logged : List LogEvent} {o : OpenTx}

/-- Only the container matters, not what its store holds. -/
theorem Built.of_tenant {s' : Store} (h : Built s logged o) (htenant : s'.tenant = s.tenant) :
    Built s' logged o where
  tenant := h.tenant.trans htenant.symm
  seq := h.seq
  dirty := h.dirty
  logRows := by rw [logPuts_eq_of_tenant htenant]; exact h.logRows
  counters := by
    intro op hop hmeta
    rw [key_eq_of_tenant htenant, key_eq_of_tenant htenant]
    exact h.counters op hop hmeta

theorem built_tx (hseq : s.logSeq.toNat = logged.length) : Built s logged { tx := s.tx } where
  tenant := rfl
  seq := hseq
  dirty := rfl
  logRows := rfl
  counters _ hop := absurd hop List.not_mem_nil

theorem plainRow_misses {s' : Store} (htenant : s'.tenant = s.tenant) {op : BatchOp}
    (h : op.PlainRow s') : op.cf ≠ .log
      ∧ (op.cf = .«meta» → ¬ op.Reaches (s.key logSeqKey) ∧ ¬ op.Reaches (s.key logFloorKey)) := by
  have hrow : ∀ {c : Cf} {key : Bytes},
      (c ≠ .log ∧ ∃ k, key = s'.key k ∧ (c = .«meta» → k ≠ logSeqKey ∧ k ≠ logFloorKey)) →
      c ≠ .log ∧ (c = .«meta» → key ≠ s.key logSeqKey ∧ key ≠ s.key logFloorKey) := by
    rintro c key ⟨hlog, k, rfl, hmeta⟩
    refine ⟨hlog, fun hc => ?_⟩
    rw [key_eq_of_tenant htenant]
    exact ⟨fun heq => (hmeta hc).1 (List.append_cancel_left heq),
      fun heq => (hmeta hc).2 (List.append_cancel_left heq)⟩
  cases op with
  | put c key cell => exact hrow h
  | delete c key => exact hrow h
  | deleteRange c lo hi => exact h.elim

theorem Built.stage (h : Built s logged o) (w : Write) :
    Built s logged { o with tx := o.tx.applyWrite w } := by
  have hstages := Tx.stages_applyWrite o.tx w
  obtain ⟨ops, hops, hplain⟩ := hstages.batch
  have hmisses := fun op hop => plainRow_misses h.tenant (hplain op hop)
  refine ⟨hstages.store ▸ h.tenant, hstages.logSeq ▸ h.seq, hstages.logDirty ▸ h.dirty, ?_, ?_⟩
  · have hnone : (ops.filter fun op => op.cf == .log) = [] :=
      List.filter_eq_nil_iff.mpr fun op hop => by simpa using (hmisses op hop).1
    show ((o.tx.applyWrite w).batch.filter _) = _
    rw [hops, List.filter_append, hnone, List.append_nil]
    exact h.logRows
  · intro op hop hmeta
    have hop : op ∈ o.tx.batch ++ ops := hops ▸ hop
    rcases List.mem_append.mp hop with hop | hop
    · exact h.counters op hop hmeta
    · exact (hmisses op hop).2 hmeta

theorem Built.append (h : Built s logged o) (hwrap : o.tx.logSeq.toNat + 1 < 2 ^ 64)
    (ev : LogEvent) :
    Built s logged { tx := o.tx.appendLog ev, events := o.events ++ [ev] } := by
  refine ⟨h.tenant, ?_, ?_, ?_, ?_⟩
  · show (o.tx.logSeq + 1).toNat = logged.length + (o.events ++ [ev]).length
    rw [UInt64.toNat_add, show (1 : UInt64).toNat = 1 from rfl, Nat.mod_eq_of_lt hwrap, h.seq,
      List.length_append, List.length_singleton, Nat.add_assoc]
  · show true = !(o.events ++ [ev]).isEmpty
    simp
  · show ((o.tx.batch ++ [BatchOp.put .log (o.tx.store.key (be64 o.tx.logSeq)) ev]).filter _) = _
    rw [List.filter_append, h.logRows, logPuts_append, be64, h.seq, key_eq_of_tenant h.tenant]
    rfl
  · intro op hop hmeta
    rcases List.mem_append.mp hop with hop | hop
    · exact h.counters op hop hmeta
    · rw [List.mem_singleton.mp hop] at hmeta
      cases hmeta

/-- The counters after a commit. -/
theorem Built.get?_counter (h : Built s logged o) {k : Bytes}
    (hk : k = logSeqKey ∨ k = logFloorKey) :
    (s.write o.tx.lastBatch).get? .«meta» k =
      if k = logSeqKey ∧ o.events ≠ [] then some (be64 o.tx.logSeq) else s.get? .«meta» k := by
  have hrows : (s.db.write o.tx.batch).get? .«meta» (s.key k) = s.db.get? .«meta» (s.key k) := by
    refine PhysicalStore.get?_write_of_not_reaches fun op hop hmeta => ?_
    rcases hk with rfl | rfl
    · exact (h.counters op hop hmeta).1
    · exact (h.counters op hop hmeta).2
  rw [Tx.lastBatch, h.dirty]
  cases hevents : o.events with
  | nil =>
    rw [if_neg (by simp), if_neg (by simp)]
    exact hrows
  | cons ev evs =>
    rw [if_pos (show (!(ev :: evs).isEmpty) = true from rfl), key_eq_of_tenant h.tenant]
    show ((s.db.write _).get? .«meta» (s.key k)) = _
    rw [PhysicalStore.write, List.foldl_append, List.foldl_cons, List.foldl_nil,
      PhysicalStore.get?_put_self]
    by_cases hkey : k = logSeqKey
    · rw [hkey, if_pos rfl, if_pos ⟨rfl, List.cons_ne_nil ev evs⟩]
    · have hne : s.key logSeqKey ≠ s.key k := fun heq => hkey (List.append_cancel_left heq).symm
      rw [if_neg hne, if_neg fun hboth => hkey hboth.1]
      exact hrows

theorem Built.logSeq (h : Built s logged o) (hseq : s.logSeq.toNat = logged.length) :
    (s.write o.tx.lastBatch).logSeq = o.tx.logSeq := by
  rw [Store.logSeq, h.get?_counter (.inl rfl)]
  by_cases hevents : o.events = []
  · rw [if_neg fun hboth => hboth.2 hevents]
    apply UInt64.toNat_inj.mp
    have hsame := h.seq
    rw [hevents, List.length_nil, Nat.add_zero, ← hseq] at hsame
    exact hsame.symm
  · rw [if_pos ⟨rfl, hevents⟩, Option.bind_some, beU64_be64, Option.getD_some]

theorem logFloorKey_ne_logSeqKey : logFloorKey ≠ logSeqKey := by decide

theorem Built.logFloor (h : Built s logged o) :
    (s.write o.tx.lastBatch).logFloor = s.logFloor := by
  rw [Store.logFloor, h.get?_counter (.inr rfl),
    if_neg fun hboth => logFloorKey_ne_logSeqKey hboth.1, Store.logFloor]

/-- A commit appends its events to the log. -/
theorem Built.rowsAre (h : Built s logged o) {floor : Nat}
    (hrows : RowsAre (s.get? .log) floor logged) (hfloor : floor ≤ logged.length) :
    RowsAre ((s.write o.tx.lastBatch).get? .log) floor (logged ++ o.events) := by
  have hlen : logged.length + o.events.length ≤ 256 ^ 8 :=
    h.seq ▸ Nat.le_of_lt o.tx.logSeq.toNat_lt
  have hbatch : (o.tx.lastBatch.filter fun op => op.cf == .log)
      = logPuts s logged.length o.events := by
    rw [← h.logRows, Tx.lastBatch]
    split
    · rw [List.filter_append]
      exact List.append_nil _
    · rfl
  have hput := rowsAre_logPuts hrows hfloor hlen
  intro key ev
  show (s.db.write o.tx.lastBatch).get? .log (s.key key) = some ev ↔ _
  rw [PhysicalStore.get?_write_filter, hbatch]
  exact hput key ev

end Built

/-! ### Prunes -/

section Prune

variable {s : Store} {before : UInt64}

theorem get?_prune_log (key : Bytes) :
    (s.write (s.pruneBatch before)).get? .log key =
      if compare key (be64 0) ≠ .lt ∧ compare key (be64 before) = .lt then none
      else s.get? .log key := by
  show ((s.db.applyOp (.deleteRange .log _ _)).applyOp (.put .«meta» _ _)).get? .log (s.key key) = _
  rw [PhysicalStore.get?_put_ne _ (by decide), PhysicalStore.get?_deleteRange_self]
  simp only [Store.key, compare_append_left]
  rfl

theorem get?_prune_meta (key : Bytes) :
    (s.write (s.pruneBatch before)).get? .«meta» key =
      if logFloorKey = key then some (be64 before) else s.get? .«meta» key := by
  show ((s.db.applyOp (.deleteRange .log _ _)).applyOp (.put .«meta» _ _)).get? .«meta» (s.key key)
    = _
  rw [PhysicalStore.get?_put_self]
  simp only [Store.key, List.append_cancel_left_eq]
  rw [PhysicalStore.get?, PhysicalStore.rows_applyOp_of_ne fun hcf => by cases hcf]
  rfl

theorem logSeq_prune : (s.write (s.pruneBatch before)).logSeq = s.logSeq := by
  rw [Store.logSeq, get?_prune_meta, if_neg logFloorKey_ne_logSeqKey, Store.logSeq]

theorem logFloor_prune : (s.write (s.pruneBatch before)).logFloor = before := by
  rw [Store.logFloor, get?_prune_meta, if_pos rfl, Option.bind_some, beU64_be64, Option.getD_some]

theorem rowsAre_prune {floor : Nat} {logged : List LogEvent}
    (h : RowsAre (s.get? .log) floor logged) (hlen : logged.length < 256 ^ 8)
    (hfloor : floor ≤ before.toNat) :
    RowsAre ((s.write (s.pruneBatch before)).get? .log) before.toNat logged := by
  have hzero : 0 < 256 ^ 8 := by decide
  refine h.prune hlen hfloor (fun n hn => ?_) fun key hnone => ?_
  · have hlo : compare (be 8 n) (be64 0) ≠ .lt := by
      show compare (be 8 n) (be 8 0) ≠ .lt
      rw [compare_be hn hzero]
      exact fun hlt => Nat.not_lt_zero n (Nat.compare_eq_lt.mp hlt)
    have hhi : compare (be 8 n) (be64 before) = .lt ↔ n < before.toNat := by
      rw [be64, compare_be hn before.toNat_lt, Nat.compare_eq_lt]
    rw [get?_prune_log]
    by_cases hcase : n < before.toNat
    · rw [if_pos ⟨hlo, hhi.mpr hcase⟩, if_pos hcase]
    · rw [if_neg fun hboth => hcase (hhi.mp hboth.2), if_neg hcase]
  · rw [get?_prune_log, hnone, ite_self]

end Prune

/-! ### Every schedule -/

namespace State

variable {s : State}

/-- No transaction and no prune is at work. -/
def idle (store : Store) (logged : List LogEvent) : State := { store, logged }

/-- What holds between the steps of an orderly run. -/
structure Inv (s : State) : Prop where
  intact : s.Intact
  holder : ∀ o ∈ s.holder, Built s.store s.logged o
  prunes : ∀ before ∈ s.prunes, before ≤ s.store.logSeq

theorem Inv.openTx (h : s.Inv) : (s.step .openTx).Inv := by
  cases hholder : s.holder with
  | some o =>
    simp only [step, hholder]
    exact h
  | none =>
    simp only [step, hholder]
    exact ⟨⟨h.intact.seq, h.intact.floor, h.intact.rows⟩,
      fun o ho => Option.mem_some.mp ho ▸ built_tx h.intact.seq, h.prunes⟩

theorem Inv.stage (h : s.Inv) (w : Write) : (s.step (.stage w)).Inv := by
  refine ⟨⟨h.intact.seq, h.intact.floor, h.intact.rows⟩, fun o ho => ?_, h.prunes⟩
  obtain ⟨o', ho', rfl⟩ := Option.map_eq_some_iff.mp ho
  exact (h.holder o' ho').stage w

theorem Inv.append (h : s.Inv) {ev : LogEvent} (hok : (Step.append ev).Orderly s) :
    (s.step (.append ev)).Inv := by
  refine ⟨⟨h.intact.seq, h.intact.floor, h.intact.rows⟩, fun o ho => ?_, h.prunes⟩
  obtain ⟨o', ho', rfl⟩ := Option.map_eq_some_iff.mp ho
  exact (h.holder o' ho').append (hok o' ho') ev

theorem Inv.commit (h : s.Inv) : (s.step .commit).Inv := by
  cases hholder : s.holder with
  | none =>
    simp only [step, hholder]
    exact h
  | some o =>
    have hbuilt := h.holder o hholder
    have hseq := hbuilt.logSeq h.intact.seq
    have hle : s.store.logSeq ≤ o.tx.logSeq := by
      rw [UInt64.le_iff_toNat_le, hbuilt.seq, h.intact.seq]
      omega
    simp only [step, hholder]
    refine ⟨intact_of_rowsAre ?_ ?_ ?_, fun o' ho' => absurd ho' (Option.not_mem_none o'), ?_⟩
    · show (s.store.write o.tx.lastBatch).logSeq.toNat = (s.logged ++ o.events).length
      rw [hseq, hbuilt.seq, List.length_append]
    · show (s.store.write o.tx.lastBatch).logFloor ≤ (s.store.write o.tx.lastBatch).logSeq
      rw [hseq, hbuilt.logFloor]
      exact UInt64.le_trans h.intact.floor hle
    · show RowsAre _ (s.store.write o.tx.lastBatch).logFloor.toNat _
      rw [hbuilt.logFloor]
      refine hbuilt.rowsAre h.intact.rowsAre ?_
      rw [← h.intact.seq]
      exact UInt64.le_iff_toNat_le.mp h.intact.floor
    · intro before hmem
      show before ≤ (s.store.write o.tx.lastBatch).logSeq
      rw [hseq]
      exact UInt64.le_trans (h.prunes before hmem) hle

theorem Inv.abort (h : s.Inv) : (s.step .abort).Inv :=
  ⟨⟨h.intact.seq, h.intact.floor, h.intact.rows⟩, fun o ho => absurd ho (Option.not_mem_none o),
    h.prunes⟩

theorem Inv.startPrune (h : s.Inv) {before : UInt64} (hrange : (Step.startPrune before).InRange s) :
    (s.step (.startPrune before)).Inv := by
  by_cases hfloor : before ≤ s.store.logFloor
  · simp only [step, if_pos hfloor]
    exact h
  · simp only [step, if_neg hfloor]
    refine ⟨⟨h.intact.seq, h.intact.floor, h.intact.rows⟩, h.holder, fun b hmem => ?_⟩
    rcases List.mem_append.mp hmem with hmem | hmem
    · exact h.prunes b hmem
    · exact List.mem_singleton.mp hmem ▸ hrange

/-- The log after the batch of a prune that goes further than the last one. -/
theorem intact_pruneBatch {store : Store} {logged : List LogEvent} {before : UInt64}
    (h : (idle store logged).Intact) (hfloor : store.logFloor ≤ before)
    (hrange : before ≤ store.logSeq) :
    (idle (store.write (store.pruneBatch before)) logged).Intact := by
  refine intact_of_rowsAre ?_ ?_ ?_
  · show (store.write (store.pruneBatch before)).logSeq.toNat = logged.length
    rw [logSeq_prune]
    exact h.seq
  · show (store.write (store.pruneBatch before)).logFloor
      ≤ (store.write (store.pruneBatch before)).logSeq
    rwa [logSeq_prune, logFloor_prune]
  · show RowsAre _ (store.write (store.pruneBatch before)).logFloor.toNat _
    rw [logFloor_prune]
    exact rowsAre_prune h.rowsAre h.length_lt (UInt64.le_iff_toNat_le.mp hfloor)

theorem Inv.prune (h : s.Inv) {i : Nat} (hok : (Step.prune i).Orderly s) :
    (s.step (.prune i)).Inv := by
  cases hi : s.prunes[i]? with
  | none =>
    simp only [step, hi]
    exact h
  | some before =>
    have hidle : (idle s.store s.logged).Intact := ⟨h.intact.seq, h.intact.floor, h.intact.rows⟩
    have hpruned :=
      intact_pruneBatch hidle (hok before hi) (h.prunes before (List.mem_of_getElem? hi))
    simp only [step, hi]
    refine ⟨⟨hpruned.seq, hpruned.floor, hpruned.rows⟩, fun o ho => ?_, fun b hb => ?_⟩
    · exact (h.holder o ho).of_tenant rfl
    · show b ≤ (s.store.write (s.store.pruneBatch before)).logSeq
      rw [logSeq_prune]
      exact h.prunes b (List.mem_of_mem_eraseIdx hb)

/-- One step of an orderly run. -/
theorem Inv.step (h : s.Inv) {e : Step} (hrange : e.InRange s) (hok : e.Orderly s) :
    (s.step e).Inv := by
  cases e with
  | openTx => exact h.openTx
  | stage w => exact h.stage w
  | append ev => exact h.append hok
  | commit => exact h.commit
  | abort => exact h.abort
  | startPrune before => exact h.startPrune hrange
  | prune i => exact h.prune hok

/-- Committed events are never taken back. -/
theorem logged_isPrefix_step (s : State) (e : Step) : s.logged <+: (s.step e).logged := by
  cases e with
  | commit =>
    cases hholder : s.holder with
    | none => simp only [step, hholder, List.prefix_rfl]
    | some o =>
      simp only [step, hholder]
      exact List.prefix_append _ _
  | openTx => cases hholder : s.holder <;> simp only [step, hholder, List.prefix_rfl]
  | prune i => cases hi : s.prunes[i]? <;> simp only [step, hi, List.prefix_rfl]
  | startPrune before =>
    by_cases hfloor : before ≤ s.store.logFloor
    · simp only [step, if_pos hfloor, List.prefix_rfl]
    · simp only [step, if_neg hfloor, List.prefix_rfl]
  | stage w => exact List.prefix_rfl
  | append ev => exact List.prefix_rfl
  | abort => exact List.prefix_rfl

theorem logged_isPrefix_run (s : State) (steps : List Step) :
    s.logged <+: (s.run steps).logged := by
  induction steps generalizing s with
  | nil => exact List.prefix_rfl
  | cons e steps ih => exact (logged_isPrefix_step s e).trans (ih (s.step e))

theorem inv_of_orderly {store : Store} {logged : List LogEvent} (h0 : (idle store logged).Intact)
    {steps : List Step}
    (h : Along step (fun s e => e.InRange s ∧ e.Orderly s) (idle store logged) steps) :
    ((idle store logged).run steps).Inv :=
  inv_of_along h ⟨h0, fun o ho => absurd ho (Option.not_mem_none o),
    fun _ hmem => absurd hmem List.not_mem_nil⟩ fun _ _ hinv hok => hinv.step hok.1 hok.2

/-- In a run in which no prune writes after one that went further, and in which the sequence
counter does not wrap, the log is intact after every step, and two rows seen under one key at
different times are the same. -/
theorem intact_of_orderly {store : Store} {logged : List LogEvent}
    (h0 : (idle store logged).Intact) (first later : List Step)
    (h : Along step (fun s e => e.InRange s ∧ e.Orderly s) (idle store logged) (first ++ later)) :
    ((idle store logged).run (first ++ later)).Intact
      ∧ ∀ key ev ev', ((idle store logged).run first).store.get? .log key = some ev →
          ((idle store logged).run (first ++ later)).store.get? .log key = some ev' → ev = ev' := by
  have hend := (inv_of_orderly h0 h).intact
  refine ⟨hend, fun key ev ev' hev hev' => ?_⟩
  have hmid := (inv_of_orderly h0 (along_append.mp h).1).intact
  obtain ⟨n, -, -, rfl, hn⟩ := (hmid.rows key ev).mp hev
  obtain ⟨m, -, -, hnm, hm⟩ := (hend.rows _ ev').mp hev'
  obtain rfl := be64_injective hnm
  have hfront : ((idle store logged).run first).logged
      <+: ((idle store logged).run (first ++ later)).logged := by
    rw [run_append]
    exact logged_isPrefix_run _ later
  obtain ⟨more, hmore⟩ := hfront
  rw [← hmore, List.getElem?_append_left (List.getElem?_eq_some_iff.mp hn).1, hn] at hm
  exact Option.some.inj hm

theorem intact_empty (tenant : TenantId) : (idle { tenant } []).Intact := by
  refine ⟨?_, ?_, fun key ev => ?_⟩
  · show (({ tenant } : Store).logSeq).toNat = 0
    rw [Store.logSeq, Store.get?, PhysicalStore.get?_default]
    rfl
  · show ({ tenant } : Store).logFloor ≤ ({ tenant } : Store).logSeq
    rw [Store.logSeq, Store.logFloor, Store.get?, Store.get?, PhysicalStore.get?_default,
      PhysicalStore.get?_default]
    exact UInt64.le_refl _
  · show ({ tenant } : Store).get? .log key = some ev ↔ _
    rw [Store.get?, PhysicalStore.get?_default]
    constructor
    · intro h
      cases h
    · rintro ⟨n, -, -, -, hn⟩
      cases hn

/-! ### Prunes that overtake each other -/

def someEvent (version : UInt32) : LogEvent := ⟨".", "orders", version, version, .register⟩

/-- Two events are logged; two prunes have looked at the floor, and the one that goes less far
writes last. -/
def overtakingPrunes : List Step :=
  [.openTx, .append (someEvent 1), .append (someEvent 2), .commit,
   .startPrune 2, .startPrune 1, .prune 0, .prune 0]

/-- The floor goes back to 1, and row 1 is gone. -/
theorem not_intact_overtakingPrunes :
    ¬ ∀ steps, Along step (fun s e => e.InRange s) (idle { tenant := .default } []) steps →
      ((idle { tenant := .default } []).run steps).Intact := by
  intro h
  have hrun : ∃ s, s = (idle { tenant := .default } []).run overtakingPrunes
      ∧ s.store.logFloor = 1 ∧ s.store.logSeq = 2 ∧ s.store.get? .log (be64 1) = none
      ∧ s.logged[1]? = some (someEvent 2) := ⟨_, rfl, by decide +kernel⟩
  obtain ⟨s, hs, hfloor, hseq, hnone, hlogged⟩ := hrun
  have hrange : Along step (fun s e => e.InRange s) (idle { tenant := .default } [])
      overtakingPrunes := by
    refine ⟨trivial, trivial, trivial, trivial, ?_, ?_, trivial, trivial, trivial⟩
    · show (2 : UInt64) ≤ _
      decide
    · show (1 : UInt64) ≤ _
      decide
  have hintact := hs ▸ h overtakingPrunes hrange
  have hrow := (hintact.rows (be64 1) (someEvent 2)).mpr
    ⟨1, by rw [hfloor]; decide, by rw [hseq]; decide, rfl, hlogged⟩
  rw [hnone] at hrow
  cases hrow

/-- The same two prunes one after the other, and a transaction that fails between them. -/
def prunesInTurn : List Step :=
  [.openTx, .append (someEvent 1), .append (someEvent 2), .commit, .startPrune 1, .openTx, .prune 0,
   .append (someEvent 3), .abort, .startPrune 2, .prune 0, .openTx, .append (someEvent 4), .commit]

theorem intact_prunesInTurn :
    ((idle { tenant := .default } []).run ([] ++ prunesInTurn)).Intact
      ∧ ((idle { tenant := .default } []).run prunesInTurn).store.logSeq = 3 := by
  refine ⟨(intact_of_orderly (intact_empty .default) [] prunesInTurn ?_).1, by decide⟩
  have hwrap :
      ∀ {s : State} {ev : LogEvent}, (s.holder.all fun o => o.tx.logSeq.toNat < 100) = true →
      (Step.append ev).Orderly s := by
    intro s ev h o ho
    rw [Option.all_eq_true] at h
    have := h o ho
    simp only [decide_eq_true_eq] at this
    omega
  have hfloor : ∀ {s : State} {i : Nat}, (s.prunes[i]?.all fun b => s.store.logFloor ≤ b) = true →
      (Step.prune i).Orderly s := by
    intro s i h b hb
    rw [Option.all_eq_true] at h
    simpa using h b hb
  refine ⟨⟨trivial, trivial⟩, ⟨trivial, hwrap ?_⟩, ⟨trivial, hwrap ?_⟩, ⟨trivial, trivial⟩,
    ⟨?_, trivial⟩, ⟨trivial, trivial⟩, ⟨trivial, hfloor ?_⟩, ⟨trivial, hwrap ?_⟩,
    ⟨trivial, trivial⟩,
    ⟨?_, trivial⟩, ⟨trivial, hfloor ?_⟩, ⟨trivial, trivial⟩, ⟨trivial, hwrap ?_⟩,
    ⟨trivial, trivial⟩,
    trivial⟩
  all_goals first | decide | (show _ ≤ (_ : UInt64); decide)

end State

end ChangeLog

end SchemaRegistry

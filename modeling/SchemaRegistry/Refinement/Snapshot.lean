import SchemaRegistry.Lib.Run
import SchemaRegistry.Rows

/-!
The in-memory snapshot implements the table of rows. Its answers are read off the
table (`Snapshot.row`), each operation acts on them as the write it mirrors
(`row_apply`), and its derived indexes stay consistent with the version rows
(`Snapshot.Consistent`) as long as a version is deleted under the id it holds.
-/

namespace SchemaRegistry

open Std SchemaRegistry.Lib

/-! ### Association vectors -/

section Small

set_option linter.unusedSectionVars false

variable {K V : Type} [Ord K] [TransOrd K] [LawfulEqOrd K] [DecidableEq K] {vs : Small K V}
  {k k' : K} {x : V}

theorem Small.find?_eq_some_iff : vs.find? k = some x ↔ (k, x) ∈ vs.entries := by
  simp only [Small.find?, Option.map_eq_some_iff]
  constructor
  · rintro ⟨⟨k', x'⟩, hfind, rfl⟩
    have hk : k' = k := by simpa using List.find?_some hfind
    exact hk ▸ List.mem_of_find?_eq_some hfind
  · intro hmem
    obtain ⟨p, hp⟩ := Option.isSome_iff_exists.mp
      ((List.find?_isSome (p := fun p : K × V => decide (p.1 = k))).mpr ⟨_, hmem, by simp⟩)
    have hk : p.1 = k := by simpa using List.find?_some hp
    have : p = (k, x) := SortedVec.eq_of_key_eq (List.mem_of_find?_eq_some hp) hmem hk
    exact ⟨p, hp, by rw [this]⟩

@[simp] theorem Small.find?_default : Small.find? (default : Small K V) k = none := by
  ext y
  simp [Small.find?_eq_some_iff]

end Small

/-! ### One context -/

namespace CtxState

/-- The pairs listed under an id. -/
def usagesOf (c : CtxState) (id : UInt32) : List (String × UInt32) :=
  (VecMap.vecAt c.usages id).entries

/-- The ids listed under a referenced version. -/
def refbyOf (c : CtxState) (subject : String) (version : UInt32) : List UInt32 :=
  (VecMap.vecAt c.refby (subject, version)).entries

variable (c : CtxState) (subject subject' : String) (version version' id id' : UInt32)
  (rec : VersionRecord)

@[simp] theorem deleteVersion_fingerprints :
    (c.deleteVersion subject version id).fingerprints = c.fingerprints := rfl
@[simp] theorem deleteVersion_nextId : (c.deleteVersion subject version id).nextId = c.nextId := rfl
@[simp] theorem version?_putRefby :
    (c.putRefby subject version id).version? subject' version' = c.version? subject' version' := rfl
@[simp] theorem putRefby_fingerprints :
    (c.putRefby subject version id).fingerprints = c.fingerprints := rfl
@[simp] theorem putRefby_nextId : (c.putRefby subject version id).nextId = c.nextId := rfl
@[simp] theorem version?_deleteRefby :
    (c.deleteRefby subject version id).version? subject' version' = c.version? subject' version' :=
  rfl
@[simp] theorem deleteRefby_fingerprints :
    (c.deleteRefby subject version id).fingerprints = c.fingerprints := rfl
@[simp] theorem deleteRefby_nextId : (c.deleteRefby subject version id).nextId = c.nextId := rfl

theorem mem_subject_iff {x : VersionRecord} :
    (version, x) ∈ (VecMap.vecAt c.subjects subject).entries
      ↔ c.version? subject version = some x := by
  rw [← Small.find?_eq_some_iff, version?, VecMap.vecAt]
  cases c.subjects[subject]? <;> simp

theorem version?_putVersion : (c.putVersion subject version rec).version? subject' version'
    = if subject = subject' ∧ version = version' then some rec
      else c.version? subject' version' := by
  ext x
  rw [← mem_subject_iff, putVersion, VecMap.entries_insertAt]
  by_cases hs : subject = subject'
  · subst hs
    simp only [if_true, SortedVec.mem_insert, mem_subject_iff, true_and]
    by_cases hv : version = version' <;> simp [hv, eq_comm]
  · simp [hs, mem_subject_iff]

theorem version?_deleteVersion : (c.deleteVersion subject version id).version? subject' version'
    = if subject = subject' ∧ version = version' then none
      else c.version? subject' version' := by
  ext x
  rw [← mem_subject_iff, deleteVersion, VecMap.entries_eraseAt]
  by_cases hs : subject = subject'
  · subst hs
    simp only [if_true, SortedVec.mem_erase, mem_subject_iff, true_and]
    by_cases hv : version = version' <;> simp [hv, eq_comm]
  · simp [hs, mem_subject_iff]

theorem mem_refbyOf_putRefby :
    decide (id' ∈ (c.putRefby subject version id).refbyOf subject' version')
    = if subject = subject' ∧ version = version' ∧ id = id' then true
      else decide (id' ∈ c.refbyOf subject' version') := by
  rw [refbyOf, refbyOf, putRefby, VecMap.entries_insertAt]
  rcases eq_or_ne (subject, version) (subject', version') with h | h
  · obtain ⟨rfl, rfl⟩ := Prod.mk.inj h
    rcases eq_or_ne id id' with rfl | hid
    · simp [SortedVec.mem_insert]
    · simp [SortedVec.mem_insert, hid, hid.symm]
  · have : ¬ (subject = subject' ∧ version = version') := fun h' => h (by rw [h'.1, h'.2])
    simp [h, ← and_assoc, this]

theorem mem_refbyOf_deleteRefby :
    decide (id' ∈ (c.deleteRefby subject version id).refbyOf subject' version')
    = if subject = subject' ∧ version = version' ∧ id = id' then false
      else decide (id' ∈ c.refbyOf subject' version') := by
  rw [refbyOf, refbyOf, deleteRefby, VecMap.entries_eraseAt]
  rcases eq_or_ne (subject, version) (subject', version') with h | h
  · obtain ⟨rfl, rfl⟩ := Prod.mk.inj h
    rcases eq_or_ne id id' with rfl | hid
    · simp [SortedVec.mem_erase]
    · simp [SortedVec.mem_erase, hid, hid.symm]
  · have : ¬ (subject = subject' ∧ version = version') := fun h' => h (by rw [h'.1, h'.2])
    simp [h, ← and_assoc, this]

/-- The usages index lists exactly the version rows by their id, and no subject is kept
without a version. -/
structure Consistent (c : CtxState) : Prop where
  usages : ∀ id subject version, (subject, version) ∈ c.usagesOf id ↔
    ∃ vr, c.version? subject version = some vr ∧ vr.id = id
  noEmpty : VecMap.NoEmpty c.subjects

theorem consistent_default : Consistent default where
  usages id subject version := by
    simp [usagesOf, version?, VecMap.vecAt, default]
  noEmpty i v h := by simp [default] at h

variable {c}

/-- Before a put, the pair is listed under no id but the new one. -/
theorem mem_usagesBeforePut (h : Consistent c) (subject : String) (version : UInt32)
    (rec : VersionRecord) (id : UInt32) (p : String × UInt32) :
    p ∈ (VecMap.vecAt (c.usagesBeforePut subject version rec.id) id).entries
      ↔ p ∈ c.usagesOf id ∧ ¬ (p = (subject, version) ∧ id ≠ rec.id) := by
  have hlisted := h.usages id subject version
  rw [usagesBeforePut]
  cases hold : ((c.version? subject version).map (·.id)).filter (· != rec.id) with
  | none =>
    refine ⟨fun hp => ⟨hp, ?_⟩, And.left⟩
    rintro ⟨rfl, hne⟩
    obtain ⟨vr, hvr, rfl⟩ := hlisted.mp hp
    simp [hvr, hne] at hold
  | some old =>
    obtain ⟨hrow, hne⟩ := Option.filter_eq_some_iff.mp hold
    obtain ⟨vr, hvr, rfl⟩ := Option.map_eq_some_iff.mp hrow
    simp only [bne_iff_ne] at hne
    rw [VecMap.entries_modify_erase]
    rcases eq_or_ne vr.id id with rfl | hid
    · simp [SortedVec.mem_erase, usagesOf, hne]
    · rw [if_neg hid]
      refine ⟨fun hp => ⟨hp, ?_⟩, And.left⟩
      rintro ⟨rfl, -⟩
      obtain ⟨vr', hvr', rfl⟩ := hlisted.mp hp
      exact hid (by rw [Option.some.inj (hvr.symm.trans hvr')])

theorem Consistent.putVersion (h : Consistent c) (subject : String) (version : UInt32)
    (rec : VersionRecord) : Consistent (c.putVersion subject version rec) where
  usages id subject' version' := by
    have hmem := mem_usagesBeforePut h subject version rec id (subject', version')
    rw [version?_putVersion, usagesOf, CtxState.putVersion, VecMap.entries_insertAt]
    rcases eq_or_ne (subject, version) (subject', version') with hk | hk
    · obtain ⟨rfl, rfl⟩ := Prod.mk.inj hk
      rcases eq_or_ne rec.id id with rfl | hid
      · simp [SortedVec.mem_insert]
      · rw [if_neg hid]
        rw [hmem]
        simp [hid, hid.symm]
    · have hk' : ¬ (subject = subject' ∧ version = version') := fun e => hk (by rw [e.1, e.2])
      rw [if_neg hk', ← h.usages]
      rcases eq_or_ne rec.id id with rfl | hid
      · rw [if_pos rfl, SortedVec.mem_insert]
        simp only [hk.symm, false_or, id_eq, ne_eq, not_false_eq_true, and_true]
        rw [hmem]
        simp
      · rw [if_neg hid, hmem]
        simp [hk.symm]
  noEmpty := h.noEmpty.insertAt subject (version, rec)

/-- A version is taken out of both maps when it is deleted under the id it holds. -/
theorem Consistent.deleteVersion (h : Consistent c) {subject : String} {version id : UInt32}
    (hid : ∀ vr, c.version? subject version = some vr → vr.id = id) :
    Consistent (c.deleteVersion subject version id) where
  usages id' subject' version' := by
    rw [version?_deleteVersion, usagesOf, CtxState.deleteVersion, VecMap.entries_eraseAt]
    have hlisted := h.usages id' subject' version'
    rcases eq_or_ne (subject, version) (subject', version') with hk | hk
    · obtain ⟨rfl, rfl⟩ := Prod.mk.inj hk
      rcases eq_or_ne id id' with rfl | hne
      · simp [SortedVec.mem_erase]
      · refine ⟨fun hp => ?_, by simp⟩
        rw [if_neg hne] at hp
        obtain ⟨vr, hvr, rfl⟩ := hlisted.mp hp
        exact absurd (hid vr hvr).symm hne
    · have hk' : ¬ (subject = subject' ∧ version = version') := fun e => hk (by rw [e.1, e.2])
      rw [if_neg hk', ← hlisted]
      rcases eq_or_ne id id' with rfl | hne
      · simp [SortedVec.mem_erase, hk.symm, usagesOf]
      · simp [hne, usagesOf]
  noEmpty := h.noEmpty.eraseAt subject version

end CtxState

/-! ### The whole snapshot -/

namespace Snapshot

/-- The state of a context; one that was never touched is empty. -/
def ctx (s : Snapshot) (c : String) : CtxState := s.ctxs[c]?.getD default

variable {s : Snapshot} {c c' subject subject' : String} {version version' id id' : UInt32}

theorem ctx_updateCtx (s : Snapshot) (c c' : String) (f : CtxState → CtxState) :
    (s.updateCtx c f).ctx c' = if c = c' then f (s.ctx c) else s.ctx c' := by
  by_cases h : c = c' <;> simp [ctx, updateCtx, ExtTreeMap.getElem?_insert, h]

theorem getVersion_eq : s.getVersion c subject version = (s.ctx c).version? subject version := by
  cases h : s.ctxs[c]? <;> simp [getVersion, ctx, h, CtxState.version?, default]

theorem listVersions_eq :
    s.listVersions c subject = (VecMap.vecAt (s.ctx c).subjects subject).entries := by
  cases h : s.ctxs[c]? with
  | none => simp [listVersions, ctx, h, VecMap.vecAt, default]
  | some x =>
    cases hs : x.subjects[subject]? <;> simp [listVersions, ctx, h, hs, VecMap.vecAt, default]

theorem idUsages_eq : s.idUsages c id = (s.ctx c).usagesOf id := by
  cases h : s.ctxs[c]? with
  | none => simp [idUsages, ctx, h, CtxState.usagesOf, VecMap.vecAt, default]
  | some x =>
    cases hs : x.usages[id]? <;>
      simp [idUsages, ctx, h, hs, CtxState.usagesOf, VecMap.vecAt, default]

theorem referencedBy_eq : s.referencedBy c subject version = (s.ctx c).refbyOf subject version := by
  cases h : s.ctxs[c]? with
  | none => simp [referencedBy, ctx, h, CtxState.refbyOf, VecMap.vecAt, default]
  | some x =>
    cases hs : x.refby[(subject, version)]? <;>
      simp [referencedBy, ctx, h, hs, CtxState.refbyOf, VecMap.vecAt, default]

theorem idForFingerprint_eq {fp : String} :
    s.idForFingerprint c fp = (s.ctx c).fingerprints[fp]? := by
  cases h : s.ctxs[c]? <;> simp [idForFingerprint, ctx, h, default]

theorem nextId_eq : s.nextId c = (s.ctx c).nextId.getD 1 := by
  cases h : s.ctxs[c]? <;> simp [nextId, ctx, h, default]

theorem listSubjectNames_eq : s.listSubjectNames c = (s.ctx c).subjects.keys := by
  cases h : s.ctxs[c]? <;> simp [listSubjectNames, ctx, h, default]

/-- What a context holds under a key that names it. -/
def ctxRow (x : CtxState) : Rows
  | .version _ subject version => x.version? subject version
  | .refby _ subject version id => decide (id ∈ x.refbyOf subject version)
  | .fingerprint _ fp => x.fingerprints[fp]?
  | .nextId _ => x.nextId
  | k => Rows.empty k

/-- What a snapshot holds under the keys it indexes; bodies and exporter records are not
in it. -/
def row (s : Snapshot) : Rows
  | .version c subject version => s.getVersion c subject version
  | .refby c subject version id => decide (id ∈ s.referencedBy c subject version)
  | .fingerprint c fp => s.idForFingerprint c fp
  | .nextId c => (s.ctx c).nextId
  | .known c => s.knownContexts.contains c
  | .config scope => s.getConfig scope
  | .mode scope => s.getMode scope
  | k => Rows.empty k

/-- The usages index of every context is consistent with its version rows. -/
def Consistent (s : Snapshot) : Prop := ∀ c, (s.ctx c).Consistent

theorem ctx_new (c : String) : ({} : Snapshot).ctx c = default := by
  simp [ctx]

theorem consistent_new : Consistent {} := fun c => by
  rw [ctx_new]
  exact CtxState.consistent_default

theorem row_new (k : RowKey) : ({} : Snapshot).row k = Rows.empty k := by
  cases k <;> simp [row, Rows.empty, getVersion_eq, referencedBy_eq, idForFingerprint_eq, ctx_new,
    CtxState.version?, CtxState.refbyOf, VecMap.vecAt, getConfig, getMode, default]

end Snapshot

/-! ### Operations mirror writes -/

/-- The operation that mirrors a write; exporter records are not in the snapshot. -/
def Write.op : Write → Option Op
  | .putSchema ctx id rec index => some (.putSchema ctx id rec index)
  | .putVersion ctx subject version rec => some (.putVersion ctx subject version rec)
  | .deleteVersion ctx subject version id => some (.deleteVersion ctx subject version id)
  | .deleteSchema ctx id => some (.deleteSchema ctx id)
  | .putRefby ctx subject version id => some (.putRefby ctx subject version id)
  | .deleteRefby ctx subject version id => some (.deleteRefby ctx subject version id)
  | .setNextId ctx next => some (.setNextId ctx next)
  | .putConfig scope rec => some (.putConfig scope rec)
  | .deleteConfig scope => some (.deleteConfig scope)
  | .putMode scope mode => some (.putMode scope mode)
  | .deleteMode scope => some (.deleteMode scope)
  | .deleteContext ctx => some (.deleteContext ctx)
  | .putExporter _ => none
  | .deleteExporter _ => none

/-- The keys a snapshot indexes. -/
def RowKey.indexed : RowKey → Prop
  | .body .. => False
  | .exporter _ => False
  | _ => True

/-- The context whose own state holds the row, for the keys that live in one. -/
def RowKey.ctx? : RowKey → Option String
  | .version ctx _ _ => some ctx
  | .refby ctx _ _ _ => some ctx
  | .fingerprint ctx _ => some ctx
  | .nextId ctx => some ctx
  | _ => none

namespace Snapshot

variable {s : Snapshot} {c : String}

theorem row_eq_ctxRow {k : RowKey} (h : k.ctx? = some c) : s.row k = ctxRow (s.ctx c) k := by
  cases k <;> simp_all [RowKey.ctx?, row, ctxRow, getVersion_eq, referencedBy_eq,
    idForFingerprint_eq]

theorem row_updateCtx (s : Snapshot) (c : String) (f : CtxState → CtxState) (k : RowKey) :
    (s.updateCtx c f).row k = if k.ctx? = some c then ctxRow (f (s.ctx c)) k else s.row k := by
  cases hk : k.ctx? with
  | none => cases k <;> simp_all [RowKey.ctx?] <;> rfl
  | some c' =>
    rw [row_eq_ctxRow hk, row_eq_ctxRow hk, ctx_updateCtx]
    by_cases h : c = c' <;> simp [h, eq_comm]

/-- The snapshot after the operation of one write. -/
def applyWrite (s : Snapshot) (w : Write) : Snapshot := w.op.toList.foldl apply s

/-- A write that acts on the state of one context acts as it does on its rows. -/
theorem row_updateCtx_eq_write {w : Write} {f : CtxState → CtxState} {k : RowKey}
    (hin : k.ctx? = some c → ctxRow (f (s.ctx c)) k = (w.touch k).getD (ctxRow (s.ctx c) k))
    (hout : k.ctx? ≠ some c → w.touch k = none) :
    (s.updateCtx c f).row k = write Write.touch s.row w k := by
  rw [row_updateCtx]
  by_cases hk : k.ctx? = some c
  · rw [if_pos hk, hin hk, ← row_eq_ctxRow hk]
    rfl
  · rw [if_neg hk, write_of_untouched (hout hk)]

/-- A write that leaves the snapshot alone touches no key of it. -/
theorem row_eq_write {w : Write} {k : RowKey} (h : w.touch k = none) :
    s.row k = write Write.touch s.row w k :=
  (write_of_untouched h).symm

theorem row_applyWrite (s : Snapshot) (w : Write) {k : RowKey} (hk : k.indexed) :
    (s.applyWrite w).row k = write Write.touch s.row w k := by
  cases w with
  | putSchema ctx id rec index =>
    cases index with
    | false => exact row_eq_write (by cases k <;> simp_all [Write.touch, RowKey.indexed])
    | true =>
      show (s.updateCtx ctx fun c => { c with
        fingerprints := c.fingerprints.insert rec.fingerprint id }).row k = _
      refine row_updateCtx_eq_write (fun h => ?_) fun h => ?_
      · cases k <;> simp_all [RowKey.ctx?, Write.touch, ctxRow, CtxState.version?,
          CtxState.refbyOf, ExtTreeMap.getElem?_insert]
        rfl
      · cases k <;> simp_all [RowKey.ctx?, Write.touch, RowKey.indexed]
        exact fun e => absurd e.symm h
  | putVersion ctx subject version rec =>
    show ({ s with knownContexts := s.knownContexts.insert ctx }.updateCtx ctx
      fun c => c.putVersion subject version rec).row k = _
    rw [row_updateCtx]
    by_cases h : k.ctx? = some ctx
    · rw [if_pos h, write, row_eq_ctxRow h]
      cases k <;> simp_all [RowKey.ctx?, Write.touch, ctxRow, CtxState.version?_putVersion,
        CtxState.refbyOf]
      all_goals rfl
    · rw [if_neg h]
      cases k with
      | version ctx' subject' version' =>
        have : ctx ≠ ctx' := fun e => h (by rw [e]; rfl)
        simp only [write, Write.touch, this, false_and, if_false, Option.getD_none]
        rfl
      | known ctx' =>
        rcases eq_or_ne ctx ctx' with rfl | hne
        · simp [row, write, Write.touch]
        · simp [row, write, Write.touch, ExtTreeSet.contains_insert, hne]
      | body | exporter => exact hk.elim
      | _ => rfl
  | deleteVersion ctx subject version id =>
    show (s.updateCtx ctx fun c => c.deleteVersion subject version id).row k = _
    refine row_updateCtx_eq_write (fun h => ?_) fun h => ?_
    · cases k <;> simp_all [RowKey.ctx?, Write.touch, ctxRow, CtxState.version?_deleteVersion,
          CtxState.refbyOf]
      rfl
    · cases k <;> simp_all [RowKey.ctx?, Write.touch]
      exact fun e => absurd e.symm h
  | deleteSchema ctx id =>
    exact row_eq_write (by cases k <;> simp_all [Write.touch, RowKey.indexed])
  | putRefby ctx subject version id =>
    show (s.updateCtx ctx fun c => c.putRefby subject version id).row k = _
    refine row_updateCtx_eq_write (fun h => ?_) fun h => ?_
    · cases k with
      | refby ctx' subject' version' id' =>
        obtain rfl := Option.some.inj h
        simpa [Write.touch, ctxRow] using CtxState.mem_refbyOf_putRefby ..
      | _ => simp_all [RowKey.ctx?, Write.touch, ctxRow]
    · cases k <;> simp_all [RowKey.ctx?, Write.touch]
      exact fun e => absurd e.symm h
  | deleteRefby ctx subject version id =>
    show (s.updateCtx ctx fun c => c.deleteRefby subject version id).row k = _
    refine row_updateCtx_eq_write (fun h => ?_) fun h => ?_
    · cases k with
      | refby ctx' subject' version' id' =>
        obtain rfl := Option.some.inj h
        simpa [Write.touch, ctxRow] using CtxState.mem_refbyOf_deleteRefby ..
      | _ => simp_all [RowKey.ctx?, Write.touch, ctxRow]
    · cases k <;> simp_all [RowKey.ctx?, Write.touch]
      exact fun e => absurd e.symm h
  | setNextId ctx next =>
    show (s.updateCtx ctx fun c => { c with nextId := some next }).row k = _
    refine row_updateCtx_eq_write (fun h => ?_) fun h => ?_
    · cases k <;> simp_all [RowKey.ctx?, Write.touch, ctxRow, CtxState.version?, CtxState.refbyOf]
      rfl
    · cases k <;> simp_all [RowKey.ctx?, Write.touch]
      exact fun e => absurd e.symm h
  | putConfig scope rec =>
    show Snapshot.row { s with hasAliases := _, config := s.config.insert scope rec } k = _
    cases k <;> simp [row, write, Write.touch, getConfig, ExtTreeMap.getElem?_insert] <;> rfl
  | deleteConfig scope =>
    show Snapshot.row { s with hasAliases := _, config := s.config.erase scope } k = _
    cases k <;> simp [row, write, Write.touch, getConfig, ExtTreeMap.getElem?_erase] <;> rfl
  | putMode scope mode =>
    show Snapshot.row { s with mode := s.mode.insert scope mode } k = _
    cases k <;> simp [row, write, Write.touch, getMode, ExtTreeMap.getElem?_insert] <;> rfl
  | deleteMode scope =>
    show Snapshot.row { s with mode := s.mode.erase scope } k = _
    cases k <;> simp [row, write, Write.touch, getMode, ExtTreeMap.getElem?_erase] <;> rfl
  | deleteContext ctx =>
    show Snapshot.row { s with knownContexts := s.knownContexts.erase ctx } k = _
    cases k with
    | known ctx' =>
      rcases eq_or_ne ctx ctx' with rfl | hne
      · simp [row, write, Write.touch]
      · simp [row, write, Write.touch, ExtTreeSet.contains_erase, hne]
    | _ => rfl
  | putExporter rec => exact row_eq_write (by cases k <;> simp_all [Write.touch, RowKey.indexed])
  | deleteExporter name =>
    exact row_eq_write (by cases k <;> simp_all [Write.touch, RowKey.indexed])

/-- The snapshot after the operations of a list of writes. -/
def applyWrites (s : Snapshot) (ws : List Write) : Snapshot := ws.foldl applyWrite s

theorem applyWrites_eq (s : Snapshot) (ws : List Write) :
    s.applyWrites ws = s.applyAll (ws.filterMap Write.op) := by
  induction ws generalizing s with
  | nil => rfl
  | cons w ws ih =>
    show (s.applyWrite w).applyWrites ws = _
    rw [ih, applyWrite, applyAll, applyAll]
    cases h : w.op <;> simp [h]

theorem row_applyWrites (s : Snapshot) (ws : List Write) {k : RowKey} (hk : k.indexed) :
    (s.applyWrites ws).row k = s.row.after ws k := by
  induction ws generalizing s with
  | nil => rfl
  | cons w ws ih => exact (ih _).trans (writeAll_congr (row_applyWrite s w hk))

@[simp] theorem logSeq_applyWrites (s : Snapshot) (ws : List Write) :
    (s.applyWrites ws).logSeq = s.logSeq := by
  induction ws generalizing s with
  | nil => rfl
  | cons w ws ih =>
    refine (ih _).trans ?_
    cases w with
    | putSchema ctx id rec index => cases index <;> rfl
    | _ => rfl

/-! ### The derived indexes -/

/-- A version is deleted under the id it holds. -/
def HintOk (s : Snapshot) : Write → Prop
  | .deleteVersion ctx subject version id =>
      ∀ vr, s.getVersion ctx subject version = some vr → vr.id = id
  | _ => True

theorem Consistent.updateCtx (h : s.Consistent) (f : CtxState → CtxState)
    (hf : (f (s.ctx c)).Consistent) : (s.updateCtx c f).Consistent := by
  intro c'
  rw [ctx_updateCtx]
  split
  · exact hf
  · exact h c'

theorem Consistent.applyWrite (h : s.Consistent) {w : Write} (hw : s.HintOk w) :
    (s.applyWrite w).Consistent := by
  cases w with
  | putSchema ctx id rec index =>
    cases index with
    | false => exact h
    | true =>
      exact h.updateCtx (fun c => { c with
        fingerprints := c.fingerprints.insert rec.fingerprint id })
        ⟨(h ctx).usages, (h ctx).noEmpty⟩
  | putVersion ctx subject version rec =>
    have h' : Consistent { s with knownContexts := s.knownContexts.insert ctx } := h
    exact h'.updateCtx (fun c => c.putVersion subject version rec)
      ((h ctx).putVersion subject version rec)
  | deleteVersion ctx subject version id =>
    refine h.updateCtx (fun c => c.deleteVersion subject version id)
      ((h ctx).deleteVersion fun vr hvr => hw vr ?_)
    rw [getVersion_eq, hvr]
  | putRefby ctx subject version id =>
    exact h.updateCtx (fun c => c.putRefby subject version id) ⟨(h ctx).usages, (h ctx).noEmpty⟩
  | deleteRefby ctx subject version id =>
    exact h.updateCtx (fun c => c.deleteRefby subject version id) ⟨(h ctx).usages, (h ctx).noEmpty⟩
  | setNextId ctx next =>
    exact h.updateCtx (fun c => { c with nextId := some next }) ⟨(h ctx).usages, (h ctx).noEmpty⟩
  | _ => exact h

theorem Consistent.applyWrites (h : s.Consistent) {ws : List Write}
    (hws : Along Snapshot.applyWrite HintOk s ws) : (s.applyWrites ws).Consistent :=
  inv_of_along hws h fun _ _ hs hw => hs.applyWrite hw

/-- Writes that put no version leave every version as it was or remove it, so the ids
their deletes name stay right. -/
theorem along_of_deletes {ws : List Write} (hput : ∀ ctx subject version rec,
      Write.putVersion ctx subject version rec ∉ ws)
    (hdel : ∀ w ∈ ws, s.HintOk w) : Along applyWrite HintOk s ws := by
  induction ws generalizing s with
  | nil => trivial
  | cons w ws ih =>
    refine ⟨hdel w List.mem_cons_self, ih (fun c sub v r hm =>
      hput c sub v r (List.mem_cons_of_mem w hm)) fun w' hw' => ?_⟩
    have hold := hdel w' (List.mem_cons_of_mem w hw')
    cases w' with
    | deleteVersion ctx subject version id =>
      intro vr hvr
      have hrow := row_applyWrite s w (k := .version ctx subject version) trivial
      change (s.applyWrite w).getVersion ctx subject version = _ at hrow
      rw [hrow] at hvr
      cases ht : w.touch (.version ctx subject version) with
      | none =>
        rw [write_of_untouched ht] at hvr
        exact hold vr hvr
      | some x =>
        rw [write_of_touch ht] at hvr
        cases w <;> simp [Write.touch] at ht
        · exact (hput _ _ _ _ List.mem_cons_self).elim
        · simp [← ht.2] at hvr
    | _ => trivial

theorem along_of_no_deletes {ws : List Write} (hdel : ∀ ctx subject version id,
      Write.deleteVersion ctx subject version id ∉ ws) : Along applyWrite HintOk s ws := by
  induction ws generalizing s with
  | nil => trivial
  | cons w ws ih =>
    refine ⟨?_, ih fun c sub v i hm => hdel c sub v i (List.mem_cons_of_mem w hm)⟩
    cases w with
    | deleteVersion ctx subject version id => exact (hdel _ _ _ _ List.mem_cons_self).elim
    | _ => trivial

/-! ### Queries in terms of rows -/

theorem mem_listVersions {subject : String} {version : UInt32} {vr : VersionRecord} :
    (version, vr) ∈ s.listVersions c subject ↔ s.getVersion c subject version = some vr := by
  rw [listVersions_eq, CtxState.mem_subject_iff, getVersion_eq]

theorem sorted_listVersions (s : Snapshot) (c subject : String) :
    (s.listVersions c subject).Pairwise fun a b => compare a.1 b.1 = .lt := by
  rw [listVersions_eq]
  exact (VecMap.vecAt (s.ctx c).subjects subject).sorted

/-- The versions of a subject are listed in order, so its rows determine the list. -/
theorem listVersions_congr {t : Snapshot} {subject : String}
    (h : ∀ version, s.getVersion c subject version = t.getVersion c subject version) :
    s.listVersions c subject = t.listVersions c subject :=
  eq_of_sorted_of_mem_iff (sorted_listVersions s c subject) (sorted_listVersions t c subject)
    fun ⟨version, vr⟩ => by rw [mem_listVersions, mem_listVersions, h]

theorem Consistent.mem_idUsages (h : s.Consistent) {id : UInt32} {subject : String}
    {version : UInt32} : (subject, version) ∈ s.idUsages c id ↔
      ∃ vr, s.getVersion c subject version = some vr ∧ vr.id = id := by
  rw [idUsages_eq, (h c).usages, getVersion_eq]

/-- The users of an id are listed in order, so the rows that hold it determine the list. -/
theorem idUsages_congr {t : Snapshot} (hs : s.Consistent) (ht : t.Consistent) {id : UInt32}
    (h : ∀ subject version vr, vr.id = id →
      (s.getVersion c subject version = some vr ↔ t.getVersion c subject version = some vr)) :
    s.idUsages c id = t.idUsages c id := by
  rw [idUsages_eq, idUsages_eq]
  refine SortedVec.ext_mem fun ⟨subject, version⟩ => ?_
  show (subject, version) ∈ (s.ctx c).usagesOf id ↔ (subject, version) ∈ (t.ctx c).usagesOf id
  rw [← idUsages_eq, ← idUsages_eq, hs.mem_idUsages, ht.mem_idUsages]
  exact ⟨fun ⟨vr, hrow, hid⟩ => ⟨vr, (h subject version vr hid).mp hrow, hid⟩,
    fun ⟨vr, hrow, hid⟩ => ⟨vr, (h subject version vr hid).mpr hrow, hid⟩⟩

theorem Consistent.mem_listSubjectNames (h : s.Consistent) {subject : String} :
    subject ∈ s.listSubjectNames c ↔ ∃ version vr, s.getVersion c subject version = some vr := by
  rw [listSubjectNames_eq, ExtTreeMap.mem_keys, (h c).noEmpty.mem_iff, ← listVersions_eq]
  constructor
  · intro hne
    obtain ⟨⟨version, vr⟩, hmem⟩ := List.exists_mem_of_ne_nil _ hne
    exact ⟨version, vr, mem_listVersions.mp hmem⟩
  · rintro ⟨version, vr, hvr⟩
    exact List.ne_nil_of_mem (mem_listVersions.mpr hvr)

/-- The subjects are listed in order, so the rows determine the list. -/
theorem listSubjectNames_congr {t : Snapshot} (hs : s.Consistent) (ht : t.Consistent)
    (h : ∀ subject version, s.getVersion c subject version = t.getVersion c subject version) :
    s.listSubjectNames c = t.listSubjectNames c := by
  rw [listSubjectNames_eq, listSubjectNames_eq]
  refine keys_eq_of_mem_iff fun subject => ?_
  rw [← ExtTreeMap.mem_keys, ← ExtTreeMap.mem_keys, ← listSubjectNames_eq,
    ← listSubjectNames_eq, hs.mem_listSubjectNames, ht.mem_listSubjectNames]
  simp only [h]

theorem mem_listContexts :
    c ∈ s.listContexts ↔ c = defaultContext ∨ s.row (.known c) = true := by
  have : defaultContext = c ↔ c = defaultContext := eq_comm
  simp [listContexts, row, this]

/-- Two snapshots give the same answer to every query. -/
structure SameAnswers (s t : Snapshot) : Prop where
  getVersion : ∀ c subject version, s.getVersion c subject version = t.getVersion c subject version
  listVersions : ∀ c subject, s.listVersions c subject = t.listVersions c subject
  listSubjectNames : ∀ c, s.listSubjectNames c = t.listSubjectNames c
  idUsages : ∀ c id, s.idUsages c id = t.idUsages c id
  referencedBy : ∀ c subject version,
    s.referencedBy c subject version = t.referencedBy c subject version
  idForFingerprint : ∀ c fp, s.idForFingerprint c fp = t.idForFingerprint c fp
  nextId : ∀ c, s.nextId c = t.nextId c
  listContexts : s.listContexts = t.listContexts
  getConfig : ∀ scope, s.getConfig scope = t.getConfig scope
  getMode : ∀ scope, s.getMode scope = t.getMode scope
  logSeq : s.logSeq = t.logSeq

/-- Two snapshots answer every query about a context alike. -/
structure SameContext (c : String) (s t : Snapshot) : Prop where
  getVersion : ∀ subject version, s.getVersion c subject version = t.getVersion c subject version
  listVersions : ∀ subject, s.listVersions c subject = t.listVersions c subject
  listSubjectNames : s.listSubjectNames c = t.listSubjectNames c
  idUsages : ∀ id, s.idUsages c id = t.idUsages c id
  referencedBy : ∀ subject version,
    s.referencedBy c subject version = t.referencedBy c subject version
  idForFingerprint : ∀ fp, s.idForFingerprint c fp = t.idForFingerprint c fp
  nextId : s.nextId c = t.nextId c

/-- Consistent snapshots with the same rows of a context answer alike about it: every list is
strictly sorted, so its members determine it. -/
theorem sameContext_of_rows {t : Snapshot} (hs : s.Consistent) (ht : t.Consistent)
    (hrow : ∀ k : RowKey, k.ctx? = some c → s.row k = t.row k) : SameContext c s t := by
  have hversion : ∀ subject version,
      s.getVersion c subject version = t.getVersion c subject version :=
    fun subject version => hrow (.version c subject version) rfl
  have hrefby : ∀ subject version id,
      id ∈ s.referencedBy c subject version ↔ id ∈ t.referencedBy c subject version :=
    fun subject version id => by
      simpa [row] using hrow (.refby c subject version id) rfl
  refine ⟨hversion, fun subject => listVersions_congr (hversion subject),
    listSubjectNames_congr hs ht hversion, fun id => ?_, fun subject version => ?_,
    fun fp => hrow (.fingerprint c fp) rfl, ?_⟩
  · exact idUsages_congr hs ht fun subject version vr _ => by rw [hversion]
  · rw [referencedBy_eq, referencedBy_eq]
    refine SortedVec.ext_mem fun id => ?_
    show id ∈ (s.ctx c).refbyOf subject version ↔ id ∈ (t.ctx c).refbyOf subject version
    rw [← referencedBy_eq, ← referencedBy_eq, hrefby]
  · have hnext : (s.ctx c).nextId = (t.ctx c).nextId := hrow (.nextId c) rfl
    rw [nextId_eq, nextId_eq, hnext]

theorem listContexts_of_rows {t : Snapshot} (hrow : ∀ c, s.row (.known c) = t.row (.known c)) :
    s.listContexts = t.listContexts := by
  have hknown : s.knownContexts = t.knownContexts := ExtTreeSet.ext_contains hrow
  rw [Snapshot.listContexts, Snapshot.listContexts, hknown]

/-- Consistent snapshots with the same rows give the same answers. -/
theorem sameAnswers_of_rows {t : Snapshot} (hs : s.Consistent) (ht : t.Consistent)
    (hrow : ∀ k, k.indexed → s.row k = t.row k) (hseq : s.logSeq = t.logSeq) :
    SameAnswers s t := by
  have hctx : ∀ c, SameContext c s t := by
    refine fun c => sameContext_of_rows hs ht fun k hk => hrow k ?_
    cases k <;> trivial
  exact ⟨fun c => (hctx c).getVersion, fun c => (hctx c).listVersions,
    fun c => (hctx c).listSubjectNames, fun c => (hctx c).idUsages, fun c => (hctx c).referencedBy,
    fun c => (hctx c).idForFingerprint, fun c => (hctx c).nextId,
    listContexts_of_rows fun c => hrow (.known c) trivial,
    fun scope => hrow (.config scope) trivial, fun scope => hrow (.mode scope) trivial, hseq⟩

end Snapshot

end SchemaRegistry

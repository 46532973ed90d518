import SchemaRegistry.ContextNames
import SchemaRegistry.Settings
import SchemaRegistry.Contents
import SchemaRegistry.Repeat

/-!
A version written the way copies are written: in IMPORT mode, with its number and its id. The fast
path has an answer only for a version that is there and live; the plan stores what it was given,
provided that what the version references is there already and that the id has no other content.
-/

namespace SchemaRegistry

open Lib

variable {srv : Server} {src reg reg' : Registry} {now : Int} {guid : String}
  {q : QualifiedSubject} {v : UInt32} {vr : VersionRecord} {rec : SchemaRecord}

/-- A version with its content. -/
structure Registry.Holds (reg : Registry) (q : QualifiedSubject) (v : UInt32) (vr : VersionRecord)
    (rec : SchemaRecord) : Prop where
  row : reg.rows (.version q.context q.subject v) = some vr
  body : reg.rows (.body q.context vr.id) = some rec

theorem Registry.Sound.holds {fmt : Formats} (h : reg.Sound fmt)
    (hrow : reg.rows (.version q.context q.subject v) = some vr) : ∃ rec, reg.Holds q v vr rec := by
  obtain ⟨rec, hrec⟩ := Option.isSome_iff_exists.mp
    (h.present q.context vr.id ⟨q.subject, v, vr, hrow, rfl⟩)
  exact ⟨rec, hrow, hrec⟩

namespace Backup

/-! ### Looking a row up -/

theorem entity_of_holds (h : reg.Holds q v vr rec) :
    entity reg.reader q v vr = .ok (.stored q v vr.id rec) := by
  have hrec : reg.reader.getSchema q.context vr.id = some rec := h.body
  rw [entity, hrec]

/-- A search through versions that are there ends, with one of them or with none. -/
theorem firstLookup_ends (hs : reg.Sound srv.fmt) {c : Canon srv.fmt.Inner}
    {rows : List (UInt32 × VersionRecord)}
    (hrows : ∀ p ∈ rows, reg.rows (.version q.context q.subject p.1) = some p.2) :
    ∃ found, firstLookup reg.reader q c rows = .ok found
      ∧ ∀ e ∈ found, ∃ p ∈ rows, e.version = p.1 := by
  induction rows with
  | nil => exact ⟨none, rfl, by simp⟩
  | cons p rows ih =>
    obtain ⟨rec, hp⟩ := hs.holds (hrows p List.mem_cons_self)
    obtain ⟨found, hfound, hmem⟩ := ih fun p' hp' => hrows p' (List.mem_cons_of_mem p hp')
    rw [firstLookup, entity_of_holds hp, ok_bind]
    split
    · refine ⟨_, rfl, fun e he => ⟨p, List.mem_cons_self, ?_⟩⟩
      cases he
      rfl
    · refine ⟨found, hfound, fun e he => ?_⟩
      obtain ⟨p', hp', heq⟩ := hmem e he
      exact ⟨p', List.mem_cons_of_mem p hp', heq⟩

/-- The version of a subject that the hash index names is there. -/
theorem row_of_hashLookup {r : Reader} {c : Canon srv.fmt.Inner} {id : UInt32}
    {p : UInt32 × VersionRecord} (h : hashLookup srv r q c = some (id, some p)) :
    r.getVersion q.context q.subject p.1 = some p.2 := by
  simp only [hashLookup, Option.bind_eq_bind, Option.bind_eq_some_iff, Option.ite_none_left_eq_some,
    Option.some.injEq, Prod.mk.injEq, Option.map_eq_some_iff] at h
  obtain ⟨i, -, -, -, v, -, vr, hrow, rfl⟩ := h
  exact hrow

/-- A live version of a subject. -/
def IsLive (reg : Registry) (q : QualifiedSubject) (v : UInt32) : Prop :=
  ∃ vr, reg.rows.Live q.context q.subject v vr

/-- A lookup among live versions ends, with a live version or with none. -/
theorem lookup_ends (hs : reg.Sound srv.fmt) {d : Draft} {c : Canon srv.fmt.Inner}
    (hc : canonicalize srv reg.reader q d false false = .ok (some c)) :
    ∃ found, lookupUnderSubject srv reg.reader q d false false false = .ok found
      ∧ ∀ e ∈ found, IsLive reg q e.version := by
  unfold lookupUnderSubject
  rw [hc, ok_bind]
  simp only [Bool.false_eq_true, if_false, Bool.false_or]
  have hsearch := @firstLookup_ends srv reg q hs c ((reg.reader.listVersions q.context
    q.subject).reverse.filter fun p => !p.2.deleted) ?_
  · split
    · next v id hhit =>
        refine ⟨_, rfl, fun e he => ?_⟩
        cases he
        split at hhit
        · next id' v' vr' hlookup =>
            simp only [Option.ite_none_right_eq_some, Option.some.injEq, Prod.mk.injEq,
              Bool.not_eq_true'] at hhit
            obtain ⟨hlive, rfl, rfl⟩ := hhit
            exact ⟨vr', row_of_hashLookup hlookup, hlive⟩
        · cases hhit
    · obtain ⟨found, hfound, hmem⟩ := hsearch
      refine ⟨found, hfound, fun e he => ?_⟩
      obtain ⟨p, hp, heq⟩ := hmem e he
      obtain ⟨hp, hlive⟩ := List.mem_filter.mp hp
      rw [heq]
      exact ⟨p.2, Registry.mem_listVersions.mp (List.mem_reverse.mp hp), by simpa using hlive⟩
  · intro p hp
    exact Registry.mem_listVersions.mp (List.mem_reverse.mp (List.mem_filter.mp hp).1)

/-- The fast path of a registration with a number ends; it has an answer only for a live
version. -/
theorem fastPath_ends (hs : reg.Sound srv.fmt) {d : Draft} {c : Canon srv.fmt.Inner}
    (hc : canonicalize srv reg.reader q d false false = .ok (some c)) (hversion : 0 < d.version) :
    ∃ fast, registerFastPath srv reg.reader q d false = .ok fast
      ∧ (fast.isSome = true → IsLive reg q d.version.toUInt32) := by
  have hne0 : (d.version == 0) = false := by
    rw [beq_eq_false_iff_ne]
    rintro h0
    rw [h0] at hversion
    exact absurd hversion (by decide)
  have hne1 : (d.version == -1) = false := by
    rw [beq_eq_false_iff_ne]
    rintro h1
    rw [h1] at hversion
    exact absurd hversion (by decide)
  obtain ⟨found, hfound, hlive⟩ := lookup_ends hs hc
  unfold registerFastPath
  split
  · exact ⟨none, rfl, by simp⟩
  · rw [hne1]
    dsimp only
    rw [hfound, ok_bind]
    cases found with
    | none => exact ⟨none, rfl, by simp⟩
    | some existing =>
      simp only [hne0, Bool.or_false, Bool.false_eq_true, if_false]
      split
      · split
        · next heq =>
            refine ⟨_, rfl, fun _ => ?_⟩
            rw [← eq_of_beq heq]
            exact hlive existing rfl
        · split
          · exact ⟨none, rfl, by simp⟩
          · next v vr hexact =>
              have hv : v = d.version.toUInt32 ∧ vr.deleted = false := by
                simpa using List.find?_some hexact
              have hrow := Registry.mem_listVersions.mp (mem_of_getExact hexact)
              obtain ⟨rec, hholds⟩ := hs.holds hrow
              rw [entity_of_holds hholds, ok_bind]
              split
              · exact ⟨_, rfl, fun _ => hv.1 ▸ ⟨vr, hrow, hv.2⟩⟩
              · exact ⟨none, rfl, by simp⟩
      · exact ⟨none, rfl, by simp⟩

/-! ### The plan of an import -/

section Plan

variable {view : ReadView} {m : RegisterSchema} {c : Canon srv.fmt.Inner}

/-- A registration with a number and an id, in IMPORT mode, goes on to store what it was given. -/
theorem resolve_import (hmode : modeFor view.reader (.subject m.subject) = .«import»)
    (hc : canonicalize srv view.reader m.subject m.draft (m.draft.id < 0) (m.normalize srv view)
      = .ok (some c)) (hversion : 0 < m.draft.version) (hid : 0 ≤ m.draft.id) :
    m.resolve srv view = .ok (.inr ⟨m.draft, false, c, m.draft.id⟩) := by
  have hne : (m.draft.version == 0) = false := by
    rw [beq_eq_false_iff_ne]
    rintro h0
    rw [h0] at hversion
    exact absurd hversion (by decide)
  have hnot : ¬ m.draft.id < 0 := Int32.not_lt.mpr hid
  have hafter : ∀ schemaId, RegisterSchema.resolve.afterHash srv view.reader m.subject m.draft false
      c schemaId = .ok (.inr ⟨m.draft, false, c, schemaId⟩) := by
    intro schemaId
    rw [RegisterSchema.resolve.afterHash, RegisterSchema.equalVersion, hne]
    rfl
  have hinherited : m.inherited srv view = .ok (m.draft, false) := by
    rw [RegisterSchema.inherited]
    simp only [hmode, beq_self_eq_true, if_true]
  have hsame : ∀ {id : UInt32} {sv}, (hashLookup srv view.reader m.subject c).filter
      (fun h => m.draft.id < 0 || m.draft.id.toUInt32 == h.1) = some (id, sv) →
      id.toInt32 = m.draft.id := by
    intro id sv hhit
    have hid := (Option.filter_eq_some_iff.mp hhit).2
    simp only [hnot, decide_false, Bool.false_or, beq_iff_eq] at hid
    rw [← hid]
    exact Int32.toInt32_toUInt32 m.draft.id
  rw [RegisterSchema.resolve, hinherited, ok_bind]
  dsimp only
  rw [hc, ok_bind]
  dsimp only
  split
  · next id v vr hhit =>
      rw [hne, Bool.false_and, if_neg Bool.false_ne_true, hafter, hsame hhit]
  · next id hhit => rw [hafter, hsame hhit]
  · exact hafter _

/-- The plan of an import whose id, if it has content, has the same. -/
theorem plan_import (hmode : modeFor view.reader (.subject m.subject) = .«import»)
    (hc : canonicalize srv view.reader m.subject m.draft (m.draft.id < 0) (m.normalize srv view)
      = .ok (some c)) (hversion : 0 < m.draft.version) (hid : 0 ≤ m.draft.id)
    (hbody : ∀ rec, view.reader.getSchema m.subject.context m.draft.id.toUInt32 = some rec →
      rec.fingerprint = c.fingerprint) :
    ∃ plan, m.plan srv view = .ok plan ∧ plan.writes
      = (RegisterSchema.replaced view.reader m.subject m.draft.version.toUInt32
          m.draft.id.toUInt32).1
        ++ RegisterSchema.added srv view m.subject m.draft.version.toUInt32
          m.draft.id.toUInt32 c := by
  have hchosen : RegisterSchema.chooseId view.reader m.subject.context c.fingerprint m.draft.id
      = .ok m.draft.id.toUInt32 := by
    rw [RegisterSchema.chooseId, if_pos hid]
    dsimp only
    split
    · next existing hexisting =>
        have hrec : view.reader.getSchema m.subject.context m.draft.id.toUInt32
            = some existing := by
          split at hexisting
          · cases hexisting
          · exact hexisting
        rw [if_neg (not_not_intro (hbody existing hrec))]
    · rfl
  have hnumber : ∀ next, RegisterSchema.chooseVersion true m.draft next
      = .ok m.draft.version.toUInt32 := by
    intro next
    rw [RegisterSchema.chooseVersion, if_neg (Int32.not_le.mpr hversion)]
    simp
  rw [RegisterSchema.plan, resolve_import hmode hc hversion hid, ok_bind]
  simp only [hmode, beq_self_eq_true, Bool.not_true, Bool.false_eq_true, if_false, hnumber, ok_bind,
    hchosen]
  exact ⟨_, rfl, rfl⟩

end Plan

/-! ### Asking for a row by its number -/

theorem getExact_of_row {r : Reader} {deleted : Bool}
    (hrow : r.getVersion q.context q.subject v = some vr)
    (hshown : deleted = true ∨ vr.deleted = false) :
    getExact r q (.exact v) deleted = some (v, vr) := by
  have hmem : (v, vr) ∈ r.listVersions q.context q.subject := Snapshot.mem_listVersions.mpr hrow
  have hsome : (getExact r q (.exact v) deleted).isSome = true := by
    refine List.find?_isSome.mpr ⟨(v, vr), hmem, ?_⟩
    rcases hshown with rfl | hlive
    · simp
    · simp [hlive]
  obtain ⟨⟨v', vr'⟩, hfound⟩ := Option.isSome_iff_exists.mp hsome
  have hv : v' = v := by
    have hpred := List.find?_some hfound
    simp only [Bool.and_eq_true, beq_iff_eq] at hpred
    exact hpred.1
  subst hv
  have hrow' := Snapshot.mem_listVersions.mp (mem_of_getExact hfound)
  rw [hfound, Option.some.inj (hrow'.symm.trans hrow)]

end Backup

end SchemaRegistry

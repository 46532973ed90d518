import SchemaRegistry.Effect

/-!
Histories of a container. Each step either leaves the container alone or applies a
plan that is one of the verbs' effects; what a plan does to the rows is read off its
writes. The snapshot's indexes stay consistent with the version rows along every
history.
-/

namespace SchemaRegistry

open Lib

variable {srv : Server} {reg : Registry} {req : Request}

namespace Registry

/-- The rows of a container: bodies and exporter records are read from the store, the
rest from the published snapshot. -/
def rows (reg : Registry) : Rows
  | .body ctx id => reg.store.getSchema ctx id
  | .exporter name => reg.store.getExporter name
  | k => reg.snapshot.row k

theorem rows_of_indexed (reg : Registry) {k : RowKey} (hk : k.indexed) :
    reg.rows k = reg.snapshot.row k := by
  cases k with
  | body | exporter => exact hk.elim
  | _ => rfl

theorem rows_of_not_indexed (reg : Registry) {k : RowKey} (hk : ¬ k.indexed) :
    reg.rows k = reg.store.row k := by
  cases k with
  | body | exporter => rfl
  | _ => exact (hk trivial).elim

theorem rows_apply {α : Type} (reg : Registry) (plan : Plan α) :
    (reg.apply plan).rows = reg.rows.after plan.writes := by
  funext k
  by_cases hk : k.indexed
  · rw [rows_of_indexed _ hk, row_snapshot_apply reg plan hk]
    exact writeAll_congr (rows_of_indexed reg hk).symm
  · rw [rows_of_not_indexed _ hk, store_apply, Store.row_afterPlan _ fun h => (hk h).elim]
    exact writeAll_congr (rows_of_not_indexed reg hk).symm

/-- The rows of a container that holds nothing. -/
theorem rows_empty (tenant : TenantId) : (Registry.empty tenant).rows = Rows.empty := by
  funext k
  cases k <;> simp [rows, empty, Snapshot.row_new, Store.getSchema, Store.getExporter, Store.get?,
    Rows.empty]

/-- A step leaves the container alone or applies a plan. -/
theorem step_cases (srv : Server) (reg : Registry) (req : Request) :
    reg.step srv req = reg ∨ ∃ plan : Plan req.verb.Output,
      req.verb.decide srv (reg.view req.now req.newGuid) = .ok plan ∧
      reg.step srv req = reg.apply plan := by
  unfold step Verb.run
  cases h : req.verb.decide srv (reg.view req.now req.newGuid) with
  | error e => exact .inl rfl
  | ok plan => exact .inr ⟨plan, rfl, rfl⟩

/-- The rows after a step are those its effect writes over the rows before it. -/
theorem rows_step (srv : Server) (reg : Registry) (req : Request) :
    ∃ ws evs, Effect srv (reg.view req.now req.newGuid) req.verb ws evs ∧
      (reg.step srv req).rows = reg.rows.after ws := by
  rcases step_cases srv reg req with hstep | ⟨plan, hplan, hstep⟩
  · exact ⟨[], [], .silent, by rw [hstep]; rfl⟩
  · exact ⟨plan.writes, plan.events, effect_of_decide hplan, by rw [hstep, rows_apply]⟩

/-! ### What the view reads, in terms of rows -/

@[simp] theorem view_reader (now : Int) (guid : String) : (reg.view now guid).reader = reg.reader :=
  rfl

theorem mem_listVersions {ctx subject : String} {p : UInt32 × VersionRecord} :
    p ∈ reg.reader.listVersions ctx subject ↔ reg.rows (.version ctx subject p.1) = some p.2 :=
  Snapshot.mem_listVersions

theorem mem_idUsages (h : reg.snapshot.Consistent) {ctx : String} {id : UInt32}
    {p : String × UInt32} : p ∈ reg.reader.idUsages ctx id ↔
      ∃ vr, reg.rows (.version ctx p.1 p.2) = some vr ∧ vr.id = id :=
  h.mem_idUsages

theorem mem_listSubjectNames (h : reg.snapshot.Consistent) {ctx subject : String} :
    subject ∈ reg.reader.listSubjectNames ctx ↔
      ∃ v vr, reg.rows (.version ctx subject v) = some vr :=
  h.mem_listSubjectNames

end Registry

/-! ### Hard deletes -/

section HardDelete

variable {r : Reader} {rows : List (QualifiedSubject × UInt32 × VersionRecord)}
  {also : List (String × UInt32)} {w : Write}

/-- What a hard delete of one row writes. -/
inductive HardDeletes (r : Reader) (also : List (String × UInt32)) (q : QualifiedSubject)
    (v : UInt32) (vr : VersionRecord) : Write → Prop
  | version : HardDeletes r also q v vr (.deleteVersion q.context q.subject v vr.id)
  | refby (rec : SchemaRecord) (sr : SchemaReference) (hused : stillUsed r q v vr.id also = false)
      (hrec : r.getSchema q.context vr.id = some rec) (hsr : sr ∈ rec.references) :
      HardDeletes r also q v vr (.deleteRefby (refTarget q.context sr).context
        (refTarget q.context sr).subject sr.target vr.id)
  | body (rec : SchemaRecord) (hused : stillUsed r q v vr.id also = false)
      (hrec : r.getSchema q.context vr.id = some rec) :
      HardDeletes r also q v vr (.deleteSchema q.context vr.id)

theorem mem_hardDeleteWrites {q : QualifiedSubject} {v : UInt32} {vr : VersionRecord} :
    w ∈ (hardDeleteWrites r q v vr also).1 ↔ HardDeletes r also q v vr w := by
  constructor
  · intro h
    rcases List.mem_cons.mp h with rfl | h
    · exact .version
    · cases hused : stillUsed r q v vr.id also with
      | true => simp [hused] at h
      | false =>
        cases hrec : r.getSchema q.context vr.id with
        | none => simp [hused, hrec] at h
        | some rec =>
          simp only [hused, hrec, Bool.false_eq_true, if_false, List.mem_append, List.mem_map,
            List.mem_singleton] at h
          rcases h with ⟨sr, hsr, rfl⟩ | rfl
          · exact .refby rec sr hused hrec hsr
          · exact .body rec hused hrec
  · intro h
    cases h with
    | version => exact List.mem_cons_self
    | refby rec sr hused hrec hsr =>
      refine List.mem_cons_of_mem _ ?_
      simp only [hused, hrec, Bool.false_eq_true, if_false, List.mem_append, List.mem_map]
      exact .inl ⟨sr, hsr, rfl⟩
    | body rec hused hrec =>
      refine List.mem_cons_of_mem _ ?_
      simp [hused, hrec]

theorem mem_hardDeleteAll : w ∈ (hardDeleteAll r rows also).1 ↔
    ∃ row ∈ rows, HardDeletes r also row.1 row.2.1 row.2.2 w := by
  simp only [hardDeleteAll, List.flatMap_map, List.mem_flatMap, mem_hardDeleteWrites]

/-- A write that removes a version row, a body or a reference edge. -/
def Write.IsRemoval : Write → Prop
  | .deleteVersion .. | .deleteSchema .. | .deleteRefby .. => True
  | _ => False

/-- Removals leave each key empty or alone. -/
theorem after_removals {ws : List Write} (hws : ∀ w ∈ ws, w.IsRemoval) (ρ : Rows) (k : RowKey) :
    (∃ w ∈ ws, k ∈ w.keys) ∧ ρ.after ws k = Rows.empty k ∨
      (∀ w ∈ ws, k ∉ w.keys) ∧ ρ.after ws k = ρ k := by
  have htouch : ∀ w ∈ ws, k ∈ w.keys → w.touch k = some (Rows.empty k) := fun w hw hk => by
    have := hws w hw
    cases w <;> simp only [Write.IsRemoval] at this <;> obtain rfl := List.mem_singleton.mp hk <;>
      simp [Write.touch, Rows.empty]
  by_cases hex : ∃ w ∈ ws, k ∈ w.keys
  · obtain ⟨w, hw, hk⟩ := hex
    refine .inl ⟨⟨w, hw, hk⟩, writeAll_of_agree ⟨w, hw, htouch w hw hk⟩ fun v hv y hy => ?_⟩
    by_cases hk' : k ∈ v.keys
    · rw [htouch v hv hk'] at hy
      exact (Option.some.inj hy).symm
    · rw [Write.touch_eq_none hk'] at hy
      cases hy
  · push Not at hex
    exact .inr ⟨hex, writeAll_of_untouched fun w hw => Write.touch_eq_none (hex w hw)⟩

section Keys

variable {q : QualifiedSubject} {v v' : UInt32} {vr : VersionRecord} {ctx subject : String}
  {id : UInt32}

theorem exists_deletes_version :
    (∃ w, HardDeletes r also q v vr w ∧ .version ctx subject v' ∈ w.keys) ↔
      q = ⟨ctx, subject⟩ ∧ v = v' := by
  constructor
  · rintro ⟨w, hw, hk⟩
    cases hw <;> simp [Write.keys] at hk
    obtain ⟨rfl, rfl, rfl⟩ := hk
    exact ⟨rfl, rfl⟩
  · rintro ⟨rfl, rfl⟩
    exact ⟨_, .version, by simp [Write.keys]⟩

theorem exists_deletes_body : (∃ w, HardDeletes r also q v vr w ∧ .body ctx id ∈ w.keys) ↔
    q.context = ctx ∧ vr.id = id ∧ stillUsed r q v vr.id also = false ∧
      (r.getSchema q.context vr.id).isSome = true := by
  constructor
  · rintro ⟨w, hw, hk⟩
    cases hw with
    | version | refby => simp [Write.keys] at hk
    | body rec hused hrec =>
      simp only [Write.keys, List.mem_singleton, RowKey.body.injEq] at hk
      exact ⟨hk.1.symm, hk.2.symm, hused, by simp [hrec]⟩
  · rintro ⟨rfl, rfl, hused, hrec⟩
    obtain ⟨rec, hrec⟩ := Option.isSome_iff_exists.mp hrec
    exact ⟨_, .body rec hused hrec, by simp [Write.keys]⟩

theorem exists_deletes_refby :
    (∃ w, HardDeletes r also q v vr w ∧ .refby ctx subject v' id ∈ w.keys) ↔
      vr.id = id ∧ stillUsed r q v vr.id also = false ∧
      ∃ rec, r.getSchema q.context vr.id = some rec ∧
        ∃ sr ∈ rec.references, refTarget q.context sr = ⟨ctx, subject⟩ ∧ sr.target = v' := by
  constructor
  · rintro ⟨w, hw, hk⟩
    cases hw with
    | version | body => simp [Write.keys] at hk
    | refby rec sr hused hrec hsr =>
      simp only [Write.keys, List.mem_singleton, RowKey.refby.injEq] at hk
      obtain ⟨rfl, rfl, rfl, rfl⟩ := hk
      exact ⟨rfl, hused, rec, hrec, sr, hsr, rfl, rfl⟩
  · rintro ⟨rfl, hused, rec, hrec, sr, hsr, htarget, rfl⟩
    exact ⟨_, .refby rec sr hused hrec hsr, by simp [Write.keys, htarget]⟩

end Keys

theorem hardDeleteAll_isRemoval : ∀ w ∈ (hardDeleteAll r rows also).1, w.IsRemoval := by
  intro w hw
  obtain ⟨row, -, hdel⟩ := mem_hardDeleteAll.mp hw
  cases hdel <;> trivial

/-- A key is emptied by the hard delete of some row, or of none and then left alone. -/
theorem after_hardDeleteAll (r : Reader)
    (rows : List (QualifiedSubject × UInt32 × VersionRecord)) (also : List (String × UInt32))
    {k : RowKey} {deletes : QualifiedSubject × UInt32 × VersionRecord → Prop} (ρ : Rows)
    (hiff : ∀ p, (∃ w, HardDeletes r also p.1 p.2.1 p.2.2 w ∧ k ∈ w.keys) ↔ deletes p) :
    (∃ p ∈ rows, deletes p) ∧ ρ.after (hardDeleteAll r rows also).1 k = Rows.empty k ∨
      (∀ p ∈ rows, ¬ deletes p) ∧ ρ.after (hardDeleteAll r rows also).1 k = ρ k := by
  rcases after_removals hardDeleteAll_isRemoval ρ k with ⟨⟨w, hw, hk⟩, hrow⟩ | ⟨hnot, hrow⟩
  · obtain ⟨p, hp, hdel⟩ := mem_hardDeleteAll.mp hw
    exact .inl ⟨⟨p, hp, (hiff p).mp ⟨w, hdel, hk⟩⟩, hrow⟩
  · refine .inr ⟨fun p hp hdel => ?_, hrow⟩
    obtain ⟨w, hw, hk⟩ := (hiff p).mpr hdel
    exact hnot w (mem_hardDeleteAll.mpr ⟨p, hp, hw⟩) hk

/-- A removal that hard-deletes a row the view holds. -/
def Reader.Removes (r : Reader) (w : Write) : Prop :=
  ∃ also q p, p ∈ r.listVersions q.context q.subject ∧ HardDeletes r also q p.1 p.2 w

theorem Reader.Removes.isRemoval (h : r.Removes w) : w.IsRemoval := by
  obtain ⟨also, q, p, -, h⟩ := h
  cases h <;> trivial

/-- The rows a registration replaces are rows of its subject: the one under its number,
with no other known to go, and the stale ones, all at once. -/
theorem mem_replaced {q : QualifiedSubject} {version id : UInt32} :
    w ∈ (RegisterSchema.replaced r q version id).1 ↔
      (∃ vr, (version, vr) ∈ r.listVersions q.context q.subject ∧ HardDeletes r [] q version vr w) ∨
      ∃ p ∈ r.listVersions q.context q.subject, p.2.deleted = true ∧ p.2.id = id ∧ p.1 < version ∧
        HardDeletes r (((r.listVersions q.context q.subject).filter fun p =>
          p.2.deleted && p.2.id == id && p.1 < version).map fun p => (q.subject, p.1)) q
            p.1 p.2 w := by
  simp only [RegisterSchema.replaced, List.mem_append, mem_hardDeleteAll, List.mem_map,
    Option.mem_toList, exists_exists_and_eq_and]
  refine or_congr ?_ ?_
  · constructor
    · rintro ⟨p, hp, hw⟩
      have hv : p.1 = version := by simpa using List.find?_some hp
      exact ⟨p.2, hv ▸ List.mem_of_find?_eq_some hp, hw⟩
    · rintro ⟨vr, hmem, hw⟩
      obtain ⟨p, hp⟩ := Option.isSome_iff_exists.mp
        ((List.find?_isSome (p := fun p : UInt32 × VersionRecord => p.1 == version)).mpr
          ⟨_, hmem, by simp⟩)
      have hv : p.1 = version := by simpa using List.find?_some hp
      have hrow := Snapshot.mem_listVersions.mp (List.mem_of_find?_eq_some hp)
      rw [hv, Snapshot.mem_listVersions.mp hmem, Option.some.injEq] at hrow
      exact ⟨p, hp, hrow ▸ hw⟩
  · simp only [List.mem_filter, Bool.and_eq_true, beq_iff_eq, decide_eq_true_eq, and_assoc]

end HardDelete

/-! ### The snapshot stays consistent -/

theorem Reader.Removes.hintOk {w : Write} (h : reg.reader.Removes w) : reg.snapshot.HintOk w := by
  obtain ⟨also, q, p, hp, h⟩ := h
  cases h with
  | version =>
    intro vr hvr
    have hrow : reg.snapshot.getVersion q.context q.subject p.1 = some p.2 :=
      Snapshot.mem_listVersions.mp hp
    rw [hrow, Option.some.injEq] at hvr
    rw [hvr]
  | refby | body => trivial

/-- Removals first, then writes that delete no version: every delete names the right id. -/
theorem along_of_removals {gone rest : List Write} (hgone : ∀ w ∈ gone, reg.reader.Removes w)
    (hrest : ∀ ctx subject version id, Write.deleteVersion ctx subject version id ∉ rest) :
    Along Snapshot.applyWrite Snapshot.HintOk reg.snapshot (gone ++ rest) := by
  refine along_append.mpr ⟨Snapshot.along_of_deletes (fun ctx subject version rec hmem => ?_)
    fun w hw => (hgone w hw).hintOk, Snapshot.along_of_no_deletes hrest⟩
  exact (hgone _ hmem).isRemoval

theorem removes_of_rows {rows : List (QualifiedSubject × UInt32 × VersionRecord)} {r : Reader}
    {also : List (String × UInt32)} {w : Write}
    (hrows : ∀ p ∈ rows, p.2 ∈ r.listVersions p.1.context p.1.subject)
    (hw : w ∈ (hardDeleteAll r rows also).1) : r.Removes w := by
  obtain ⟨row, hrow, hdel⟩ := mem_hardDeleteAll.mp hw
  exact ⟨also, row.1, row.2, hrows row hrow, hdel⟩

theorem removes_of_replaced {r : Reader} {q : QualifiedSubject} {version id : UInt32} {w : Write}
    (hw : w ∈ (RegisterSchema.replaced r q version id).1) : r.Removes w := by
  rcases mem_replaced.mp hw with ⟨vr, hmem, hdel⟩ | ⟨p, hmem, -, -, -, hdel⟩
  · exact ⟨_, q, _, hmem, hdel⟩
  · exact ⟨_, q, p, hmem, hdel⟩

theorem not_deleteVersion_of_isSetting {ws : List Write} (h : ∀ w ∈ ws, w.IsSetting)
    (ctx subject : String) (version id : UInt32) :
    Write.deleteVersion ctx subject version id ∉ ws :=
  fun hmem => h _ hmem

/-- Every effect removes rows the view holds and then writes without deleting versions. -/
theorem Effect.split {view : ReadView} {verb : Verb} {ws : List Write} {evs : List LogEvent}
    (h : Effect srv view verb ws evs) : ∃ gone rest, ws = gone ++ rest ∧
      (∀ w ∈ gone, view.reader.Removes w) ∧
      ∀ ctx subject version id, Write.deleteVersion ctx subject version id ∉ rest := by
  cases h with
  | silent => exact ⟨[], [], rfl, by simp, by simp⟩
  | settings hws => exact ⟨[], ws, rfl, by simp, not_deleteVersion_of_isSetting hws⟩
  | softDelete q rows extra hrows hextra =>
    refine ⟨[], _, rfl, by simp, fun ctx subject version id hmem => ?_⟩
    rcases List.mem_append.mp hmem with hmem | hmem
    · simp [softDeleteWrite] at hmem
    · exact hextra _ hmem
  | hardDelete q rows hrows =>
    refine ⟨_, [], (List.append_nil _).symm, fun w hw => removes_of_rows (fun p hp => ?_) hw,
      by simp⟩
    obtain ⟨p', hp', rfl⟩ := List.mem_map.mp hp
    exact (hrows p' hp').1
  | purge m hm hpurges hrows =>
    exact ⟨_, _, rfl, fun w hw => removes_of_rows (fun p hp => (hrows p hp).1) hw, by simp⟩
  | register m hm x hx version id hversion hid =>
    refine ⟨_, _, rfl, fun w hw => removes_of_replaced hw, fun ctx subject v i hmem => ?_⟩
    simp only [RegisterSchema.added, List.mem_append, List.mem_singleton, List.mem_map,
      reduceCtorEq, false_or, or_false, and_false, exists_false] at hmem
    split at hmem <;> simp at hmem

theorem consistent_apply (h : reg.snapshot.Consistent) {now : Int} {guid : String} {verb : Verb}
    {α : Type} {plan : Plan α}
    (heff : Effect srv (reg.view now guid) verb plan.writes plan.events) :
    (reg.apply plan).snapshot.Consistent := by
  obtain ⟨gone, rest, hws, hgone, hrest⟩ := heff.split
  rw [Registry.snapshot_apply]
  exact h.applyWrites (hws ▸ along_of_removals hgone hrest)

/-- The derived indexes are consistent with the version rows in every state. -/
theorem consistent_step (h : reg.snapshot.Consistent) :
    (reg.step srv req).snapshot.Consistent := by
  rcases Registry.step_cases srv reg req with hstep | ⟨plan, hplan, hstep⟩
  · rwa [hstep]
  · rw [hstep]
    exact consistent_apply h (effect_of_decide hplan)

theorem consistent_runAll (tenant : TenantId) (reqs : List Request) :
    ((Registry.empty tenant).runAll srv reqs).snapshot.Consistent :=
  @inv_of_run _ _ (Registry.step srv) (fun reg => reg.snapshot.Consistent) _ _
    Snapshot.consistent_new fun _ _ => consistent_step

/-- A registry that some requests lead to. -/
def Registry.Reachable (srv : Server) (reg : Registry) : Prop :=
  ∃ tenant reqs, reg = (Registry.empty tenant).runAll srv reqs

/-! ### Histories to try things on -/

/-- Formats that take every text as it is and find every pair of schemas compatible. -/
def plainFormats : Formats where
  Inner := Unit
  parseWith schemaType text _ _ := .ok ⟨schemaType, text, text, none, ()⟩
  canRead _ _ _ := []
  sha256 := id

def plainServer : Server := ⟨plainFormats, .backward, false⟩

/-- What a history leaves of an empty registry. -/
abbrev plainRun (reqs : List Request) : Registry :=
  (Registry.empty .default).runAll plainServer reqs

/-- A request at time 0. -/
def plainRequest (verb : Verb) : Request := ⟨verb, 0, "guid"⟩

/-- Register a text under a subject. -/
def registerText (subject text : String) : Request :=
  plainRequest (.register subject { schema := some text } false)

/-- Register a JSON schema under a subject. -/
def registerJson (subject text : String) : Request :=
  plainRequest (.register subject { schema := some text, schemaType := some "JSON" } false)

/-- Register a JSON schema that references a version of another subject. -/
def registerReferring (subject text target : String) (version : Int32) : Request :=
  plainRequest (.register subject
    { schema := some text, schemaType := some "JSON"
      references := some [⟨false, some target, some target, some version⟩] } false)

end SchemaRegistry

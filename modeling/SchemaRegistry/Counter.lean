import SchemaRegistry.Appended

/-!
The id counter of a context. Every id that a row of the context holds, in a body, a version
or the content-hash index, is below the counter, and the counter never goes back: not when
an import jumps ahead, not when rows are removed, not when the context is deleted. So an id
the registry hands out was never there before. All this holds as long as the counter has
room: the last number wraps around.
-/

namespace SchemaRegistry

open Lib

variable {srv : Server} {reg : Registry} {verb : Verb} {now : Int} {guid : String}
  {ws : List Write} {evs : List LogEvent} {ctx : String}

/-- Some row of the context holds the id: a body, a version or an entry of the hash index. -/
def Rows.Holds (ρ : Rows) (ctx : String) (id : UInt32) : Prop :=
  (∃ rec, ρ (.body ctx id) = some rec) ∨ ρ.Uses ctx id ∨ ∃ fp, ρ (.fingerprint ctx fp) = some id

/-- The counter of the context has a next number. -/
def Registry.HasRoom (ctx : String) (reg : Registry) : Prop :=
  (reg.reader.nextId ctx).toNat < 2 ^ 32 - 1

instance (ctx : String) (reg : Registry) : Decidable (reg.HasRoom ctx) :=
  inferInstanceAs (Decidable (_ < _))

/-- A request that asks for no id. -/
def Request.NoId (req : Request) : Prop :=
  ∀ subject body normalize, req.verb = .register subject body normalize →
    (Draft.ofRequest body).id < 0

/-- In use is what the view lists usages for. -/
theorem Registry.uses_iff (hc : reg.snapshot.Consistent) {id : UInt32} :
    reg.rows.Uses ctx id ↔ reg.reader.idUsages ctx id ≠ [] := by
  constructor
  · rintro ⟨subject, v, vr, hrow, hid⟩
    exact List.ne_nil_of_mem (a := (subject, v)) ((Registry.mem_idUsages hc).mpr ⟨vr, hrow, hid⟩)
  · intro hused
    obtain ⟨⟨subject, v⟩, hmem⟩ := List.exists_mem_of_ne_nil _ hused
    obtain ⟨vr, hrow, hid⟩ := (Registry.mem_idUsages hc).mp hmem
    exact ⟨subject, v, vr, hrow, hid⟩

/-! ### What a step does to the ids -/

theorem fingerprint_not_mem {w : Write} (h : ∀ c id rec index, w ≠ .putSchema c id rec index)
    (ctx fp : String) : RowKey.fingerprint ctx fp ∉ w.keys := by
  cases w with
  | putSchema c id rec index => exact absurd rfl (h c id rec index)
  | _ => simp [Write.keys]

/-- Every verb either leaves the hash index as it is and hides or removes versions, or stores
a version. -/
theorem Effect.keeps_index_or_registers (h : Effect srv (reg.view now guid) verb ws evs) :
    (Shrinks reg (reg.rows.after ws) ∧
      ∀ ctx fp, reg.rows.after ws (.fingerprint ctx fp) = reg.rows (.fingerprint ctx fp)) ∨
    ∃ m x version id, Registration srv (reg.view now guid) verb m x version id ∧
      ws = RegisterSchema.written srv (reg.view now guid) m.subject version id x.canon := by
  rcases h.shrinks_or_registers with hs | hreg
  · by_cases hput : ∃ c id rec index, Write.putSchema c id rec index ∈ ws
    · obtain ⟨c, id, rec, index, hmem⟩ := hput
      -- A body is stored by a registration only.
      cases h with
      | silent => cases hmem
      | settings hws => exact (hws _ hmem).elim
      | softDelete q rows extra hrows hextra =>
        rcases List.mem_append.mp hmem with hmem | hmem
        · simp [softDeleteWrite] at hmem
        · exact (hextra _ hmem).elim
      | hardDelete q rows hrows => exact (hardDeleteAll_isRemoval _ hmem).elim
      | purge m hm hpurges hrows =>
        rcases List.mem_append.mp hmem with hmem | hmem
        · exact (hardDeleteAll_isRemoval _ hmem).elim
        · simp at hmem
      | register m hm x hx version id hversion hid =>
        exact .inr ⟨m, x, version, id, ⟨⟨_, _, _, rfl, hm⟩, hx, hversion, hid⟩, rfl⟩
    · refine .inl ⟨hs, fun ctx fp => writeAll_of_untouched fun w hw => Write.touch_eq_none ?_⟩
      refine fingerprint_not_mem (fun c id rec index e => hput ⟨c, id, rec, index, e ▸ hw⟩) ctx fp
  · exact .inr hreg

section Registers

variable {m : RegisterSchema} {x : RegisterSchema.Resolved srv.fmt.Inner} {version id : UInt32}

/-- A registration leaves the hash index of other contexts alone. -/
theorem index_register_ne {fp : String} (hctx : ctx ≠ m.subject.context) :
    reg.rows.after (RegisterSchema.written srv (reg.view now guid) m.subject version id x.canon)
        (.fingerprint ctx fp) = reg.rows (.fingerprint ctx fp) := by
  refine untouched_register (fun w hw => ?_) fun w hw => fingerprint_not_mem_of_isRemoval hw _ _
  cases hw <;> simp [Write.keys, hctx]

/-- The ids after a registration: the one it stores, and those that were there. -/
theorem holds_register {i : UInt32}
    (h : (reg.rows.after
      (RegisterSchema.written srv (reg.view now guid) m.subject version id x.canon)).Holds ctx i) :
    reg.rows.Holds ctx i ∨ ctx = m.subject.context ∧ i = id := by
  rcases h with ⟨rec, hrec⟩ | ⟨subject, v, vr, hrow, hid⟩ | ⟨fp, hfp⟩
  · by_cases hown : ctx = m.subject.context ∧ i = id
    · exact .inr hown
    · rw [body_of_register_ne _ hown] at hrec
      obtain ⟨D, hremoval⟩ := removal_replaced reg.reader m.subject version id
      exact .inl (.inl ⟨rec, hremoval.body_of_after hrec⟩)
  · rcases version_of_register hrow with ⟨hq, -, rfl⟩ | ⟨-, hold⟩
    · exact .inr ⟨by rw [hq], hid.symm⟩
    · exact .inl (.inr (.inl ⟨subject, v, vr, hold, hid⟩))
  · by_cases hctx : ctx = m.subject.context
    · subst hctx
      replace hfp := (index_register reg now guid m.subject version id x.canon fp).symm.trans hfp
      split at hfp
      · exact .inr ⟨rfl, (Option.some.inj hfp).symm⟩
      · exact .inl (.inr (.inr ⟨fp, hfp⟩))
    · exact .inl (.inr (.inr ⟨fp, by rw [← index_register_ne hctx, hfp]⟩))

/-- A registration leaves the counters of other contexts alone. -/
theorem nextId_register_ne {reg' : Registry} (hctx : ctx ≠ m.subject.context)
    (hrows : reg'.rows = reg.rows.after
      (RegisterSchema.written srv (reg.view now guid) m.subject version id x.canon)) :
    reg'.reader.nextId ctx = reg.reader.nextId ctx := by
  rw [Registry.nextId_eq, hrows, nextId_register _ replaced_isRemoval, if_neg fun h => hctx h.1,
    ← Registry.nextId_eq]

end Registers

/-- What a step does to the ids of a context whose counter has room: the counter does not go
back, no id is lost below it, and an id that appears under a request without one was never
given out. -/
structure Registry.Counts (ctx : String) (reg reg' : Registry) (req : Request) : Prop where
  mono : reg.reader.nextId ctx ≤ reg'.reader.nextId ctx
  held : ∀ id, reg'.rows.Holds ctx id → reg.rows.Holds ctx id ∨ id < reg'.reader.nextId ctx
  fresh : req.NoId → ∀ id, reg'.rows.Uses ctx id → ¬ reg.rows.Uses ctx id →
    reg.reader.nextId ctx ≤ id

theorem Registry.counts_step (hc : reg.snapshot.Consistent) (hroom : reg.HasRoom ctx)
    (req : Request) : Registry.Counts ctx reg (reg.step srv req) req := by
  obtain ⟨ws, evs, heff, hrows⟩ := Registry.rows_step srv reg req
  rcases heff.keeps_index_or_registers with ⟨hs, hindex⟩ | ⟨m, x, version, id, hreg, rfl⟩
  · rw [← hrows] at hs
    have hnext : (reg.step srv req).reader.nextId ctx = reg.reader.nextId ctx := by
      rw [Registry.nextId_eq, hs.nextId, ← Registry.nextId_eq]
    have huses : ∀ {id}, (reg.step srv req).rows.Uses ctx id → reg.rows.Uses ctx id := by
      rintro id ⟨subject, v, vr, hrow, hid⟩
      obtain ⟨old, hold, hsame, -⟩ := hs.version hrow
      exact ⟨subject, v, old, hold, hsame ▸ hid⟩
    refine ⟨hnext ▸ UInt32.le_rfl, fun id hid => .inl ?_, fun _ id hid hnot =>
      (hnot (huses hid)).elim⟩
    rcases hid with ⟨rec, hrec⟩ | hused | ⟨fp, hfp⟩
    · exact .inl ⟨rec, hs.body hrec⟩
    · exact .inr (.inl (huses hused))
    · exact .inr (.inr ⟨fp, by rw [← hindex, ← hrows, hfp]⟩)
  · by_cases hctx : ctx = m.subject.context
    · subst hctx
      obtain ⟨hid, hmono⟩ := counter_register (by unfold HasRoom at hroom; omega) hreg hrows
      refine ⟨hmono _, fun i hi => ?_, fun hno i hi hnot => ?_⟩
      · rcases holds_register (hrows ▸ hi) with hold | ⟨-, rfl⟩
        · exact .inl hold
        · exact .inr hid
      · obtain ⟨subject, v, vr, hrow, rfl⟩ := hi
        rw [hrows] at hrow
        rcases version_of_register hrow with ⟨-, -, rfl⟩ | ⟨-, hold⟩
        · obtain ⟨name, body, normalize, hverb, hm⟩ := hreg.new
          have hneg : m.draft.id < 0 := by
            rw [draft_eq_of_new hm]
            exact hno name body normalize hverb
          exact (hreg.used_or_beyond fun hpos => absurd hneg (Int32.not_lt.mpr hpos)).resolve_left
            fun hused => hnot ((Registry.uses_iff hc).mpr hused)
        · exact (hnot ⟨subject, v, vr, hold, rfl⟩).elim
    · have hnext := nextId_register_ne hctx hrows
      refine ⟨hnext ▸ UInt32.le_rfl, fun i hi => .inl ?_, fun _ i hi hnot => (hnot ?_).elim⟩
      · exact (holds_register (hrows ▸ hi)).resolve_right fun h => hctx h.1
      · obtain ⟨subject, v, vr, hrow, hid⟩ := hi
        rw [hrows] at hrow
        rcases version_of_register hrow with ⟨hq, -, -⟩ | ⟨-, hold⟩
        · exact (hctx (by rw [hq])).elim
        · exact ⟨subject, v, vr, hold, hid⟩

/-- A request without an id stores a new version under `id`, which is not the one that the hash
index has for its content. -/
def Registry.Assigns (srv : Server) (reg : Registry) (req : Request) (ctx : String)
    (id : UInt32) : Prop :=
  ∃ subject body normalize m version vr, req.verb = .register subject body normalize ∧
    RegisterSchema.new subject body normalize = .ok m ∧ m.subject.context = ctx ∧
    m.draft.id < 0 ∧
    (∀ c ∈ m.content srv (reg.view req.now req.newGuid),
      (hashLookup srv reg.reader m.subject c).map Prod.fst ≠ some id) ∧
    reg.rows (.version ctx m.subject.subject version) = none ∧
    (reg.step srv req).rows (.version ctx m.subject.subject version) = some vr ∧ vr.id = id

/-- The id assigned is the next one. -/
theorem Registry.Assigns.eq_nextId {req : Request} {id : UInt32} (h : reg.Assigns srv req ctx id) :
    id = reg.reader.nextId ctx := by
  obtain ⟨subject, body, normalize, m, v, vr, hverb, hm, rfl, hneg, hindex, hold, hrow, rfl⟩ := h
  obtain ⟨ws, evs, heff, hrows⟩ := Registry.rows_step srv reg req
  rw [hrows] at hrow
  rcases heff.keeps_index_or_registers with ⟨hs, -⟩ | ⟨m', x, version, id, hreg, rfl⟩
  · obtain ⟨old, hthere, -⟩ := hs.version hrow
    rw [hold] at hthere
    cases hthere
  · obtain ⟨_, _, _, hverb', hm'⟩ := hreg.new
    cases hverb.symm.trans hverb'
    cases hm.symm.trans hm'
    rcases version_of_register hrow with ⟨-, -, rfl⟩ | ⟨-, hthere⟩
    · have hx := resolve_spec hreg.resolved
      by_cases hpos : 0 ≤ x.schemaId
      · rcases hx.schemaId with ⟨hid, -⟩ | ⟨i, hit, hlookup, -, hid⟩
        · rw [hid, hx.inherits.id] at hpos
          exact absurd hneg (Int32.not_lt.mpr hpos)
        · refine absurd ?_ (hindex x.canon hx.content)
          rw [hreg.id_of_nonneg hpos, hid, UInt32.toUInt32_toInt32]
          exact congrArg (Option.map Prod.fst) hlookup
      · have hchosen := hreg.id
        rw [RegisterSchema.chooseId, if_neg hpos] at hchosen
        exact (Except.ok.inj hchosen).symm
    · rw [hold] at hthere
      cases hthere

/-! ### Whole runs -/

/-- The ids of the context are below its counter. -/
structure Registry.Below (ctx : String) (reg : Registry) : Prop where
  consistent : reg.snapshot.Consistent
  ids : ∀ id, reg.rows.Holds ctx id → id < reg.reader.nextId ctx

theorem Registry.Below.step (h : reg.Below ctx) (hroom : reg.HasRoom ctx) (req : Request) :
    (reg.step srv req).Below ctx where
  consistent := consistent_step h.consistent
  ids id hid := by
    have hcounts : Registry.Counts ctx reg (reg.step srv req) req :=
      Registry.counts_step h.consistent hroom req
    rcases hcounts.held id hid with hold | hlt
    · exact UInt32.lt_of_lt_of_le (h.ids id hold) hcounts.mono
    · exact hlt

theorem Registry.below_empty (tenant : TenantId) : (Registry.empty tenant).Below ctx where
  consistent := Snapshot.consistent_new
  ids id hid := by
    rw [Registry.rows_empty] at hid
    rcases hid with ⟨rec, hrec⟩ | ⟨subject, v, vr, hrow, -⟩ | ⟨fp, hfp⟩
    · cases hrec
    · cases hrow
    · cases hfp

section Runs

variable {tenant : TenantId} {reqs pre : List Request}

/-- The counter of the context has room in every state of the run. -/
def RoomThroughout (srv : Server) (tenant : TenantId) (ctx : String) (reqs : List Request) : Prop :=
  ∀ pre, pre <+: reqs → ((Registry.empty tenant).runAll srv pre).HasRoom ctx

theorem RoomThroughout.of_isPrefix (h : RoomThroughout srv tenant ctx reqs) (hpre : pre <+: reqs) :
    RoomThroughout srv tenant ctx pre :=
  fun _ hold => h _ (hold.trans hpre)

theorem RoomThroughout.along (h : RoomThroughout srv tenant ctx reqs) :
    Along (Registry.step srv) (fun reg _ => reg.HasRoom ctx) (Registry.empty tenant) reqs :=
  along_of_isPrefix fun pre req hpre => h pre ((List.prefix_append pre [req]).trans hpre)

theorem RoomThroughout.below (h : RoomThroughout srv tenant ctx reqs) :
    ((Registry.empty tenant).runAll srv reqs).Below ctx :=
  inv_of_along h.along (Registry.below_empty tenant) fun _ req hbelow hroom => hbelow.step hroom req

theorem RoomThroughout.mono (h : RoomThroughout srv tenant ctx reqs) (hpre : pre <+: reqs) :
    ((Registry.empty tenant).runAll srv pre).reader.nextId ctx
      ≤ ((Registry.empty tenant).runAll srv reqs).reader.nextId ctx := by
  have hbelow := (h.of_isPrefix hpre).below
  obtain ⟨rest, rfl⟩ := hpre
  have halong := (along_append.mp h.along).2
  rw [Registry.runAll, Registry.runAll, List.foldl_append]
  rw [Registry.runAll] at hbelow
  generalize pre.foldl (Registry.step srv) (Registry.empty tenant) = start at hbelow halong ⊢
  -- Below the counter and not behind the start: both are kept step by step.
  have hinv : ∀ (reg : Registry) (req : Request),
      (reg.Below ctx ∧ start.reader.nextId ctx ≤ reg.reader.nextId ctx) →
      reg.HasRoom ctx → (reg.step srv req).Below ctx ∧
        start.reader.nextId ctx ≤ (reg.step srv req).reader.nextId ctx := by
    intro reg req hreg hroom
    exact ⟨hreg.1.step hroom req, UInt32.le_trans hreg.2
      (Registry.counts_step hreg.1.consistent hroom req).mono⟩
  exact (inv_of_along halong ⟨hbelow, UInt32.le_rfl⟩ hinv).2

/-- What the counter has not reached was in no row of any earlier state. -/
theorem RoomThroughout.not_holds (h : RoomThroughout srv tenant ctx reqs) {id : UInt32}
    (hid : ((Registry.empty tenant).runAll srv reqs).reader.nextId ctx ≤ id) (old : List Request)
    (hold : old <+: reqs) : ¬ ((Registry.empty tenant).runAll srv old).rows.Holds ctx id := by
  intro hholds
  have hlt := UInt32.lt_of_lt_of_le ((h.of_isPrefix hold).below.ids id hholds) (h.mono hold)
  exact UInt32.lt_irrefl _ (UInt32.lt_of_lt_of_le hlt hid)

/-- In every run in which the counter of a context stays below 2^32 - 1: every id that a body,
a version or an entry of the hash index of the context holds is below the counter, the counter
never goes back, an id that comes into use under a request without one was in no row of the
context in any earlier state, and the id under which a request without one stores content that
the hash index does not have under it is the counter's, which was in no row either. -/
theorem ids_fresh (srv : Server) (tenant : TenantId) (ctx : String) (reqs : List Request)
    (hroom : RoomThroughout srv tenant ctx reqs) :
    (∀ id, ((Registry.empty tenant).runAll srv reqs).rows.Holds ctx id →
      id < ((Registry.empty tenant).runAll srv reqs).reader.nextId ctx) ∧
    (∀ pre, pre <+: reqs → ((Registry.empty tenant).runAll srv pre).reader.nextId ctx
      ≤ ((Registry.empty tenant).runAll srv reqs).reader.nextId ctx) ∧
    (∀ pre req, pre ++ [req] <+: reqs → req.NoId → ∀ id,
      ((Registry.empty tenant).runAll srv (pre ++ [req])).rows.Uses ctx id →
      ¬ ((Registry.empty tenant).runAll srv pre).rows.Uses ctx id →
      ∀ old, old <+: pre → ¬ ((Registry.empty tenant).runAll srv old).rows.Holds ctx id) ∧
    ∀ pre req, pre ++ [req] <+: reqs → ∀ id,
      ((Registry.empty tenant).runAll srv pre).Assigns srv req ctx id →
      id = ((Registry.empty tenant).runAll srv pre).reader.nextId ctx ∧
      ∀ old, old <+: pre → ¬ ((Registry.empty tenant).runAll srv old).rows.Holds ctx id := by
  refine ⟨hroom.below.ids, fun pre => hroom.mono, fun pre req hpre hno id hused hnot => ?_,
    fun pre req hpre id hassigns => ⟨hassigns.eq_nextId, ?_⟩⟩ <;>
    have hroom' := hroom.of_isPrefix ((List.prefix_append pre [req]).trans hpre)
  · have hstep : (Registry.empty tenant).runAll srv (pre ++ [req])
        = ((Registry.empty tenant).runAll srv pre).step srv req := by
      rw [Registry.runAll, List.foldl_append]
      rfl
    rw [hstep] at hused
    exact hroom'.not_holds ((Registry.counts_step hroom'.below.consistent
      (hroom' pre List.prefix_rfl) req).fresh hno id hused hnot)
  · exact hroom'.not_holds (hassigns.eq_nextId ▸ UInt32.le_rfl)

end Runs

/-- Two texts, and the first one gone for good in between. -/
def renewedHistory : List Request :=
  [registerText "a" "\"int\"", plainRequest (.deleteSubject "a" false),
    plainRequest (.deleteSubject "a" true), registerText "b" "\"string\""]

/-- The second text is assigned the counter's id, which no earlier state held: not the one in
which the first was there either. -/
theorem ids_fresh_renewedHistory :
    RoomThroughout plainServer .default "." renewedHistory ∧
      (plainRun (renewedHistory.take 3)).Assigns plainServer (registerText "b" "\"string\"") "." 2 ∧
      ¬ (plainRun (renewedHistory.take 1)).rows.Holds "." 2 := by
  have hroom : RoomThroughout plainServer .default "." renewedHistory := by
    intro pre hpre
    have hall : ∀ n ≤ 4, (plainRun
        (renewedHistory.take n)).HasRoom "." := by decide
    rw [List.prefix_iff_eq_take.mp hpre]
    exact hall _ hpre.length_le
  have hassigns : (plainRun (renewedHistory.take 3)).Assigns
      plainServer (registerText "b" "\"string\"") "." 2 :=
    ⟨"b", _, _, _, 1, ⟨2, false, 0⟩, rfl, rfl, rfl, by decide, by decide, by decide, by decide, rfl⟩
  exact ⟨hroom, hassigns, ((ids_fresh plainServer .default "." renewedHistory hroom).2.2.2
    (renewedHistory.take 3) (registerText "b" "\"string\"") List.prefix_rfl 2 hassigns).2 _
    (List.take_prefix_take_left (by decide))⟩

end SchemaRegistry

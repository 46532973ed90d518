import SchemaRegistry.ContextNames
import SchemaRegistry.Counter
import SchemaRegistry.Racing

/-!
The life of a version. A version row is stored live, is hidden by a soft delete and only then
removed. Outside IMPORT mode nothing is stored over a row that is there, so it keeps its id and its
timestamp and stays hidden once it is. In IMPORT mode a registration that names a number puts its
row over the one under that number. The body under an id is never replaced while a version uses
the id.
-/

namespace SchemaRegistry

open Lib

variable {srv : Server} {reg : Registry} {ctx subject : String} {v : UInt32}

/-- The subject takes versions under any number. -/
def Registry.Importing (reg : Registry) (ctx subject : String) : Prop :=
  modeFor reg.reader (.subject ⟨ctx, subject⟩) = .«import»

/-- What one step may make of the row of a version. The number 0 comes after the last one. -/
inductive Moves (reg : Registry) (ctx subject : String) (v : UInt32) :
    Option VersionRecord → Option VersionRecord → Prop
  | stays (row : Option VersionRecord) : Moves reg ctx subject v row row
  | stored (vr : VersionRecord) (hlive : vr.deleted = false) :
      Moves reg ctx subject v none (some vr)
  | overwritten (old vr : VersionRecord) (hlive : vr.deleted = false)
      (hnumber : reg.Importing ctx subject ∨ v = 0) : Moves reg ctx subject v (some old) (some vr)
  | hidden (vr : VersionRecord) (hlive : vr.deleted = false) :
      Moves reg ctx subject v (some vr) (some { vr with deleted := true })
  | removed (vr : VersionRecord) (hhidden : vr.deleted = true) :
      Moves reg ctx subject v (some vr) none

/-! ### Steps -/

/-- The number a registration gets, outside IMPORT, is the next one. -/
theorem chooseVersion_eq {m : RegisterSchema} {d : Draft} {next version : UInt32}
    (h : RegisterSchema.chooseVersion (modeFor reg.reader (.subject m.subject) == .«import»)
      d next = .ok version) :
    reg.Importing m.subject.context m.subject.subject ∨ version = next := by
  unfold RegisterSchema.chooseVersion at h
  split at h
  · cases h
    exact .inr rfl
  · split at h
    · cases h
    · next hnext =>
        cases h
        by_cases hmode : modeFor reg.reader (.subject m.subject) = .«import»
        · exact .inl hmode
        · simp [hmode] at hnext
          exact .inr hnext.symm

/-- A removal of hidden rows. -/
theorem moves_hardDelete {rows : List (QualifiedSubject × UInt32 × VersionRecord)}
    {also : List (String × UInt32)}
    (hrows : ∀ p ∈ rows, reg.reader.Removable p.1 true p.2) :
    Moves reg ctx subject v (reg.rows (.version ctx subject v))
      (reg.rows.after (hardDeleteAll reg.reader rows also).1 (.version ctx subject v)) := by
  rcases version_hardDeleteAll reg rows also reg.rows ctx subject v with ⟨hin, hgone⟩ | ⟨-, hsame⟩
  · unfold Outside at hin
    push Not at hin
    obtain ⟨p, hp, hq, hv⟩ := hin
    have hrow := Registry.mem_listVersions.mp (hrows p hp).1
    rw [hq, hv] at hrow
    rw [hgone, hrow]
    exact .removed p.2.2 (hrows p hp).2.1
  · rw [hsame]
    exact .stays _

theorem moves_register {now : Int} {guid : String} {m : RegisterSchema} {version id : UInt32}
    {c : Canon srv.fmt.Inner}
    (hnumber : reg.Importing m.subject.context m.subject.subject ∨ version
      = RegisterSchema.newVersion (reg.reader.listVersions m.subject.context m.subject.subject)) :
    Moves reg ctx subject v (reg.rows (.version ctx subject v))
      (reg.rows.after (RegisterSchema.written srv (reg.view now guid) m.subject version id c)
        (.version ctx subject v)) := by
  rcases version_register srv (reg.view now guid) m.subject version id c reg.rows ctx subject v with
    ⟨⟨hq, rfl⟩, hnew⟩ | ⟨-, ⟨⟨hq, vr, hmem, hdel, -, -⟩, hgone⟩ | ⟨-, hsame⟩⟩
  · rw [hq] at hnumber
    rw [hnew]
    cases hold : reg.rows (.version ctx subject v) with
    | none => exact .stored _ rfl
    | some old =>
      refine .overwritten old _ rfl (hnumber.imp_right fun hnext => ?_)
      by_contra hzero
      exact Race.newVersion_ne (p := (v, old)) (Registry.mem_listVersions.mpr hold)
        (UInt32.pos_iff_ne_zero.mpr hzero) hnext.symm
  · have hrow := Registry.mem_listVersions.mp hmem
    rw [hq] at hrow
    rw [hgone, hrow]
    exact .removed vr hdel
  · rw [hsame]
    exact .stays _

theorem version_after_putMode (ρ : Rows) (ws : List Write) (scope : Scope) (mode : Mode) :
    ρ.after (ws ++ [.putMode scope mode]) (.version ctx subject v)
      = ρ.after ws (.version ctx subject v) := by
  rw [Rows.after, writeAll_append]
  rfl

/-- What any verb makes of the row of a version. -/
theorem Effect.moves {now : Int} {guid : String} {verb : Verb} {ws : List Write}
    {evs : List LogEvent} (h : Effect srv (reg.view now guid) verb ws evs) (ctx subject : String)
    (v : UInt32) : Moves reg ctx subject v (reg.rows (.version ctx subject v))
      (reg.rows.after ws (.version ctx subject v)) := by
  cases h with
  | silent => exact .stays _
  | settings hws =>
    rw [Rows.after, writeAll_of_untouched fun w hw =>
      Write.touch_eq_none ((not_mem_keys_of_isSetting (hws w hw)).1 ctx subject v)]
    exact .stays _
  | softDelete q rows extra hrows hextra =>
    rcases version_softDelete hrows hextra ctx subject v with ⟨vr, hmem, -, hrow, hafter⟩ | hsame
    · rw [hafter, hrow]
      exact .hidden vr (hrows _ hmem).2.1
    · rw [hsame]
      exact .stays _
  | hardDelete q rows hrows =>
    refine moves_hardDelete fun p hp => ?_
    obtain ⟨p', hp', rfl⟩ := List.mem_map.mp hp
    exact hrows p' hp'
  | purge m hm hpurges hrows =>
    rw [version_after_putMode]
    exact moves_hardDelete hrows
  | register m hm x hx version id hversion hid => exact moves_register (chooseVersion_eq hversion)

theorem moves_step (srv : Server) (reg : Registry) (req : Request) (ctx subject : String)
    (v : UInt32) : Moves reg ctx subject v (reg.rows (.version ctx subject v))
      ((reg.step srv req).rows (.version ctx subject v)) := by
  obtain ⟨ws, evs, heff, hrows⟩ := Registry.rows_step srv reg req
  rw [hrows]
  exact heff.moves ctx subject v

/-! ### Histories -/

/-- A version that was live and is gone has been hidden in between. -/
theorem hidden_before_gone (srv : Server) (reg : Registry) (reqs : List Request)
    (ctx subject : String) (v : UInt32) {vr : VersionRecord}
    (hrow : reg.rows (.version ctx subject v) = some vr) (hlive : vr.deleted = false)
    (hgone : (reg.runAll srv reqs).rows (.version ctx subject v) = none) :
    ∃ pre, pre <+: reqs ∧ ∃ vr', (reg.runAll srv pre).rows (.version ctx subject v) = some vr' ∧
      vr'.deleted = true := by
  induction reqs generalizing reg vr with
  | nil =>
    rw [show reg.runAll srv [] = reg from rfl, hrow] at hgone
    cases hgone
  | cons req reqs ih =>
    have hmoves := moves_step srv reg req ctx subject v
    -- From a live row a step leads to a live one, which the rest of the run starts from, or to
    -- the hidden one.
    have hrest : ∀ {vr' : VersionRecord},
        (reg.step srv req).rows (.version ctx subject v) = some vr' → vr'.deleted = false →
        ∃ pre, pre <+: req :: reqs ∧ ∃ vr', (reg.runAll srv pre).rows (.version ctx subject v)
          = some vr' ∧ vr'.deleted = true := by
      intro vr' hrow' hlive'
      obtain ⟨pre, hpre, hhidden⟩ := ih (reg.step srv req) hrow' hlive' hgone
      exact ⟨req :: pre, (List.prefix_cons_inj req).mpr hpre, hhidden⟩
    rw [hrow] at hmoves
    cases hafter : (reg.step srv req).rows (.version ctx subject v) with
    | none =>
      rw [hafter] at hmoves
      cases hmoves with
      | removed _ hhidden =>
        rw [hlive] at hhidden
        cases hhidden
    | some vr' =>
      rw [hafter] at hmoves
      cases hmoves with
      | stays => exact hrest hafter hlive
      | overwritten _ _ hlive' => exact hrest hafter hlive'
      | hidden =>
        exact ⟨[req], by simp, _, hafter, rfl⟩

/-- The first version of `renewedHistory` goes in two steps. -/
theorem hidden_before_gone_renewedHistory :
    ∃ pre, pre <+: renewedHistory.tail ∧ ∃ vr', ((plainRun
      (renewedHistory.take 1)).runAll plainServer pre).rows (.version "." "a" 1) = some vr' ∧
      vr'.deleted = true :=
  hidden_before_gone plainServer _ renewedHistory.tail "." "a" 1
    (by decide : _ = some (⟨1, false, 0⟩ : VersionRecord)) rfl (by decide)

/-- What the step of a kept version is like: the subject takes no imports, and the version is
there afterwards. -/
def Registry.KeepsVersion (srv : Server) (ctx subject : String) (v : UInt32) (reg : Registry)
    (req : Request) : Prop :=
  ¬ reg.Importing ctx subject ∧ ((reg.step srv req).rows (.version ctx subject v)).isSome = true

/-- Outside IMPORT mode a version keeps its id and its timestamp for as long as it is there, and
once hidden it stays so. -/
theorem version_keeps_id (srv : Server) (reg : Registry) (reqs : List Request)
    (ctx subject : String) (v : UInt32) (hv : v ≠ 0)
    (hkeeps : Along (Registry.step srv) (Registry.KeepsVersion srv ctx subject v) reg reqs)
    {vr : VersionRecord} (hrow : reg.rows (.version ctx subject v) = some vr) :
    ∃ vr', (reg.runAll srv reqs).rows (.version ctx subject v) = some vr' ∧ vr'.id = vr.id ∧
      vr'.ts = vr.ts ∧ (vr.deleted = true → vr'.deleted = true) := by
  induction reqs generalizing reg vr with
  | nil => exact ⟨vr, hrow, rfl, rfl, id⟩
  | cons req reqs ih =>
    obtain ⟨⟨hmode, hthere⟩, hrest⟩ := hkeeps
    obtain ⟨next, hnext⟩ := Option.isSome_iff_exists.mp hthere
    have hmoves := moves_step srv reg req ctx subject v
    rw [hrow, hnext] at hmoves
    have hsame : next.id = vr.id ∧ next.ts = vr.ts ∧ (vr.deleted = true → next.deleted = true) := by
      cases hmoves with
      | stays => exact ⟨rfl, rfl, id⟩
      | overwritten _ _ _ hnumber => exact (hnumber.elim hmode hv).elim
      | hidden => exact ⟨rfl, rfl, fun _ => rfl⟩
    obtain ⟨last, hlast, hid, hts, hdeleted⟩ := ih (reg.step srv req) hrest hnext
    exact ⟨last, hlast, hid.trans hsame.1, hts.trans hsame.2.1, hdeleted ∘ hsame.2.2⟩

/-- A version hidden and then left alone. -/
theorem version_keeps_id_hidden :
    ∃ vr', ((plainRun (renewedHistory.take 2)).runAll plainServer
      [registerText "a" "\"string\""]).rows (.version "." "a" 1) = some vr' ∧ vr'.id = 1 ∧
      vr'.ts = 0 ∧ (true = true → vr'.deleted = true) :=
  version_keeps_id plainServer _ [registerText "a" "\"string\""] "." "a" 1 (by decide)
    ⟨⟨by unfold Registry.Importing; decide, by decide⟩, trivial⟩
    (by decide : _ = some (⟨1, true, 0⟩ : VersionRecord))

/-! ### Content -/

/-- An id in use that a registration takes again keeps its body. -/
theorem bodyFor_of_below {now : Int} {guid : String} {verb : Verb} {m : RegisterSchema}
    {x : RegisterSchema.Resolved srv.fmt.Inner} {version id : UInt32}
    (hbelow : reg.Below m.subject.context)
    (hreg : Registration srv (reg.view now guid) verb m x version id) {rec : SchemaRecord}
    (hused : reg.rows.Uses m.subject.context id)
    (hrec : reg.rows (.body m.subject.context id) = some rec) :
    RegisterSchema.bodyFor srv (reg.view now guid) m.subject.context id x.canon = rec := by
  have hget : (reg.view now guid).reader.getSchema m.subject.context id = some rec := hrec
  rcases chooseId_spec hreg.id with hnext | ⟨-, hfp⟩
  · have hlt := hbelow.ids id (.inr (.inl hused))
    rw [hnext] at hlt
    exact (UInt32.lt_irrefl _ hlt).elim
  · have hsame := hfp ((Registry.uses_iff hbelow.consistent).mp hused) rec hrec
    simp only [RegisterSchema.bodyFor, hget, hsame, if_true]

/-- A step that leaves an id in use leaves its body as it is. -/
theorem body_step (hbelow : reg.Below ctx) (hsound : reg.Sound srv.fmt) (req : Request)
    {id : UInt32} {rec : SchemaRecord} (hused : reg.rows.Uses ctx id)
    (hrec : reg.rows (.body ctx id) = some rec)
    (hused' : (reg.step srv req).rows.Uses ctx id) :
    (reg.step srv req).rows (.body ctx id) = some rec := by
  obtain ⟨ws, evs, heff, hrows⟩ := Registry.rows_step srv reg req
  have hbody := hsound.present.effect hbelow.consistent heff ctx id (hrows ▸ hused')
  obtain ⟨rec', hrec'⟩ := Option.isSome_iff_exists.mp hbody
  rw [hrows]
  rcases heff.shrinks_or_registers with hs | ⟨m, x, version, i, hreg, rfl⟩
  · exact hrec'.trans ((hs.body hrec').symm.trans hrec)
  · by_cases hown : ctx = m.subject.context ∧ id = i
    · obtain ⟨rfl, rfl⟩ := hown
      rw [body_of_register_self, bodyFor_of_below hbelow hreg hused hrec]
    · rw [body_of_register_ne _ hown] at hrec' ⊢
      obtain ⟨D, hD⟩ := removal_replaced reg.reader m.subject version i
      exact hrec'.trans ((hD.body_of_after hrec').symm.trans hrec)

/-- What the step of a kept id is like: its context has room for another id, and the id is in use
afterwards. -/
def Registry.KeepsId (srv : Server) (ctx : String) (id : UInt32) (reg : Registry)
    (req : Request) : Prop :=
  reg.HasRoom ctx ∧ (reg.step srv req).rows.Uses ctx id

theorem body_runAll {id : UInt32} {rec : SchemaRecord} (hbelow : reg.Below ctx)
    (hsound : reg.Sound srv.fmt) (hused : reg.rows.Uses ctx id)
    (hrec : reg.rows (.body ctx id) = some rec) {later : List Request}
    (hkeeps : Along (Registry.step srv) (Registry.KeepsId srv ctx id) reg later) :
    (reg.runAll srv later).rows (.body ctx id) = some rec := by
  induction later generalizing reg with
  | nil => exact hrec
  | cons req later ih =>
    obtain ⟨⟨hroom, hused'⟩, hrest⟩ := hkeeps
    exact ih (hbelow.step hroom req) hsound.step hused'
      (body_step hbelow hsound req hused hrec hused') hrest

/-- The content under an id is the same for as long as some version uses the id. -/
theorem body_immutable (srv : Server) (tenant : TenantId) (ctx : String)
    (reqs later : List Request) (hroom : RoomThroughout srv tenant ctx reqs) (id : UInt32)
    (hused : ((Registry.empty tenant).runAll srv reqs).rows.Uses ctx id)
    (hkeeps : Along (Registry.step srv) (Registry.KeepsId srv ctx id)
      ((Registry.empty tenant).runAll srv reqs) later) :
    ∃ rec, ((Registry.empty tenant).runAll srv reqs).rows (.body ctx id) = some rec ∧
      ((Registry.empty tenant).runAll srv (reqs ++ later)).rows (.body ctx id) = some rec := by
  have hsound := Registry.sound_runAll srv tenant reqs
  obtain ⟨rec, hrec⟩ := Option.isSome_iff_exists.mp (hsound.present ctx id hused)
  have hrun := body_runAll hroom.below hsound hused hrec hkeeps
  rw [Registry.runAll, Registry.runAll, ← List.foldl_append] at hrun
  exact ⟨rec, hrec, hrun⟩

/-- A text in use, and another one registered after it. -/
theorem body_immutable_renewedHistory :
    ∃ rec, (plainRun (renewedHistory.take 1)).rows (.body "." 1)
      = some rec ∧ (plainRun (renewedHistory.take 1
        ++ [registerText "b" "\"string\""])).rows (.body "." 1) = some rec := by
  refine body_immutable plainServer .default "." (renewedHistory.take 1) _ ?_ 1 ?_
    ⟨⟨by decide, ?_⟩, trivial⟩
  · intro pre hpre
    have hall : ∀ n ≤ 1, (plainRun
        (renewedHistory.take n)).HasRoom "." := by decide
    rw [List.prefix_take_iff] at hpre
    rw [List.prefix_iff_eq_take.mp hpre.1]
    exact hall _ hpre.2
  · rw [Registry.uses_iff (consistent_runAll _ _)]
    decide
  · rw [Registry.uses_iff (consistent_step (consistent_runAll _ _))]
    decide

/-! ### Entering IMPORT -/

/-- The scope of the setting covers the subject. -/
def SetMode.Covers (m : SetMode) (ctx subject : String) : Prop :=
  ∀ q, m.subject = some q → q.context = ctx ∧ (q.isContextOnly = false → q.subject = subject)

/-- The purge looks at every version of the scope. -/
theorem mem_doomed_of_covers {m : SetMode} (hc : reg.snapshot.Consistent)
    (hfiled : reg.rows.Filed) (hcovers : m.Covers ctx subject) {vr : VersionRecord}
    (hrow : reg.rows (.version ctx subject v) = some vr) :
    (⟨ctx, subject⟩, v, vr) ∈ m.doomed reg.reader := by
  have hname : subject ∈ reg.reader.listSubjectNames ctx :=
    (Registry.mem_listSubjectNames hc).mpr ⟨v, vr, hrow⟩
  refine mem_doomed.mpr ⟨?_, Registry.mem_listVersions.mpr hrow⟩
  unfold SetMode.subjectsInScope
  cases hm : m.subject with
  | none =>
    refine List.mem_flatMap.mpr ⟨ctx, ?_, List.mem_map_of_mem hname⟩
    exact Snapshot.mem_listContexts.mpr (.inr (hfiled ctx subject v vr hrow))
  | some q =>
    obtain ⟨rfl, hsubject⟩ := hcovers q hm
    cases hq : q.isContextOnly with
    | true =>
      simp only [hq, if_true]
      exact List.mem_map_of_mem hname
    | false =>
      obtain rfl := hsubject hq
      simp [hq]

theorem purge_writes {m : SetMode} {view : ReadView} {plan : Plan Unit}
    (hpurges : m.purges view.reader = true) (h : m.plan view = .ok plan) :
    plan.writes = (hardDeleteAll view.reader (m.doomed view.reader)
      ((m.doomed view.reader).map fun p => (p.1.subject, p.2.1))).1
        ++ [.putMode (scopeOf m.subject) m.mode] := by
  unfold SetMode.plan at h
  simp only [hpurges, if_true, error_bind, ite_error_eq_ok, bind_eq_ok, forM_eq_ok,
    Except.ok.injEq] at h
  obtain ⟨-, -, -, gone, rfl, rfl⟩ := h
  rfl

/-- A scope that enters IMPORT without force is empty: no version in it is left, live or hidden,
unless the request is refused and changes nothing. -/
theorem import_starts_empty (srv : Server) (tenant : TenantId) (reqs : List Request)
    (subject : Option String) (now : Int) (guid : String)
    (hmode : modeFor ((Registry.empty tenant).runAll srv reqs).reader
      (targetOf (subject.map QualifiedSubject.parse)) ≠ .«import») :
    let reg := (Registry.empty tenant).runAll srv reqs
    let m := SetMode.new subject .«import» false
    let reg' := reg.step srv ⟨.setMode subject .«import» false, now, guid⟩
    reg' = reg ∨ reg'.rows (.mode (scopeOf m.subject)) = some .«import» ∧
      ∀ ctx name v, m.Covers ctx name → reg'.rows (.version ctx name v) = none := by
  intro reg m reg'
  rcases Registry.step_cases srv reg ⟨.setMode subject .«import» false, now, guid⟩ with
    hsame | ⟨plan, hplan, hstep⟩
  · exact .inl hsame
  · have hpurges : m.purges reg.reader = true := by
      simpa [SetMode.purges, m, SetMode.new] using hmode
    obtain ⟨mu, hmu, hdecide⟩ := bind_eq_ok.mp hplan
    cases hmu
    change m.mutation.gatedPlan (reg.view now guid) = .ok plan at hdecide
    have hwrites := purge_writes hpurges (plan_of_gatedPlan hdecide)
    have hrows : reg'.rows = reg.rows.after plan.writes := by
      rw [show reg' = reg.apply plan from hstep, Registry.rows_apply]
    rw [hwrites, Registry.view_reader] at hrows
    refine .inr ⟨?_, fun ctx name v hcovers => ?_⟩
    · rw [hrows, Rows.after, writeAll_append]
      exact write_of_touch (if_pos rfl)
    · rw [hrows, version_after_putMode]
      rcases version_hardDeleteAll reg (m.doomed reg.reader)
        ((m.doomed reg.reader).map fun p => (p.1.subject, p.2.1)) reg.rows ctx name v with
        ⟨-, hgone⟩ | ⟨hout, hsame⟩
      · exact hgone
      · rw [hsame]
        by_contra hthere
        obtain ⟨vr, hrow⟩ := Option.ne_none_iff_exists'.mp hthere
        exact hout _
          (mem_doomed_of_covers (consistent_runAll tenant reqs) (filed_runAll srv tenant reqs)
          hcovers hrow) ⟨rfl, rfl⟩

/-- A subject whose one version is hidden goes into IMPORT without it. -/
theorem import_starts_empty_hidden :
    let reg := plainRun (renewedHistory.take 2)
    let reg' := reg.step plainServer ⟨.setMode (some "a") .«import» false, 0, "guid"⟩
    reg'.rows (.mode (scopeOf (some (.parse "a")))) = some .«import» ∧
      ∀ ctx name v, (SetMode.new (some "a") .«import» false).Covers ctx name →
        reg'.rows (.version ctx name v) = none :=
  (import_starts_empty plainServer .default (renewedHistory.take 2) (some "a") 0 "guid"
    (by decide)).resolve_left fun h =>
      absurd (congrArg (fun r : Registry => r.rows (.version "." "a" 1)) h) (by decide)

end SchemaRegistry

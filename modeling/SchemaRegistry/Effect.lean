import SchemaRegistry.Lib.Except
import SchemaRegistry.Refinement.Load

/-!
What a verb can do. `Effect` says, once and for every verb, which rows a successful
plan writes and what had to hold in the view for it to get there; `effect_of_decide`
reads it off the verbs. Everything that holds along histories is proved by going
through its cases.
-/

namespace SchemaRegistry

open Lib

/-! ### Names without NUL -/

/-- The subject or context a verb names. -/
def Verb.subject? : Verb → Option String
  | .register subject _ _ | .deleteSubject subject _ | .deleteVersion subject _ _
  | .deleteMode subject => some subject
  | .setMode subject _ _ | .setConfig subject _ | .deleteConfig subject => subject
  | .deleteContext ctx => some ctx
  | _ => none

/-- The names a verb's request carries are without NUL. -/
def Verb.NulFree (verb : Verb) : Prop := ∀ name, verb.subject? = some name → Lib.NulFree name

theorem nulFree_scopeFor {q : QualifiedSubject} (h : q.NulFree) : (scopeFor q).NulFree := by
  unfold scopeFor
  split
  · exact h.1
  · exact h

theorem nulFree_scopeOf {subject : Option String}
    (h : ∀ name, subject = some name → Lib.NulFree name) :
    (scopeOf (subject.map QualifiedSubject.parse)).NulFree := by
  cases subject with
  | none => trivial
  | some name => exact nulFree_scopeFor (nulFree_parse (h name rfl))

/-! ### What a verb's lock covers -/

/-- What a verb touches, and so the lock it takes. -/
def Verb.target : Verb → Target
  | .register subject _ _ | .deleteSubject subject _ | .deleteVersion subject _ _ =>
      .subject (QualifiedSubject.parse subject)
  | .setMode subject _ _ | .setConfig subject _ | .deleteConfig subject =>
      targetOf (subject.map QualifiedSubject.parse)
  | .deleteMode subject => targetOf (some (QualifiedSubject.parse subject))
  | .deleteContext ctx => .context ((normalizeContext ctx).getD "")
  | .createExporter _ | .restoreExporter _ | .updateExporter .. | .deleteExporter _
  | .transitionExporter .. => .exporters

theorem mutation_target {srv : Server} {verb : Verb} {m : Mutation verb.Output}
    (h : verb.mutation srv = .ok m) : m.target = verb.target := by
  cases verb with
  | register subject req normalize =>
    simp only [Verb.mutation, RegisterSchema.new] at h
    split at h
    · cases h
      rfl
    · cases h
  | deleteContext ctx =>
    simp only [Verb.mutation, DeleteContext.new] at h
    split at h
    · cases h
    · next name hname =>
        split at h
        · cases h
        · cases h
          simp [Verb.target, DeleteContext.mutation, hname]
  | _ =>
    cases h
    rfl

/-- The lock of a target excludes every other writer of the context. -/
def Target.Covers : Target → String → Prop
  | .subject q, ctx => ctx = q.context
  | .context c, ctx => ctx = c
  | .global, _ => True
  | .exporters, _ => False

/-- The settings a target may write. -/
def Target.OwnsScope (t : Target) : Scope → Prop
  | .global => t = .global
  | .context ctx | .subject ctx _ => t.Covers ctx

/-- The rows a target may write, apart from reference edges, which go wherever the
references point. -/
def Target.Owns (t : Target) : RowKey → Prop
  | .version ctx _ _ | .body ctx _ | .fingerprint ctx _ | .nextId ctx | .known ctx => t.Covers ctx
  | .refby .. => False
  | .config scope | .mode scope => t.OwnsScope scope
  | .exporter _ => t = .exporters

theorem covers_targetOf_iff {q : QualifiedSubject} {ctx : String} :
    (targetOf (some q)).Covers ctx ↔ ctx = q.context := by
  change (if q.isContextOnly then Target.context q.context else .subject q).Covers ctx ↔ _
  split <;> rfl

theorem covers_targetOf (q : QualifiedSubject) : (targetOf (some q)).Covers q.context :=
  covers_targetOf_iff.mpr rfl

theorem ownsScope_scopeFor (q : QualifiedSubject) : (targetOf (some q)).OwnsScope (scopeFor q) := by
  unfold scopeFor
  split <;> exact covers_targetOf q

theorem ownsScope_scopeOf (q : Option QualifiedSubject) : (targetOf q).OwnsScope (scopeOf q) := by
  cases q with
  | none => rfl
  | some q => exact ownsScope_scopeFor q

/-! ### Effects -/

/-- A write to a config, a mode, the known contexts or an exporter. -/
def Write.IsSetting : Write → Prop
  | .putConfig .. | .deleteConfig _ | .putMode .. | .deleteMode _ | .deleteContext _
  | .putExporter _ | .deleteExporter _ => True
  | _ => False

/-- The row of a subject that a plan may hide or remove: it is there, in the given
state, and nothing live references it. -/
def Reader.Removable (r : Reader) (q : QualifiedSubject) (deleted : Bool)
    (p : UInt32 × VersionRecord) : Prop :=
  p ∈ r.listVersions q.context q.subject ∧ p.2.deleted = deleted ∧
    liveReferrers r q.context q.subject p.1 = []

/-- A context goes only when no subject is left in it. -/
def Write.DropsEmpty (r : Reader) : Write → Prop
  | .deleteContext ctx => r.listSubjectNames ctx = []
  | _ => True

/-- The writes and events of a successful plan of a verb against a view. -/
inductive Effect (srv : Server) (view : ReadView) : Verb → List Write → List LogEvent → Prop
  /-- The answer needed no write. -/
  | silent {verb : Verb} : Effect srv view verb [] []
  | settings {verb : Verb} {ws : List Write} (hws : ∀ w ∈ ws, w.IsSetting)
      (hnul : verb.NulFree → ∀ w ∈ ws, w.NulFree)
      (hown : ∀ w ∈ ws, ∀ k ∈ w.keys, verb.target.Owns k)
      (hempty : ∀ w ∈ ws, w.DropsEmpty view.reader) : Effect srv view verb ws []
  /-- Live versions of one subject are hidden. -/
  | softDelete {verb : Verb} (q : QualifiedSubject) (rows : List (UInt32 × VersionRecord))
      (extra : List Write) (hrows : ∀ p ∈ rows, view.reader.Removable q false p)
      (hextra : ∀ w ∈ extra, w.IsSetting) (hnul : verb.NulFree → ∀ w ∈ extra, w.NulFree)
      (hq : verb.target.Covers q.context) (hown : ∀ w ∈ extra, ∀ k ∈ w.keys, verb.target.Owns k)
      (hempty : ∀ w ∈ extra, w.DropsEmpty view.reader) :
      Effect srv view verb (rows.map (fun p => softDeleteWrite q p.1 p.2) ++ extra)
        (rows.map fun p => softDeleteEvent q p.1 p.2)
  /-- Soft-deleted versions of one subject are removed. -/
  | hardDelete {verb : Verb} (q : QualifiedSubject) (rows : List (UInt32 × VersionRecord))
      (hrows : ∀ p ∈ rows, view.reader.Removable q true p)
      (hq : verb.target.Covers q.context) :
      Effect srv view verb
        (hardDeleteAll view.reader (rows.map fun p => (q, p.1, p.2))
          (rows.map fun p => (q.subject, p.1))).1
        (hardDeleteAll view.reader (rows.map fun p => (q, p.1, p.2))
          (rows.map fun p => (q.subject, p.1))).2
  /-- A scope enters IMPORT and loses the soft-deleted versions left in it. -/
  | purge {subject : Option String} {mode : Mode} {force : Bool} (m : SetMode)
      (hm : m = SetMode.new subject mode force) (hpurges : m.purges view.reader = true)
      (hrows : ∀ p ∈ m.doomed view.reader, view.reader.Removable p.1 true p.2) :
      Effect srv view (.setMode subject mode force)
        ((hardDeleteAll view.reader (m.doomed view.reader)
          ((m.doomed view.reader).map fun p => (p.1.subject, p.2.1))).1
          ++ [.putMode (scopeOf m.subject) m.mode])
        (hardDeleteAll view.reader (m.doomed view.reader)
          ((m.doomed view.reader).map fun p => (p.1.subject, p.2.1))).2
  /-- A version is stored, in place of the rows it replaces. -/
  | register {subject : String} {req : RegisterSchemaRequest} {normalize : Bool}
      (m : RegisterSchema) (hm : RegisterSchema.new subject req normalize = .ok m)
      (x : RegisterSchema.Resolved srv.fmt.Inner) (hx : m.resolve srv view = .ok (.inr x))
      (version id : UInt32)
      (hversion : RegisterSchema.chooseVersion
        (modeFor view.reader (.subject m.subject) == .«import»)
        x.draft (RegisterSchema.newVersion
          (view.reader.listVersions m.subject.context m.subject.subject)) = .ok version)
      (hid : RegisterSchema.chooseId view.reader m.subject.context x.canon.fingerprint x.schemaId
        = .ok id) :
      Effect srv view (.register subject req normalize)
        (RegisterSchema.written srv view m.subject version id x.canon)
        ((RegisterSchema.replaced view.reader m.subject version id).2
          ++ [⟨m.subject.context, m.subject.subject, version, id, .register⟩])

variable {srv : Server} {view : ReadView} {verb : Verb} {q : QualifiedSubject}

theorem checkNotReferenced_eq_ok {r : Reader} {v : UInt32} {u : Unit} :
    checkNotReferenced r q v = .ok u ↔ liveReferrers r q.context q.subject v = [] := by
  simp [checkNotReferenced]

theorem dropSettings_isSetting : ∀ w ∈ dropSettings q, w.IsSetting := by
  simp [dropSettings, Write.IsSetting]

theorem dropSettings_dropsEmpty {r : Reader} :
    ∀ w ∈ dropSettings q, w.DropsEmpty r := by
  simp [dropSettings, Write.DropsEmpty]

theorem dropSettings_nulFree (h : q.NulFree) :
    ∀ w ∈ dropSettings q, w.NulFree := by
  rintro w hw
  rcases List.mem_pair.mp hw with rfl | rfl
  · exact h
  · exact h

theorem dropSettings_owned {t : Target} (h : t.Covers q.context) :
    ∀ w ∈ dropSettings q, ∀ k ∈ w.keys, t.Owns k := by
  rintro w hw k hk
  rcases List.mem_pair.mp hw with rfl | rfl
  · obtain rfl := List.mem_singleton.mp hk
    exact h
  · obtain rfl := List.mem_singleton.mp hk
    exact h

/-- A plan that writes one setting. -/
theorem effect_setting {w : Write} (hw : w.IsSetting) (hnul : verb.NulFree → w.NulFree)
    (hown : ∀ k ∈ w.keys, verb.target.Owns k) (hempty : w.DropsEmpty view.reader) :
    Effect srv view verb [w] [] :=
  .settings (List.forall_mem_singleton.mpr hw) (fun hv => List.forall_mem_singleton.mpr (hnul hv))
    (List.forall_mem_singleton.mpr hown) (List.forall_mem_singleton.mpr hempty)

theorem effect_deleteSubject {m : DeleteSubject} {plan : Plan (List UInt32)}
    (hq : verb.NulFree → m.subject.NulFree) (ht : verb.target.Covers m.subject.context)
    (h : m.plan view = .ok plan) : Effect srv view verb plan.writes plan.events := by
  simp only [DeleteSubject.plan, error_bind, ite_error_eq_ok, bind_eq_ok, forM_eq_ok,
    checkNotReferenced_eq_ok] at h
  obtain ⟨-, -, -, hall, h⟩ := h
  cases hp : m.permanent with
  | true =>
    simp only [hp, if_true, Except.ok.injEq] at h
    subst h
    refine .hardDelete m.subject _ (fun p hmem => ?_) ht
    obtain ⟨-, href, hdel, -⟩ := hall p (by simpa [hp] using hmem)
    exact ⟨(List.mem_filter.mp hmem).1, by simpa [hp] using hdel, href⟩
  | false =>
    simp only [hp, Bool.false_eq_true, if_false, Except.ok.injEq] at h
    subst h
    refine .softDelete m.subject _ _ (fun p hmem => ?_) dropSettings_isSetting
      (fun hv => dropSettings_nulFree (hq hv)) ht (dropSettings_owned ht) dropSettings_dropsEmpty
    obtain ⟨-, href, -⟩ := hall p (by simpa [hp] using hmem)
    exact ⟨(List.mem_filter.mp hmem).1, by simpa using (List.mem_filter.mp hmem).2, href⟩

theorem stillUsed_self (r : Reader) (q : QualifiedSubject) (version id : UInt32) :
    stillUsed r q version id [(q.subject, version)] = stillUsed r q version id [] := by
  unfold stillUsed
  congr 1
  funext ⟨s, v⟩
  have hmem : (s, v) ∈ [(q.subject, version)] ↔ s = q.subject ∧ v = version := by simp
  by_cases hs : s = q.subject <;> by_cases hv : v = version <;> simp only [hmem] <;> simp [hs, hv]

theorem mem_of_getExact {r : Reader} {spec : VersionSpec} {deleted : Bool}
    {p : UInt32 × VersionRecord} (h : getExact r q spec deleted = some p) :
    p ∈ r.listVersions q.context q.subject := by
  cases spec with
  | latest => exact List.mem_reverse.mp (List.mem_of_find?_eq_some h)
  | exact n => exact List.mem_of_find?_eq_some h

/-- A row found under a selector is live when the selector also finds a live row. -/
theorem live_of_getExact {r : Reader} {spec : VersionSpec}
    {p : UInt32 × VersionRecord} (h : getExact r q spec true = some p)
    (hlive : (getExact r q spec false).isSome = true) : p.2.deleted = false := by
  cases spec with
  | latest => simpa using List.find?_some h
  | exact n =>
    obtain ⟨p', hp'⟩ := Option.isSome_iff_exists.mp hlive
    have hn : p.1 = n := by simpa using List.find?_some h
    have hn' : p'.1 = n ∧ p'.2.deleted = false := by simpa using List.find?_some hp'
    have hrow := Snapshot.mem_listVersions.mp (mem_of_getExact h)
    have hrow' := Snapshot.mem_listVersions.mp (mem_of_getExact hp')
    rw [hn] at hrow
    rw [hn'.1, hrow, Option.some.injEq] at hrow'
    rw [hrow']
    exact hn'.2

/-- The row a version delete works on; a soft delete only finds a live one. -/
theorem find_spec {m : DeleteSubjectVersion} {r : Reader} {p : UInt32 × VersionRecord}
    (h : m.find r = .ok p) : p ∈ r.listVersions m.subject.context m.subject.subject ∧
      (m.permanent = false → p.2.deleted = false) := by
  unfold DeleteSubjectVersion.find at h
  cases hrow : getExact r m.subject m.spec true with
  | none => simp [hrow] at h
  | some p' =>
    simp only [hrow, ite_error_eq_ok] at h
    obtain ⟨hsoft, h⟩ := h
    obtain rfl : p' = p := by simpa using h
    refine ⟨mem_of_getExact hrow, fun hp => live_of_getExact hrow ?_⟩
    simpa [hp, Option.isSome_iff_ne_none] using hsoft

theorem effect_deleteVersion {m : DeleteSubjectVersion} {plan : Plan UInt32}
    (hq : verb.NulFree → m.subject.NulFree) (ht : verb.target.Covers m.subject.context)
    (h : m.plan view = .ok plan) : Effect srv view verb plan.writes plan.events := by
  simp only [DeleteSubjectVersion.plan, error_bind, ite_error_eq_ok, bind_eq_ok,
    checkNotReferenced_eq_ok] at h
  obtain ⟨⟨version, vr⟩, hfind, -, href, hdel, h⟩ := h
  obtain ⟨hmem, hlive⟩ := find_spec hfind
  cases hp : m.permanent with
  | true =>
    simp only [hp, if_true, Except.ok.injEq] at h
    subst h
    have hrow : view.reader.Removable m.subject true (version, vr) :=
      ⟨hmem, by simpa [hp] using hdel, href⟩
    have heff : Effect srv view verb _ _ :=
      .hardDelete m.subject [(version, vr)] (by simpa using hrow) ht
    simpa [hardDeleteAll, hardDeleteWrites, stillUsed_self] using heff
  | false =>
    simp only [hp, Bool.false_eq_true, if_false, Except.ok.injEq] at h
    subst h
    have hextra : ∀ liveLeft : Bool, ∀ w ∈ if liveLeft = true then [] else dropSettings m.subject,
        w ∈ dropSettings m.subject := by
      rintro (_ | _) <;> simp
    refine .softDelete m.subject [(version, vr)] _ (fun p hp' => ?_)
      (fun w hw => dropSettings_isSetting w (hextra _ w hw))
      (fun hv w hw => dropSettings_nulFree (hq hv) w (hextra _ w hw)) ht
      (fun w hw => dropSettings_owned ht w (hextra _ w hw))
      fun w hw => dropSettings_dropsEmpty w (hextra _ w hw)
    obtain rfl := List.mem_singleton.mp hp'
    exact ⟨hmem, hlive hp, href⟩

theorem anyVersion_eq_false {vs : List (UInt32 × VersionRecord)} :
    anyVersion false vs = false ↔ ∀ p ∈ vs, p.2.deleted = true := by
  simp [anyVersion]

/-- When no subject in scope is live, every row in scope is soft-deleted. -/
theorem doomed_spec {m : SetMode} {r : Reader} (h : m.hasLive r = false)
    {p : QualifiedSubject × UInt32 × VersionRecord} (hp : p ∈ m.doomed r) :
    p.2 ∈ r.listVersions p.1.context p.1.subject ∧ p.2.2.deleted = true := by
  simp only [SetMode.doomed, List.mem_flatMap, List.mem_map] at hp
  obtain ⟨sq, hsq, row, hrow, rfl⟩ := hp
  refine ⟨hrow, ?_⟩
  unfold SetMode.hasLive at h
  unfold SetMode.subjectsInScope at hsq
  cases hm : m.subject with
  | none =>
    simp only [hm, hasAnySubject, List.mem_flatMap, List.mem_map, List.any_eq_false,
      Bool.not_eq_true, anyVersion_eq_false] at h hsq
    obtain ⟨ctx, hctx, name, hname, rfl⟩ := hsq
    exact h ctx hctx name hname row hrow
  | some q =>
    simp only [hm, hasSubjects, Bool.or_eq_false_iff, anyVersion_eq_false] at h hsq
    cases hq : q.isContextOnly with
    | true =>
      simp only [hq, if_true, List.mem_map, Bool.true_and, List.any_eq_false,
        Bool.not_eq_true, anyVersion_eq_false] at h hsq
      obtain ⟨name, hname, rfl⟩ := hsq
      exact h.2 name hname row hrow
    | false =>
      simp only [hq, Bool.false_eq_true, if_false, List.mem_singleton] at hsq
      subst hsq
      exact h.1 row hrow

theorem effect_setMode {subject : Option String} {mode : Mode} {force : Bool} {m : SetMode}
    (hm : m = SetMode.new subject mode force) {plan : Plan Unit} (h : m.plan view = .ok plan) :
    Effect srv view (.setMode subject mode force) plan.writes plan.events := by
  unfold SetMode.plan at h
  by_cases hpurges : m.purges view.reader = true
  · simp only [hpurges, if_true, error_bind, ite_error_eq_ok, bind_eq_ok, forM_eq_ok,
      checkNotReferenced_eq_ok, Except.ok.injEq] at h
    obtain ⟨hlive, -, href, gone, rfl, rfl⟩ := h
    refine .purge m hm hpurges fun p hp => ?_
    obtain ⟨hmem, hdel⟩ := doomed_spec (by simpa using hlive) hp
    exact ⟨hmem, hdel, href p hp⟩
  · rw [if_neg hpurges, bind_eq_ok] at h
    obtain ⟨gone, hgone, h⟩ := h
    cases hgone
    cases h
    subst hm
    exact effect_setting trivial (fun hv => nulFree_scopeOf hv)
      (List.forall_mem_singleton.mpr (ownsScope_scopeOf (subject.map QualifiedSubject.parse)))
        trivial

/-- A registration that succeeds answers from what is there, or stores a version. -/
theorem registerPlan_cases {m : RegisterSchema} {plan : Plan RegisterResponse}
    (h : m.plan srv view = .ok plan) :
    (∃ out, m.resolve srv view = .ok (.inl out) ∧ plan = { output := out }) ∨
      ∃ x version id, m.resolve srv view = .ok (.inr x) ∧
        RegisterSchema.chooseVersion (modeFor view.reader (.subject m.subject) == .«import»)
          x.draft (RegisterSchema.newVersion
            (view.reader.listVersions m.subject.context m.subject.subject)) = .ok version ∧
        RegisterSchema.chooseId view.reader m.subject.context x.canon.fingerprint x.schemaId
          = .ok id ∧
        plan =
          { writes := RegisterSchema.written srv view m.subject version id x.canon
            events := (RegisterSchema.replaced view.reader m.subject version id).2
              ++ [⟨m.subject.context, m.subject.subject, version, id, .register⟩]
            output :=
              RegisterSchema.answer x.modified (.fromCanon m.subject version id x.canon) } := by
  unfold RegisterSchema.plan at h
  rw [bind_eq_ok] at h
  obtain ⟨res, hres, h⟩ := h
  cases res with
  | inl out =>
    cases h
    exact .inl ⟨out, hres, rfl⟩
  | inr x =>
    dsimp only at h
    split at h
    · simp only [bind_eq_ok, Except.ok.injEq] at h
      obtain ⟨-, -, version, hversion, id, hid, rfl⟩ := h
      exact .inr ⟨x, version, id, hres, hversion, hid, rfl⟩
    · simp only [bind_eq_ok, Except.ok.injEq] at h
      obtain ⟨version, hversion, id, hid, rfl⟩ := h
      exact .inr ⟨x, version, id, hres, hversion, hid, rfl⟩

theorem effect_register {subject : String} {req : RegisterSchemaRequest} {normalize : Bool}
    {m : RegisterSchema} (hm : RegisterSchema.new subject req normalize = .ok m)
    {plan : Plan RegisterResponse} (h : m.plan srv view = .ok plan) :
    Effect srv view (.register subject req normalize) plan.writes plan.events := by
  rcases registerPlan_cases h with ⟨out, -, rfl⟩ | ⟨x, version, id, hx, hversion, hid, rfl⟩
  · exact .silent
  · exact .register m hm x hx version id hversion hid

/-- An exporter verb writes at most exporter records. -/
theorem effect_exporterPlan (ht : verb.target = .exporters) (rec : ExporterRecord) :
    Effect srv view verb (exporterPlan rec).writes (exporterPlan rec).events :=
  effect_setting trivial (fun _ => trivial) (by simp [Write.keys, ht, Target.Owns]) trivial

theorem effect_createExporter (ht : verb.target = .exporters)
    {req : ExporterUpdateRequest} {plan : Plan String}
    (h : (createExporter req).plan view = .ok plan) :
    Effect srv view verb plan.writes plan.events := by
  simp only [createExporter, exporterMutation, error_bind, ite_error_eq_ok, bind_eq_ok,
    Except.ok.injEq] at h
  obtain ⟨-, -, -, rfl⟩ := h
  exact effect_exporterPlan ht _

theorem effect_restoreExporter (ht : verb.target = .exporters) {rec : ExporterRecord}
    {plan : Plan Bool}
    (h : (restoreExporter rec).plan view = .ok plan) :
    Effect srv view verb plan.writes plan.events := by
  simp only [restoreExporter, exporterMutation] at h
  split at h
  · cases h
    exact .silent
  · obtain ⟨-, -, h⟩ := bind_eq_ok.mp h
    cases h
    exact effect_setting trivial (fun _ => trivial) (by simp [Write.keys, ht, Target.Owns]) trivial

theorem effect_updateExporter (ht : verb.target = .exporters) {name : String}
    {req : ExporterUpdateRequest}
    {plan : Plan String} (h : (updateExporter name req).plan view = .ok plan) :
    Effect srv view verb plan.writes plan.events := by
  simp only [updateExporter, exporterMutation, bind_eq_ok, Except.ok.injEq] at h
  obtain ⟨stored, -, -, -, rfl⟩ := h
  exact effect_exporterPlan ht _

theorem effect_deleteExporter (ht : verb.target = .exporters) {name : String} {plan : Plan Unit}
    (h : (deleteExporter name).plan view = .ok plan) :
    Effect srv view verb plan.writes plan.events := by
  simp only [deleteExporter, exporterMutation, bind_eq_ok, Except.ok.injEq] at h
  obtain ⟨stored, -, rfl⟩ := h
  exact effect_setting trivial (fun _ => trivial) (by simp [Write.keys, ht, Target.Owns]) trivial

theorem effect_transitionExporter (ht : verb.target = .exporters) {name : String}
    {action : ExporterAction}
    {plan : Plan String} (h : (transitionExporter name action).plan view = .ok plan) :
    Effect srv view verb plan.writes plan.events := by
  simp only [transitionExporter, exporterMutation, bind_eq_ok, Except.ok.injEq] at h
  obtain ⟨stored, -, moved, -, rfl⟩ := h
  exact effect_exporterPlan ht _

/-- What `gatedPlan` lets through is the verb's own plan. -/
theorem plan_of_gatedPlan {α : Type} {m : Mutation α} {plan : Plan α}
    (h : m.gatedPlan view = .ok plan) : m.plan view = .ok plan := by
  unfold Mutation.gatedPlan at h
  split at h
  · exact (bind_eq_ok.mp h).choose_spec.2
  · simp only [bind_eq_ok] at h
    obtain ⟨plan', hplan, -, -, h⟩ := h
    cases h
    exact hplan

theorem plan_of_decide {α : Type} {m : Mutation α} {plan : Plan α} (h : m.decide view = .ok plan) :
    (plan.writes = [] ∧ plan.events = []) ∨ m.plan view = .ok plan := by
  obtain ⟨fast, -, h⟩ := bind_eq_ok.mp h
  cases fast with
  | some out =>
    cases h
    exact .inl ⟨rfl, rfl⟩
  | none => exact .inr (plan_of_gatedPlan h)

theorem effect_setConfig {subject : Option String} {update : ConfigRecord} {plan : Plan Unit}
    (h : (UpdateCompatibility.new subject update).plan view = .ok plan) :
    Effect srv view (.setConfig subject update) plan.writes plan.events := by
  rw [UpdateCompatibility.plan, Except.ok.injEq] at h
  subst h
  exact effect_setting trivial (fun hv => nulFree_scopeOf hv)
    (List.forall_mem_singleton.mpr (ownsScope_scopeOf (subject.map QualifiedSubject.parse))) trivial

theorem nulFree_deleteContext {ctx : String} {m : DeleteContext} (h : DeleteContext.new ctx = .ok m)
    (hctx : Lib.NulFree ctx) : Lib.NulFree m.ctx := by
  unfold DeleteContext.new at h
  split at h
  · cases h
  · next name hname =>
      simp only [ite_error_eq_ok] at h
      cases h.2
      exact nulFree_normalizeContext hname hctx

theorem target_deleteContext {ctx : String} {m : DeleteContext}
    (h : DeleteContext.new ctx = .ok m) :
    (Verb.deleteContext ctx).target.Covers m.ctx := by
  unfold DeleteContext.new at h
  split at h
  · cases h
  · next name hname =>
      simp only [ite_error_eq_ok] at h
      cases h.2
      simp [Verb.target, Target.Covers, hname]

theorem effect_of_plan {m : Mutation verb.Output} (hm : verb.mutation srv = .ok m)
    {plan : Plan verb.Output} (h : m.plan view = .ok plan) :
    Effect srv view verb plan.writes plan.events := by
  cases verb with
  | register subject req normalize =>
    obtain ⟨rs, hnew, rfl⟩ := map_eq_ok.mp hm
    exact effect_register hnew h
  | deleteSubject subject permanent =>
    cases hm
    exact effect_deleteSubject (m := .new subject permanent)
      (fun hv => nulFree_parse (hv subject rfl)) rfl h
  | deleteVersion subject spec permanent =>
    cases hm
    exact effect_deleteVersion (m := .new subject spec permanent)
      (fun hv => nulFree_parse (hv subject rfl)) rfl h
  | setMode subject mode force =>
    cases hm
    exact effect_setMode rfl h
  | deleteMode subject =>
    cases hm
    simp only [DeleteMode.mutation, DeleteMode.plan] at h
    split at h
    · cases h
    · cases h
      exact effect_setting trivial (fun hv => nulFree_scopeFor (nulFree_parse (hv subject rfl)))
        (List.forall_mem_singleton.mpr (ownsScope_scopeFor (QualifiedSubject.parse subject)))
          trivial
  | setConfig subject update =>
    cases hm
    exact effect_setConfig h
  | deleteConfig subject =>
    cases hm
    simp only [DeleteSubjectConfig.mutation, DeleteSubjectConfig.plan] at h
    split at h
    · cases h
      exact effect_setting trivial (fun hv => nulFree_scopeOf hv)
        (List.forall_mem_singleton.mpr (ownsScope_scopeOf (subject.map QualifiedSubject.parse)))
          trivial
    · cases h
    · cases h
  | deleteContext ctx =>
    obtain ⟨dc, hnew, rfl⟩ := map_eq_ok.mp hm
    simp only [DeleteContext.mutation, DeleteContext.plan] at h
    split at h
    · next hempty =>
        cases h
        have hctx : (Verb.deleteContext ctx).target.Covers dc.ctx :=
          target_deleteContext hnew
        refine .settings (by simp [Write.IsSetting]) (fun hv => ?_)
          (by simpa [Write.keys, Target.Owns, Target.OwnsScope] using hctx)
          (by simpa [Write.DropsEmpty] using hempty)
        simpa [Write.NulFree, Scope.NulFree] using nulFree_deleteContext hnew (hv ctx rfl)
    · cases h
  | createExporter req =>
    cases hm
    exact effect_createExporter rfl h
  | restoreExporter rec =>
    cases hm
    exact effect_restoreExporter rfl h
  | updateExporter name req =>
    cases hm
    exact effect_updateExporter rfl h
  | deleteExporter name =>
    cases hm
    exact effect_deleteExporter rfl h
  | transitionExporter name action =>
    cases hm
    exact effect_transitionExporter rfl h

/-- Every plan of every verb is one of the effects. -/
theorem effect_of_decide {plan : Plan verb.Output}
    (h : verb.decide srv view = .ok plan) : Effect srv view verb plan.writes plan.events := by
  obtain ⟨m, hm, hdecide⟩ := bind_eq_ok.mp h
  rcases plan_of_decide hdecide with ⟨hws, hevs⟩ | hplan
  · rw [hws, hevs]
    exact .silent
  · exact effect_of_plan hm hplan

end SchemaRegistry

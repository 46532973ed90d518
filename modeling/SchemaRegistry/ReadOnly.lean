import SchemaRegistry.Footprint

/-!
What the mode table protects. A verb other than a change of mode or the removal of a context
writes version rows of the subject its request names and the config of the scope it names,
and no others; the mode checked before the write is the one in scope for that same name. So a
subject whose mode is read-only keeps its versions and its config, and an id chosen by the
caller is stored in IMPORT only.
-/

namespace SchemaRegistry

open Lib

variable {srv : Server} {view : ReadView} {verb : Verb} {q : QualifiedSubject}

/-! ### What a verb is about -/

/-- The subject or context a request names, none for the registry as a whole. -/
def Verb.about (verb : Verb) : Option QualifiedSubject := verb.subject?.map QualifiedSubject.parse

/-- Neither a change of a mode nor the removal of a context. -/
def Verb.KeepsModes : Verb → Prop
  | .setMode .. | .deleteMode _ | .deleteContext _ => False
  | _ => True

/-- Of the version rows and configs, only those of one subject or scope. -/
def RowKey.BelongsTo (about : Option QualifiedSubject) : RowKey → Prop
  | .version ctx subject _ => about = some ⟨ctx, subject⟩
  | .config scope =>
      scope = scopeOf about ∨ ∃ q, about = some q ∧ scope = .subject q.context q.subject
  | _ => True

theorem HardDeletes.belongs {r : Reader} {also : List (String × UInt32)} {v : UInt32}
    {vr : VersionRecord} {w : Write} (h : HardDeletes r also q v vr w) {k : RowKey}
    (hk : k ∈ w.keys) : k.BelongsTo (some q) := by
  cases h with
  | version | refby | body =>
    obtain rfl := List.mem_singleton.mp hk
    trivial

theorem belongs_dropSettings {w : Write} (hw : w ∈ dropSettings q) {k : RowKey} (hk : k ∈ w.keys) :
    k.BelongsTo (some q) := by
  rcases List.mem_pair.mp hw with rfl | rfl
  · obtain rfl := List.mem_singleton.mp hk
    trivial
  · obtain rfl := List.mem_singleton.mp hk
    exact .inr ⟨q, rfl, rfl⟩

theorem belongs_softDeleteWrite {v : UInt32} {vr : VersionRecord} {k : RowKey}
    (hk : k ∈ (softDeleteWrite q v vr).keys) : k.BelongsTo (some q) := by
  rcases List.mem_pair.mp hk with rfl | rfl <;> trivial

theorem belongs_deleteSubject {m : DeleteSubject} {plan : Plan (List UInt32)}
    (h : m.plan view = .ok plan) {w : Write} (hw : w ∈ plan.writes) {k : RowKey} (hk : k ∈ w.keys) :
    k.BelongsTo (some m.subject) := by
  simp only [DeleteSubject.plan, error_bind, ite_error_eq_ok, bind_eq_ok] at h
  obtain ⟨-, -, -, -, h⟩ := h
  split at h
  · cases h
    obtain ⟨row, hrow, hdel⟩ := mem_hardDeleteAll.mp hw
    obtain ⟨p, -, rfl⟩ := List.mem_map.mp hrow
    exact hdel.belongs hk
  · cases h
    rcases List.mem_append.mp hw with hw | hw
    · obtain ⟨p, -, rfl⟩ := List.mem_map.mp hw
      exact belongs_softDeleteWrite hk
    · exact belongs_dropSettings hw hk

theorem belongs_deleteVersion {m : DeleteSubjectVersion} {plan : Plan UInt32}
    (h : m.plan view = .ok plan) {w : Write} (hw : w ∈ plan.writes) {k : RowKey} (hk : k ∈ w.keys) :
    k.BelongsTo (some m.subject) := by
  simp only [DeleteSubjectVersion.plan, error_bind, ite_error_eq_ok, bind_eq_ok] at h
  obtain ⟨⟨version, vr⟩, -, -, -, -, h⟩ := h
  split at h
  · cases h
    exact (mem_hardDeleteWrites.mp hw).belongs hk
  · cases h
    rcases List.mem_cons.mp hw with rfl | hw
    · exact belongs_softDeleteWrite hk
    · split at hw
      · cases hw
      · exact belongs_dropSettings hw hk

theorem belongs_register {m : RegisterSchema} {plan : Plan RegisterResponse}
    (h : m.plan srv view = .ok plan) {w : Write} (hw : w ∈ plan.writes) {k : RowKey}
    (hk : k ∈ w.keys) : k.BelongsTo (some m.subject) := by
  rcases registerPlan_cases h with ⟨out, -, rfl⟩ | ⟨x, version, id, -, -, -, rfl⟩
  · cases hw
  · rcases List.mem_append.mp hw with hw | hw
    · rcases mem_replaced.mp hw with ⟨vr, -, hdel⟩ | ⟨p, -, -, -, -, hdel⟩
      · exact hdel.belongs hk
      · exact hdel.belongs hk
    · cases mem_added.mp hw with
      | body | version => rcases List.mem_pair.mp hk with rfl | rfl <;> trivial
      | next | refby =>
        obtain rfl := List.mem_singleton.mp hk
        trivial

/-- The writes of an exporter verb reach exporter records only. -/
theorem Effect.belongs_exporters {ws : List Write} {evs : List LogEvent}
    (h : Effect srv view verb ws evs) (ht : verb.target = .exporters) {w : Write} (hw : w ∈ ws)
    {k : RowKey} (hk : k ∈ w.keys) (about : Option QualifiedSubject) : k.BelongsTo about := by
  rcases h.owned hw hk with hown | hedge
  · rw [ht] at hown
    cases k with
    | config scope => cases scope <;> cases hown
    | version => cases hown
    | _ => trivial
  · cases k with
    | refby => trivial
    | _ => cases hedge

/-- A verb writes the versions and the config of what its request names. -/
theorem belongs_of_plan (hkeeps : verb.KeepsModes) {m : Mutation verb.Output}
    (hm : verb.mutation srv = .ok m) {plan : Plan verb.Output} (h : m.plan view = .ok plan)
    {w : Write} (hw : w ∈ plan.writes) {k : RowKey} (hk : k ∈ w.keys) : k.BelongsTo verb.about := by
  cases verb with
  | register subject req normalize =>
    obtain ⟨rs, hnew, rfl⟩ := map_eq_ok.mp hm
    have hbelongs := belongs_register h hw hk
    rwa [subject_of_new hnew] at hbelongs
  | deleteSubject subject permanent =>
    cases hm
    exact belongs_deleteSubject h hw hk
  | deleteVersion subject spec permanent =>
    cases hm
    exact belongs_deleteVersion h hw hk
  | setConfig subject update =>
    cases hm
    cases h
    obtain rfl := List.mem_singleton.mp hw
    obtain rfl := List.mem_singleton.mp hk
    exact .inl rfl
  | deleteConfig subject =>
    cases hm
    simp only [DeleteSubjectConfig.mutation, DeleteSubjectConfig.plan] at h
    split at h <;> cases h
    obtain rfl := List.mem_singleton.mp hw
    obtain rfl := List.mem_singleton.mp hk
    exact .inl rfl
  | setMode | deleteMode | deleteContext => exact hkeeps.elim
  | _ => exact (effect_of_plan hm h).belongs_exporters rfl hw hk _

/-! ### What the mode table refuses -/

def Mode.IsReadOnly : Mode → Prop
  | .readonly | .readonlyOverride => True
  | _ => False

/-- An intent the mode table looks at the mode for. -/
def Intent.IsGated : Intent → Prop
  | .write | .«import» | .modify => True
  | _ => False

theorem not_readOnly_of_modegateCheck {intent : Intent} {mode : Mode} {scope : String} {u : Unit}
    (h : modegateCheck intent mode scope = .ok u) (hintent : intent.IsGated) :
    ¬ mode.IsReadOnly := by
  intro hmode
  cases mode <;> first | exact hmode.elim | (cases intent <;> first | exact hintent.elim | cases h)

theorem import_of_modegateCheck {mode : Mode} {scope : String} {u : Unit}
    (h : modegateCheck .«import» mode scope = .ok u) : mode = .«import» := by
  cases mode <;> first | rfl | cases h

/-- What a gated plan writes was allowed by the mode table. -/
theorem modegateCheck_of_gatedPlan {α : Type} {m : Mutation α} {plan : Plan α}
    (h : m.gatedPlan view = .ok plan) :
    ∃ u, modegateCheck m.intent (modeFor view.reader m.target) m.target.scopeName = .ok u := by
  unfold Mutation.gatedPlan at h
  split at h
  · obtain ⟨u, hu, -⟩ := bind_eq_ok.mp h
    exact ⟨u, hu⟩
  · simp only [bind_eq_ok] at h
    obtain ⟨-, -, u, hu, -⟩ := h
    exact ⟨u, hu⟩

/-- A step writes nothing, or what a plan says that the mode table allowed. -/
theorem Registry.step_gated (srv : Server) (reg : Registry) (req : Request) :
    (reg.step srv req).rows = reg.rows ∨
      ∃ (m : Mutation req.verb.Output) (plan : Plan _) (u : Unit),
      req.verb.mutation srv = .ok m ∧
      modegateCheck m.intent (modeFor reg.reader m.target) m.target.scopeName = .ok u ∧
      m.plan (reg.view req.now req.newGuid) = .ok plan ∧
      (reg.step srv req).rows = reg.rows.after plan.writes := by
  rcases step_cases srv reg req with hstep | ⟨plan, hplan, hstep⟩
  · exact .inl (congrArg rows hstep)
  · obtain ⟨m, hm, hdecide⟩ := bind_eq_ok.mp hplan
    obtain ⟨fast, -, hdecide⟩ := bind_eq_ok.mp hdecide
    rw [hstep, rows_apply]
    cases fast with
    | some out =>
      cases hdecide
      exact .inl rfl
    | none =>
      obtain ⟨u, hu⟩ := modegateCheck_of_gatedPlan hdecide
      exact .inr ⟨m, plan, u, hm, hu, plan_of_gatedPlan hdecide, rfl⟩

theorem modeFor_targetOf (r : Reader) (q : QualifiedSubject) :
    modeFor r (targetOf (some q)) = modeInScope r q := by
  obtain ⟨ctx, subject⟩ := q
  by_cases h : subject = ""
  · subst h
    rfl
  · simp [targetOf, modeFor, QualifiedSubject.isContextOnly, h]

/-- The mode a verb is checked against is the one in scope for what its request names. -/
theorem gated_of_about (hkeeps : verb.KeepsModes) (habout : verb.about = some q)
    {m : Mutation verb.Output} (hm : verb.mutation srv = .ok m) (r : Reader) :
    m.intent.IsGated ∧ modeFor r m.target = modeInScope r q := by
  rw [mutation_target hm]
  cases verb with
  | register subject req normalize =>
    cases habout
    obtain ⟨rs, hnew, rfl⟩ := map_eq_ok.mp hm
    refine ⟨?_, rfl⟩
    simp only [RegisterSchema.mutation]
    split <;> trivial
  | deleteSubject | deleteVersion =>
    cases hm
    cases habout
    exact ⟨trivial, rfl⟩
  | setConfig subject | deleteConfig subject =>
    cases hm
    obtain ⟨name, rfl, rfl⟩ := Option.map_eq_some_iff.mp habout
    exact ⟨trivial, modeFor_targetOf r _⟩
  | setMode | deleteMode | deleteContext => exact hkeeps.elim
  | _ => cases habout

/-! ### Subjects keep their versions and their config -/

theorem scopeFor_injective : Function.Injective scopeFor := by
  rintro ⟨ctx, subject⟩ ⟨ctx', subject'⟩ h
  simp only [scopeFor, QualifiedSubject.isContextOnly, String.isEmpty_iff] at h
  split at h <;> split at h <;> simp_all

theorem about_of_config {about : Option QualifiedSubject}
    (h : RowKey.BelongsTo about (.config (scopeFor q))) : about = some q := by
  rcases h with h | ⟨q', rfl, h⟩
  · cases about with
    | none =>
      simp only [scopeOf, scopeFor] at h
      split at h <;> cases h
    | some q' => rw [scopeFor_injective h]
  · obtain ⟨ctx, subject⟩ := q
    obtain ⟨ctx', subject'⟩ := q'
    simp only [scopeFor] at h
    split at h <;> cases h
    rfl

/-- A verb that keeps modes leaves every row of a read-only subject that belongs to the
subject alone. -/
theorem Registry.rows_step_of_readOnly {reg : Registry} {req : Request}
    (hmode : (modeInScope reg.reader q).IsReadOnly) (hkeeps : req.verb.KeepsModes) {k : RowKey}
    (hk : ∀ about, k.BelongsTo about → about = some q) :
    (reg.step srv req).rows k = reg.rows k := by
  rcases step_gated srv reg req with hsame | ⟨m, plan, u, hm, hgate, hplan, hrows⟩
  · rw [hsame]
  · rw [hrows]
    refine writeAll_of_untouched fun w hw => Write.touch_eq_none fun hkw => ?_
    have habout : req.verb.about = some q := hk _ (belongs_of_plan hkeeps hm hplan hw hkw)
    obtain ⟨hgated, hscope⟩ := gated_of_about hkeeps habout hm reg.reader
    rw [hscope] at hgate
    exact not_readOnly_of_modegateCheck hgate hgated hmode

/-- A registration with an id of its own is an import. -/
theorem intent_of_id {subject : String} {r : RegisterSchemaRequest} {normalize : Bool} {id : Int32}
    (hid : r.id = some id) (hpos : 0 ≤ id) {m : Mutation RegisterResponse}
    (hm : (Verb.register subject r normalize).mutation srv = .ok m) : m.intent = .«import» := by
  obtain ⟨rs, hnew, rfl⟩ := map_eq_ok.mp hm
  have hdraft : rs.draft.id = id := by
    rw [draft_eq_of_new hnew]
    simp [Draft.ofRequest, hid]
  simp [RegisterSchema.mutation, hdraft, hpos]

/-- In a read-only scope no verb but a change of a mode or the removal of a context changes a
subject's versions or its config, and a registration with an id of its own, not negative,
changes nothing outside IMPORT. -/
theorem Registry.readOnly_freezes_and_ids_need_import (srv : Server) (reg : Registry)
    (req : Request) :
    (∀ q, (modeInScope reg.reader q).IsReadOnly → req.verb.KeepsModes →
      (∀ v, (reg.step srv req).rows (.version q.context q.subject v)
        = reg.rows (.version q.context q.subject v))
      ∧ (reg.step srv req).rows (.config (scopeFor q)) = reg.rows (.config (scopeFor q)))
    ∧ ∀ subject r normalize id, req.verb = .register subject r normalize → r.id = some id → 0 ≤ id →
        (reg.step srv req).rows ≠ reg.rows →
        modeInScope reg.reader (QualifiedSubject.parse subject) = .«import» := by
  constructor
  · intro q hmode hkeeps
    constructor
    · intro v
      exact rows_step_of_readOnly hmode hkeeps fun about habout => habout
    · exact rows_step_of_readOnly hmode hkeeps fun about habout => about_of_config habout
  · intro subject r normalize id hverb hid hpos hchanged
    obtain ⟨verb, now, guid⟩ := req
    cases hverb
    rcases step_gated srv reg ⟨.register subject r normalize, now, guid⟩ with
      hsame | ⟨m, plan, u, hm, hgate, -, -⟩
    · exact (hchanged hsame).elim
    · rw [mutation_target hm, intent_of_id hid hpos hm] at hgate
      exact import_of_modegateCheck hgate

/-- A container with one version of `orders`, made read-only. -/
def lockedOrders : Registry :=
  plainRun
    [registerText "orders" "\"int\"", plainRequest (.setMode (some "orders") .readonly false)]

/-- A container that takes imports. -/
def importing : Registry :=
  plainRun [plainRequest (.setMode none .«import» false)]

/-- Register a text under an id of the caller's. -/
def registerUnder (subject text : String) (id : Int32) : Request :=
  plainRequest (.register subject { schema := some text, id := some id } false)

/-- A delete leaves the locked version in place; an import under id 7 is stored in IMPORT. -/
theorem Registry.readOnly_freezes_lockedOrders :
    (modeInScope lockedOrders.reader ⟨".", "orders"⟩).IsReadOnly
    ∧ (lockedOrders.step plainServer (plainRequest (.deleteSubject "orders" false))).rows
        (.version "." "orders" 1) = some ⟨1, false, 0⟩
    ∧ modeInScope importing.reader (QualifiedSubject.parse "orders") = .«import» := by
  have hmode : modeInScope lockedOrders.reader ⟨".", "orders"⟩ = .readonly := by decide
  have hread : (modeInScope lockedOrders.reader ⟨".", "orders"⟩).IsReadOnly := by
    rw [hmode]
    trivial
  have hrow : lockedOrders.rows (.version "." "orders" 1) = some ⟨1, false, 0⟩ := by decide
  have hstored : (importing.step plainServer (registerUnder "orders" "\"int\"" 7)).rows
      (.version "." "orders" 1) ≠ importing.rows (.version "." "orders" 1) := by decide
  refine ⟨hread, ?_, ?_⟩
  · have hkept := ((readOnly_freezes_and_ids_need_import plainServer lockedOrders
      (plainRequest (.deleteSubject "orders" false))).1 _ hread trivial).1 1
    exact hkept.trans hrow
  · exact (readOnly_freezes_and_ids_need_import plainServer importing _).2 "orders" _ _ 7 rfl rfl
      (by decide) fun hsame => hstored (congrFun hsame _)

/-- An id below zero counts as none: the registration is stored in READWRITE. -/
theorem Registry.stores_negative_id_in_readwrite :
    modeInScope (Registry.empty .default).reader (QualifiedSubject.parse "orders") = .readwrite
    ∧ ((Registry.empty .default).step plainServer (registerUnder "orders" "int" (-5))).rows
        (.version "." "orders" 1) = some ⟨1, false, 0⟩
    ∧ (Registry.empty .default).rows (.version "." "orders" 1) = none := by
  decide

end SchemaRegistry

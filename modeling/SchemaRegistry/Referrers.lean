import SchemaRegistry.Ordinary

/-!
Delete protection. The reverse-reference index is kept under the target's context but
holds bare ids, so it is read with the ids of that context: a referrer in another
context is missed, or taken for the version that has its number. Along histories whose
references stay in their contexts, and whose purges leave no body behind, the live
referrers of a version are exactly the live versions that reference it.
-/

namespace SchemaRegistry

open Lib

variable {srv : Server} {reg : Registry} {verb : Verb} {now : Int} {guid : String}

/-! ### The property -/

/-- A live version, in any context, holds the id and has a stored reference to the version. -/
def Registry.ReferredBy (reg : Registry) (q : QualifiedSubject) (v i : UInt32) : Prop :=
  ∃ ctx subject w vr, reg.reader.getVersion ctx subject w = some vr ∧ vr.deleted = false ∧
    vr.id = i ∧ ∃ rec, reg.reader.getSchema ctx i = some rec ∧ Refers rec ctx q.context q.subject v

/-- Delete protection is exact: the live referrers of every version are the ids of the live
versions that reference it, and a delete of a version is refused for being referenced exactly
when it has one. -/
structure Registry.ProtectionExact (srv : Server) (reg : Registry) : Prop where
  referrers : ∀ q v i, i ∈ liveReferrers reg.reader q.context q.subject v ↔ reg.ReferredBy q v i
  refused : ∀ subject spec permanent now guid,
    (∃ e, (Verb.deleteVersion subject spec permanent).decide srv (reg.view now guid) = .error e ∧
      e.code = 42206) ↔
    ∃ v vr, (DeleteSubjectVersion.new subject spec permanent).find reg.reader = .ok (v, vr) ∧
      ∃ i, reg.ReferredBy (QualifiedSubject.parse subject) v i

/-! ### When a delete is refused for being referenced -/

theorem modegateCheck_code {intent : Intent} {mode : Mode} {scope : String} {e : ApiError}
    (h : modegateCheck intent mode scope = .error e) : e.code = 42205 := by
  unfold modegateCheck at h
  split at h <;> cases h <;> rfl

theorem bind_eq_error {ε α β : Type} {y : Except ε α} {f : α → Except ε β} {e : ε} :
    y >>= f = .error e ↔ y = .error e ∨ ∃ a, y = .ok a ∧ f a = .error e := by
  cases y <;> simp [bind, Except.bind]

theorem find_code {m : DeleteSubjectVersion} {r : Reader} {e : ApiError}
    (h : m.find r = .error e) : e.code ≠ 42206 := by
  unfold DeleteSubjectVersion.find at h
  dsimp only at h
  split at h
  · split at h
    · cases h
      simp [ApiError.versionSoftDeleted]
    · cases h
  · cases h
    split <;> simp [ApiError.versionNotFound, ApiError.subjectNotFound]

theorem checkNotReferenced_eq_error {r : Reader} {q : QualifiedSubject} {v : UInt32} :
    (∃ e, checkNotReferenced r q v = .error e ∧ e.code = 42206) ↔
      liveReferrers r q.context q.subject v ≠ [] := by
  unfold checkNotReferenced
  split
  · next h => simp [List.isEmpty_iff.mp h]
  · next h =>
      refine iff_of_true ⟨_, rfl, rfl⟩ fun hnil => h (by simp [hnil])

/-- A delete of a version is refused for being referenced exactly when the version it names
has a live referrer. -/
theorem deleteVersion_refused (srv : Server) (view : ReadView) (subject : String)
    (spec : VersionSpec) (permanent : Bool) :
    (∃ e, (Verb.deleteVersion subject spec permanent).decide srv view = .error e ∧ e.code = 42206) ↔
    ∃ v vr, (DeleteSubjectVersion.new subject spec permanent).find view.reader = .ok (v, vr) ∧
      liveReferrers view.reader (QualifiedSubject.parse subject).context
        (QualifiedSubject.parse subject).subject v ≠ [] := by
  have hdecide : (Verb.deleteVersion subject spec permanent).decide srv view
      = (DeleteSubjectVersion.new subject spec permanent).plan view >>= fun plan =>
        modegateCheck .modify (modeFor view.reader (.subject (QualifiedSubject.parse subject)))
          (QualifiedSubject.parse subject).qualified >>= fun _ => .ok plan := rfl
  rw [hdecide]
  constructor
  · rintro ⟨e, he, hcode⟩
    rcases bind_eq_error.mp he with he | ⟨plan, -, he⟩
    · simp only [DeleteSubjectVersion.plan, bind_eq_error] at he
      rcases he with he | ⟨⟨v, vr⟩, hfind, he | ⟨-, -, he⟩⟩
      · exact (find_code he hcode).elim
      · exact ⟨v, vr, hfind, checkNotReferenced_eq_error.mp ⟨e, he, hcode⟩⟩
      · -- Past the check, the only refusal left is for a version that is still live.
        split at he
        · cases he
          exact absurd hcode (by simp [ApiError.versionNotSoftDeleted])
        · split at he <;> cases he
    · rcases bind_eq_error.mp he with he | ⟨-, -, he⟩
      · rw [modegateCheck_code he] at hcode
        exact absurd hcode (by decide)
      · cases he
  · rintro ⟨v, vr, hfind, hne⟩
    obtain ⟨e, he, hcode⟩ := checkNotReferenced_eq_error.mpr hne
    refine ⟨e, bind_eq_error.mpr (.inl ?_), hcode⟩
    simp only [DeleteSubjectVersion.plan, bind_eq_error]
    exact .inr ⟨(v, vr), hfind, .inl he⟩

/-! ### Edges and bodies agree -/

/-- The condition on a step: an ordinary registration, or a purge that keeps ids apart. -/
def Registry.Confined (srv : Server) (reg : Registry) (req : Request) : Prop :=
  reg.Ordinary srv req ∧ reg.PurgesApart req

/-- An edge stands for a stored body of its context with that reference. -/
structure Registry.EdgesAgree (reg : Registry) : Prop where
  inOrder : reg.InOrder
  used : reg.rows.BodiesHaveUsers
  edges : ∀ ctx subject v i, reg.rows (.refby ctx subject v i) = true ↔
    ∃ rec, reg.rows (.body ctx i) = some rec ∧ Refers rec ctx ctx subject v

/-- A reference to a version comes from the version's own context. -/
theorem Registry.InOrder.refers_context (h : reg.InOrder) {c ctx subject : String} {v i : UInt32}
    {rec : SchemaRecord} (hrec : reg.rows (.body c i) = some rec)
    (hrefers : Refers rec c ctx subject v) : c = ctx := by
  obtain ⟨sr, hsr, htarget, -⟩ := hrefers
  rw [← (h.refs hrec sr hsr).1, htarget]

theorem Registry.EdgesAgree.shrinks (h : reg.EdgesAgree) {ρ : Rows} (hs : Shrinks reg ρ)
    (ctx subject : String) (v i : UInt32) : ρ (.refby ctx subject v i) = true ↔
      ∃ rec, ρ (.body ctx i) = some rec ∧ Refers rec ctx ctx subject v := by
  rw [hs.refby, h.edges]
  constructor
  · rintro ⟨⟨rec, hrec, hrefers⟩, hkept⟩
    cases hbody : ρ (.body ctx i) with
    | none => exact (hkept ctx rec hrec hbody hrefers).elim
    | some rec' =>
      have hsame := hs.body hbody
      rw [hrec, Option.some.injEq] at hsame
      exact ⟨rec, by rw [hsame], hrefers⟩
  · rintro ⟨rec, hbody, hrefers⟩
    refine ⟨⟨rec, hs.body hbody, hrefers⟩, fun c rec' hrec' hnone hrefers' => ?_⟩
    rw [h.inOrder.refers_context hrec' hrefers', hbody] at hnone
    cases hnone

theorem Registry.EdgesAgree.registers (h : reg.EdgesAgree) {m : RegisterSchema}
    {x : RegisterSchema.Resolved srv.fmt.Inner} {version id : UInt32}
    (hord : m.Ordinary srv (reg.view now guid))
    (hreg : Registration srv (reg.view now guid) verb m x version id)
    (ctx subject : String) (v i : UInt32) :
    let ρ :=
      reg.rows.after (RegisterSchema.written srv (reg.view now guid) m.subject version id x.canon)
    ρ (.refby ctx subject v i) = true ↔
      ∃ rec, ρ (.body ctx i) = some rec ∧ Refers rec ctx ctx subject v := by
  intro ρ
  obtain ⟨D, hremoval⟩ := removal_replaced (reg.view now guid).reader m.subject version id
  obtain ⟨hlocal, htargets⟩ := h.inOrder.resolved hord hreg.resolved
  have htarget : (⟨ctx, subject⟩, v) ∈ x.canon.targets ↔ ∃ sr ∈ x.canon.refs,
      refTarget m.subject.context sr = ⟨ctx, subject⟩ ∧ sr.target = v := by
    simp [htargets]
  have hbodyFor := hord.toInRange.bodyFor_references hreg
  simp only [ρ]
  rw [refby_register, htarget]
  by_cases hown : ctx = m.subject.context ∧ i = id
  · obtain ⟨rfl, rfl⟩ := hown
    rw [body_of_register_self]
    simp only [Option.some.injEq, exists_eq_left', Refers, hbodyFor, and_true]
    refine or_iff_left_of_imp fun hedge => ?_
    -- An edge that was there stands for the body of the id, which is stored again.
    obtain ⟨rec, hrec, hrefers⟩ := (h.edges ..).mp (hremoval.refby.mp hedge).1
    have hused := h.used _ i (Option.isSome_iff_exists.mpr ⟨rec, hrec⟩)
    rwa [Refers, (h.inOrder.toInBounds.bodyFor_of_uses hord.toInRange hreg hused hrec).2] at hrefers
  · rw [body_of_register_ne _ hown, hremoval.refby, h.edges]
    constructor
    · rintro (⟨⟨sr, hsr, hsr', -⟩, rfl⟩ | ⟨⟨rec, hrec, hrefers⟩, hkept⟩)
      · have := (hlocal sr hsr).1
        rw [hsr'] at this
        exact (hown ⟨this, rfl⟩).elim
      · cases hbody :
          reg.rows.after (RegisterSchema.replaced (reg.view now guid).reader m.subject version id).1
          (.body ctx i) with
        | none => exact (hkept ctx rec hrec hbody hrefers).elim
        | some rec' =>
            have hsame := hremoval.body_of_after hbody
            rw [hrec, Option.some.injEq] at hsame
            exact ⟨rec, by rw [hsame], hrefers⟩
    · rintro ⟨rec, hbody, hrefers⟩
      refine .inr ⟨⟨rec, hremoval.body_of_after hbody, hrefers⟩,
        fun c rec' hrec' hnone hrefers' => ?_⟩
      rw [h.inOrder.refers_context hrec' hrefers', hbody] at hnone
      cases hnone

theorem Registry.EdgesAgree.step {req : Request} (h : reg.EdgesAgree)
    (hconf : reg.Confined srv req) : (reg.step srv req).EdgesAgree := by
  obtain ⟨ws, evs, heff, hstep⟩ := Registry.rows_step srv reg req
  refine ⟨h.inOrder.step hconf.1, ?_, ?_⟩ <;> rw [hstep]
  · exact h.used.effect h.inOrder.consistent hconf.2 heff
  · rcases heff.shrinks_or_registers with hs | ⟨m, x, version, id, hreg, rfl⟩
    · exact h.shrinks hs
    · obtain ⟨subject, body, normalize, hverb, hm⟩ := hreg.new
      exact h.registers (hconf.1 subject body normalize m hverb hm) hreg

theorem Registry.edgesAgree_empty (tenant : TenantId) : (Registry.empty tenant).EdgesAgree := by
  refine ⟨Registry.inOrder_empty tenant, (Registry.bodiesAgree_empty tenant).used, ?_⟩
  simp [Registry.rows_empty, Rows.empty]

/-- Where edges agree with bodies, delete protection is exact. -/
theorem Registry.EdgesAgree.protectionExact (h : reg.EdgesAgree) : reg.ProtectionExact srv := by
  have hreferrers : ∀ q v i,
      i ∈ liveReferrers reg.reader q.context q.subject v ↔ reg.ReferredBy q v i := by
    intro q v i
    rw [Registry.mem_liveReferrers h.inOrder.consistent, h.edges]
    constructor
    · rintro ⟨⟨rec, hrec, hrefers⟩, subject, w, vr, hrow, hid, hlive⟩
      exact ⟨q.context, subject, w, vr, hrow, hlive, hid, rec, hrec, hrefers⟩
    · rintro ⟨ctx, subject, w, vr, hrow, hlive, hid, rec, hrec, hrefers⟩
      obtain rfl := h.inOrder.refers_context hrec hrefers
      exact ⟨⟨rec, hrec, hrefers⟩, subject, w, vr, hrow, hid, hlive⟩
  refine ⟨hreferrers, fun subject spec permanent now guid => ?_⟩
  rw [deleteVersion_refused]
  refine exists_congr fun v => exists_congr fun vr => and_congr_right fun _ => ?_
  constructor
  · intro hne
    obtain ⟨i, hi⟩ := List.exists_mem_of_ne_nil _ hne
    exact ⟨i, (hreferrers _ v i).mp hi⟩
  · rintro ⟨i, hi⟩
    exact List.ne_nil_of_mem ((hreferrers _ v i).mpr hi)

/-- In every history whose references stay in their contexts and whose purges keep ids apart,
delete protection is exact. -/
theorem protectionExact_of_confined (srv : Server) (tenant : TenantId) (reqs : List Request)
    (hconf : Along (Registry.step srv) (Registry.Confined srv) (Registry.empty tenant) reqs) :
    ((Registry.empty tenant).runAll srv reqs).ProtectionExact srv := by
  have hinv : ((Registry.empty tenant).runAll srv reqs).EdgesAgree :=
    inv_of_along hconf (Registry.edgesAgree_empty tenant) fun _ _ h hok => h.step hok
  exact hinv.protectionExact

/-- A version of another context, second there to get an id, references one of the default
context. -/
def crossContextHistory : List Request :=
  [registerJson "s" "\x7b\x7d", registerText ":.c:other" "\"long\"",
    registerReferring ":.c:t" "true" ":.:s" 1]

/-- The edge holds id 2, which no version of the target's context has. -/
theorem unprotected_after_crossContextHistory :
    ¬ (plainRun crossContextHistory).ProtectionExact
      plainServer := by
  intro h
  have hrow : (plainRun crossContextHistory).reader.getVersion
      ".c" "t" 1 = some ⟨2, false, 0⟩ := by decide
  have hrefs : ((plainRun crossContextHistory).reader.getSchema ".c" 2).map (·.references)
        = some [⟨":.:s", ":.:s", 1⟩] := by decide
  have hnone : liveReferrers (plainRun
      crossContextHistory).reader "." "s" 1 = [] := by decide
  obtain ⟨rec, hrec, hrefs⟩ := Option.map_eq_some_iff.mp hrefs
  have hrefers : Refers rec ".c" "." "s" 1 :=
    ⟨⟨":.:s", ":.:s", 1⟩, by simp [hrefs], by decide, by decide⟩
  have hmem := (h.referrers ⟨".", "s"⟩ 1 2).mpr
    ⟨".c", "t", 1, _, hrow, rfl, rfl, rec, hrec, hrefers⟩
  rw [hnone] at hmem
  cases hmem

/-- The same references within one context, and a purge. -/
def confinedHistory : List Request :=
  [registerJson "s" "\x7b\x7d", registerReferring "t" "true" "s" 1,
    plainRequest (.setMode (some ":.c:") .«import» false)]

theorem protectionExact_confinedHistory :
    Along (Registry.step plainServer) (Registry.Confined plainServer) (Registry.empty .default)
      confinedHistory ∧
    (plainRun confinedHistory).ProtectionExact plainServer := by
  have hfirst : (Registry.empty .default).BodiesAgree := Registry.bodiesAgree_empty .default
  have hsecond : ((Registry.empty .default).step plainServer
      (registerJson "s" "\x7b\x7d")).BodiesAgree := hfirst.step (by rintro _ _ _ ⟨⟩)
  have hord : Along (Registry.step plainServer) (Registry.Ordinary plainServer)
      (Registry.empty .default) confinedHistory := by
    refine ⟨?_, ?_, ?_, trivial⟩ <;> intro subject body normalize m hverb hm <;> cases hverb <;>
      simp only [RegisterSchema.new] at hm <;> split at hm <;> cases hm
    · exact ⟨⟨by decide, by decide, hfirst.distinct (by decide)⟩, by decide⟩
    · exact ⟨⟨by decide, by decide, hsecond.distinct (by decide)⟩, by decide⟩
  have hapart : Along (Registry.step plainServer) Registry.PurgesApart (Registry.empty .default)
      confinedHistory := by
    refine ⟨by rintro _ _ _ ⟨⟩, by rintro _ _ _ ⟨⟩, ?_, trivial⟩
    intro subject mode force hverb _
    cases hverb
    decide
  have hconf : Along (Registry.step plainServer) (Registry.Confined plainServer)
      (Registry.empty .default) confinedHistory :=
    ⟨⟨hord.1, hapart.1⟩, ⟨hord.2.1, hapart.2.1⟩, ⟨hord.2.2.1, hapart.2.2.1⟩, trivial⟩
  exact ⟨hconf, protectionExact_of_confined plainServer .default confinedHistory hconf⟩

end SchemaRegistry

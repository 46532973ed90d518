import SchemaRegistry.Bodies

/-!
Reference edges and the bodies they stand for. A removal takes out an edge exactly
when it takes out a body with that reference; apart from registrations, a verb only
hides and removes, and never what a live version references.
-/

namespace SchemaRegistry

open Lib

variable {srv : Server} {reg : Registry} {verb : Verb} {now : Int} {guid : String}
  {ws : List Write} {evs : List LogEvent}

namespace Registry

theorem nextId_eq (reg : Registry) (ctx : String) :
    reg.reader.nextId ctx = (reg.rows (.nextId ctx)).getD 1 :=
  Snapshot.nextId_eq

theorem mem_referencedBy {ctx subject : String} {v i : UInt32} :
    i ∈ reg.reader.referencedBy ctx subject v ↔ reg.rows (.refby ctx subject v i) = true :=
  decide_eq_true_iff.symm

/-- A live referrer: an edge whose id some live version of the target's context holds. -/
theorem mem_liveReferrers (hc : reg.snapshot.Consistent) {ctx subject : String} {v i : UInt32} :
    i ∈ liveReferrers reg.reader ctx subject v ↔ reg.rows (.refby ctx subject v i) = true ∧
      ∃ s w vr, reg.rows (.version ctx s w) = some vr ∧ vr.id = i ∧ vr.deleted = false := by
  simp only [liveReferrers, List.mem_filter, mem_referencedBy, List.any_eq_true, Prod.exists,
    mem_idUsages hc]
  refine and_congr_right fun _ => exists_congr fun s => exists_congr fun w => ?_
  constructor
  · rintro ⟨⟨vr, hrow, hid⟩, hlive⟩
    have hget : reg.reader.getVersion ctx s w = some vr := hrow
    rw [hget] at hlive
    exact ⟨vr, hrow, hid, by simpa using hlive⟩
  · rintro ⟨vr, hrow, hid, hlive⟩
    have hget : reg.reader.getVersion ctx s w = some vr := hrow
    rw [hget]
    exact ⟨⟨vr, hrow, hid⟩, by simpa using hlive⟩

end Registry

/-! ### Removals -/

section Removals

variable {gone : List Write}
  {D : List (String × UInt32) → QualifiedSubject → UInt32 → VersionRecord → Prop}

/-- The writes are the hard deletes of a set of rows, each in full. -/
def Removal (r : Reader) (gone : List Write)
    (D : List (String × UInt32) → QualifiedSubject → UInt32 → VersionRecord → Prop) : Prop :=
  ∀ w, w ∈ gone ↔ ∃ also q v vr, D also q v vr ∧ HardDeletes r also q v vr w

theorem Removal.isRemoval {r : Reader} (h : Removal r gone D) : ∀ w ∈ gone, w.IsRemoval := by
  intro w hw
  obtain ⟨also, q, v, vr, -, hdel⟩ := (h w).mp hw
  cases hdel <;> trivial

theorem removal_hardDeleteAll (r : Reader)
    (rows : List (QualifiedSubject × UInt32 × VersionRecord)) (also : List (String × UInt32)) :
    Removal r (hardDeleteAll r rows also).1 fun also' q v vr => also' = also ∧
      (q, v, vr) ∈ rows := by
  intro w
  rw [mem_hardDeleteAll]
  constructor
  · rintro ⟨p, hp, hdel⟩
    exact ⟨also, p.1, p.2.1, p.2.2, ⟨rfl, hp⟩, hdel⟩
  · rintro ⟨also', q, v, vr, ⟨rfl, hp⟩, hdel⟩
    exact ⟨_, hp, hdel⟩

/-- A reference from the body of an id to a version. -/
def Refers (rec : SchemaRecord) (c ctx subject : String) (v : UInt32) : Prop :=
  ∃ sr ∈ rec.references, refTarget c sr = ⟨ctx, subject⟩ ∧ sr.target = v

/-- An edge stays unless a body it stands for goes. -/
theorem Removal.refby (h : Removal reg.reader gone D) {ctx subject : String} {v i : UInt32} :
    reg.rows.after gone (.refby ctx subject v i) = true ↔
      reg.rows (.refby ctx subject v i) = true ∧ ∀ c rec, reg.rows (.body c i) = some rec →
        reg.rows.after gone (.body c i) = none → ¬ Refers rec c ctx subject v := by
  rcases after_removals h.isRemoval reg.rows (.refby ctx subject v i) with
    ⟨⟨w, hw, hk⟩, hgone⟩ | ⟨hnot, hsame⟩
  · rw [hgone]
    refine iff_of_false (by simp [Rows.empty]) fun hall => ?_
    obtain ⟨also, q, v', vr, hD, hdel⟩ := (h w).mp hw
    obtain ⟨rfl, hused, rec, hrec, sr, hsr, htarget, hv⟩ :=
      exists_deletes_refby.mp ⟨w, hdel, hk⟩
    refine hall.2 q.context rec hrec ?_ ⟨sr, hsr, htarget, hv⟩
    rcases after_removals h.isRemoval reg.rows (.body q.context vr.id) with ⟨-, hbody⟩ | ⟨hnot, -⟩
    · exact hbody
    · exact (hnot _ ((h _).mpr ⟨also, q, v', vr, hD, .body rec hused hrec⟩)
        (by simp [Write.keys])).elim
  · rw [hsame]
    refine ⟨fun hedge => ⟨hedge, fun c rec hrec hbody hrefers => ?_⟩, And.left⟩
    obtain ⟨sr, hsr, htarget, hv⟩ := hrefers
    rcases after_removals h.isRemoval reg.rows (.body c i) with ⟨⟨w, hw, hk⟩, -⟩ | ⟨-, hkept⟩
    · obtain ⟨also, q, v', vr, hD, hdel⟩ := (h w).mp hw
      obtain ⟨rfl, rfl, hused, -⟩ := exists_deletes_body.mp ⟨w, hdel, hk⟩
      exact hnot _ ((h _).mpr ⟨also, q, v', vr, hD, .refby rec sr hused hrec hsr⟩)
        (by simp [Write.keys, htarget, hv])
    · rw [hkept, hrec] at hbody
      cases hbody

theorem Removal.body_of_after {r : Reader} (h : Removal r gone D) {ρ : Rows} {c : String}
    {i : UInt32} {rec : SchemaRecord} (hrec : ρ.after gone (.body c i) = some rec) :
    ρ (.body c i) = some rec := by
  rcases after_removals h.isRemoval ρ (.body c i) with ⟨-, hgone⟩ | ⟨-, hsame⟩
  · rw [hgone] at hrec
    cases hrec
  · exact hsame.symm.trans hrec

end Removals

/-! ### Every verb but a registration -/

/-- What a verb that only hides and removes does to the rows. -/
structure Shrinks (reg : Registry) (ρ : Rows) : Prop where
  version : ∀ {ctx subject v vr}, ρ (.version ctx subject v) = some vr →
    ∃ old, reg.rows (.version ctx subject v) = some old ∧ vr.id = old.id ∧
      (vr.deleted = false → vr = old)
  /-- What a live version references is neither hidden nor removed. -/
  referenced : ∀ {ctx subject v vr}, reg.rows (.version ctx subject v) = some vr →
    vr.deleted = false → liveReferrers reg.reader ctx subject v ≠ [] →
    ρ (.version ctx subject v) = some vr
  body : ∀ {ctx id rec}, ρ (.body ctx id) = some rec → reg.rows (.body ctx id) = some rec
  refby : ∀ {ctx subject v i}, ρ (.refby ctx subject v i) = true ↔
    reg.rows (.refby ctx subject v i) = true ∧ ∀ c rec, reg.rows (.body c i) = some rec →
      ρ (.body c i) = none → ¬ Refers rec c ctx subject v
  nextId : ∀ ctx, ρ (.nextId ctx) = reg.rows (.nextId ctx)

theorem Shrinks.refl : Shrinks reg reg.rows where
  version hrow := ⟨_, hrow, rfl, fun _ => rfl⟩
  referenced hrow _ _ := hrow
  body hrec := hrec
  refby := by
    refine ⟨fun hedge => ⟨hedge, fun c rec hrec hnone => ?_⟩, And.left⟩
    rw [hrec] at hnone
    cases hnone
  nextId _ := rfl

theorem Shrinks.settings {ρ : Rows} (h : Shrinks reg ρ) (hws : ∀ w ∈ ws, w.IsSetting) :
    Shrinks reg (ρ.after ws) := by
  have hkeys := fun w hw => not_mem_keys_of_isSetting (hws w hw)
  have hversion : ∀ ctx subject v, ρ.after ws (.version ctx subject v)
      = ρ (.version ctx subject v) :=
    fun ctx subject v => writeAll_of_untouched fun w hw =>
      Write.touch_eq_none ((hkeys w hw).1 ctx subject v)
  have hbody : ∀ ctx id, ρ.after ws (.body ctx id) = ρ (.body ctx id) := fun ctx id =>
    writeAll_of_untouched fun w hw => Write.touch_eq_none ((hkeys w hw).2.1 ctx id)
  have hrefby : ∀ ctx subject v i, ρ.after ws (.refby ctx subject v i)
      = ρ (.refby ctx subject v i) :=
    fun ctx subject v i => writeAll_of_untouched fun w hw =>
      Write.touch_eq_none ((hkeys w hw).2.2.1 ctx subject v i)
  have hnext : ∀ ctx, ρ.after ws (.nextId ctx) = ρ (.nextId ctx) := fun ctx =>
    writeAll_of_untouched fun w hw => Write.touch_eq_none ((hkeys w hw).2.2.2 ctx)
  constructor
  · intro ctx subject v vr hrow
    exact h.version ((hversion ctx subject v).symm.trans hrow)
  · intro ctx subject v vr hrow hlive hreferred
    exact (hversion ctx subject v).trans (h.referenced hrow hlive hreferred)
  · intro ctx id rec hrec
    exact h.body ((hbody ctx id).symm.trans hrec)
  · intro ctx subject v i
    simp only [hrefby, hbody, h.refby]
  · intro ctx
    exact (hnext ctx).trans (h.nextId ctx)

theorem shrinks_softDelete {q : QualifiedSubject} {rows : List (UInt32 × VersionRecord)}
    {extra : List Write} (hrows : ∀ p ∈ rows, reg.reader.Removable q false p)
    (hextra : ∀ w ∈ extra, w.IsSetting) :
    Shrinks reg (reg.rows.after (rows.map (fun p => softDeleteWrite q p.1 p.2) ++ extra)) := by
  have hsame := sameBodies_softDelete hrows hextra
  have hkeys : ∀ w ∈ rows.map (fun p => softDeleteWrite q p.1 p.2) ++ extra,
      (∀ ctx subject v i, .refby ctx subject v i ∉ w.keys) ∧ ∀ ctx, .nextId ctx ∉ w.keys := by
    intro w hw
    rcases List.mem_append.mp hw with hw | hw
    · obtain ⟨p, -, rfl⟩ := List.mem_map.mp hw
      simp [softDeleteWrite, Write.keys]
    · exact (not_mem_keys_of_isSetting (hextra w hw)).2.2
  constructor
  · intro ctx subject v vr hrow
    rcases version_softDelete hrows hextra ctx subject v with ⟨old, -, -, hold, hafter⟩ | hsame
    · rw [hafter, Option.some.injEq] at hrow
      subst hrow
      exact ⟨old, hold, rfl, by rintro ⟨⟩⟩
    · exact ⟨vr, hsame.symm.trans hrow, rfl, fun _ => rfl⟩
  · intro ctx subject v vr hrow hlive hreferred
    rcases version_softDelete hrows hextra ctx subject v with ⟨old, hp, rfl, -, -⟩ | hsame
    · exact (hreferred (hrows _ hp).2.2).elim
    · exact hsame.trans hrow
  · intro ctx id rec hrec
    exact (hsame.body ctx id).symm.trans hrec
  · intro ctx subject v i
    have hedge : reg.rows.after (rows.map (fun p => softDeleteWrite q p.1 p.2) ++ extra)
        (.refby ctx subject v i) = reg.rows (.refby ctx subject v i) :=
      writeAll_of_untouched fun w hw => Write.touch_eq_none ((hkeys w hw).1 ctx subject v i)
    simp only [hedge, hsame.body]
    exact Shrinks.refl.refby
  · intro ctx
    exact writeAll_of_untouched fun w hw => Write.touch_eq_none ((hkeys w hw).2 ctx)

theorem shrinks_hardDelete {rows : List (QualifiedSubject × UInt32 × VersionRecord)}
    {also : List (String × UInt32)} (hrows : ∀ p ∈ rows, reg.reader.Removable p.1 true p.2) :
    Shrinks reg (reg.rows.after (hardDeleteAll reg.reader rows also).1) := by
  have hremoval := removal_hardDeleteAll reg.reader rows also
  constructor
  · intro ctx subject v vr hrow
    rcases version_hardDeleteAll reg rows also reg.rows ctx subject v with ⟨-, hgone⟩ | ⟨-, hsame⟩
    · rw [hgone] at hrow
      cases hrow
    · exact ⟨vr, hsame.symm.trans hrow, rfl, fun _ => rfl⟩
  · intro ctx subject v vr hrow hlive hreferred
    rcases version_hardDeleteAll reg rows also reg.rows ctx subject v with ⟨hin, -⟩ | ⟨-, hsame⟩
    · unfold Outside at hin
      push Not at hin
      obtain ⟨p, hp, hq, rfl⟩ := hin
      have hnone := (hrows p hp).2.2
      rw [hq] at hnone
      exact (hreferred hnone).elim
    · exact hsame.trans hrow
  · intro ctx id rec hrec
    exact hremoval.body_of_after hrec
  · intro ctx subject v i
    exact hremoval.refby
  · intro ctx
    refine writeAll_of_untouched fun w hw => Write.touch_eq_none ?_
    obtain ⟨p, -, hdel⟩ := mem_hardDeleteAll.mp hw
    cases hdel <;> simp [Write.keys]

/-! ### Registrations -/

/-- A registration that stores `x` as a version under an id. -/
structure Registration (srv : Server) (view : ReadView) (verb : Verb) (m : RegisterSchema)
    (x : RegisterSchema.Resolved srv.fmt.Inner) (version id : UInt32) : Prop where
  new : ∃ subject body normalize, verb = .register subject body normalize ∧
    RegisterSchema.new subject body normalize = .ok m
  resolved : m.resolve srv view = .ok (.inr x)
  version : RegisterSchema.chooseVersion (modeFor view.reader (.subject m.subject) == .«import»)
    x.draft (RegisterSchema.newVersion
      (view.reader.listVersions m.subject.context m.subject.subject)) = .ok version
  id : RegisterSchema.chooseId view.reader m.subject.context x.canon.fingerprint x.schemaId = .ok id

section Registers

variable {q : QualifiedSubject} {version id : UInt32} {c : Canon srv.fmt.Inner}

theorem removal_replaced (r : Reader) (q : QualifiedSubject) (version id : UInt32) :
    ∃ D, Removal r (RegisterSchema.replaced r q version id).1 D := by
  refine ⟨fun also q' v vr => q' = q ∧ (v, vr) ∈ r.listVersions q.context q.subject ∧
    (v = version ∧ also = [] ∨ (vr.deleted = true ∧ vr.id = id ∧ v < version) ∧
      also = ((r.listVersions q.context q.subject).filter fun p =>
        p.2.deleted && p.2.id == id && p.1 < version).map fun p => (q.subject, p.1)), fun w => ?_⟩
  rw [mem_replaced]
  constructor
  · rintro (⟨vr, hmem, hdel⟩ | ⟨p, hmem, hdeleted, hid, hlt, hdel⟩)
    · exact ⟨[], q, version, vr, ⟨rfl, hmem, .inl ⟨rfl, rfl⟩⟩, hdel⟩
    · exact ⟨_, q, p.1, p.2, ⟨rfl, hmem, .inr ⟨⟨hdeleted, hid, hlt⟩, rfl⟩⟩, hdel⟩
  · rintro ⟨also, _, v, vr, ⟨rfl, hmem, ⟨rfl, rfl⟩ | ⟨⟨hdeleted, hid, hlt⟩, rfl⟩⟩, hdel⟩
    · exact .inl ⟨vr, hmem, hdel⟩
    · exact .inr ⟨(v, vr), hmem, hdeleted, hid, hlt, hdel⟩

/-- A key that nothing added touches is as the removals left it. -/
theorem after_replaced {k : RowKey} (hk : ∀ w, Adds srv (reg.view now guid) q version id c w →
    k ∉ w.keys) (gone : List Write) :
    reg.rows.after (gone ++ RegisterSchema.added srv (reg.view now guid) q version id c) k
      = reg.rows.after gone k := by
  rw [Rows.after, writeAll_append]
  exact writeAll_of_untouched fun w hw => Write.touch_eq_none (hk w (mem_added.mp hw))

/-- The edges after a registration: those to its targets, and those its removals left. -/
theorem refby_register (gone : List Write) {ctx subject : String} {v i : UInt32} :
    reg.rows.after (gone ++ RegisterSchema.added srv (reg.view now guid) q version id c)
        (.refby ctx subject v i) = true ↔
      ((⟨ctx, subject⟩, v) ∈ c.targets ∧ i = id) ∨
        reg.rows.after gone (.refby ctx subject v i) = true := by
  by_cases hput : (⟨ctx, subject⟩, v) ∈ c.targets ∧ i = id
  · obtain ⟨ht, rfl⟩ := hput
    refine iff_of_true ?_ (.inl ⟨ht, rfl⟩)
    rw [Rows.after, writeAll_append]
    refine writeAll_of_agree
      ⟨_, mem_added.mpr (.refby _ ht), by simp [Write.touch]⟩ fun w hw y hy => ?_
    cases mem_added.mp hw <;> simp [Write.touch] at hy
    exact hy.2
  · rw [after_replaced fun w hw hk => ?_]
    · simp [hput]
    · cases hw with
      | refby t ht =>
        simp only [Write.keys, List.mem_singleton, RowKey.refby.injEq] at hk
        obtain ⟨rfl, rfl, rfl, rfl⟩ := hk
        exact hput ⟨ht, rfl⟩
      | _ => simp [Write.keys] at hk

theorem body_of_register_ne (gone : List Write) {ctx : String} {i : UInt32}
    (hne : ¬ (ctx = q.context ∧ i = id)) :
    reg.rows.after (gone ++ RegisterSchema.added srv (reg.view now guid) q version id c)
      (.body ctx i)
      = reg.rows.after gone (.body ctx i) := by
  refine after_replaced (fun w hw hk => ?_) gone
  cases hw with
  | body =>
    simp only [Write.keys, if_true, List.mem_cons, RowKey.body.injEq, List.not_mem_nil, or_false,
      reduceCtorEq] at hk
    exact hne hk
  | _ => simp [Write.keys] at hk

theorem body_of_register_self (gone : List Write) :
    reg.rows.after (gone ++ RegisterSchema.added srv (reg.view now guid) q version id c)
      (.body q.context id)
        = some (RegisterSchema.bodyFor srv (reg.view now guid) q.context id c) := by
  rw [Rows.after, writeAll_append]
  refine writeAll_of_agree ⟨_, mem_added.mpr .body, by simp [Write.touch]⟩ fun w hw y hy => ?_
  cases mem_added.mp hw <;> simp [Write.touch] at hy
  exact hy.symm

/-- The counter moves past an id that reaches it. -/
theorem nextId_register (gone : List Write) (hgone : ∀ w ∈ gone, w.IsRemoval) (ctx : String) :
    reg.rows.after (gone ++ RegisterSchema.added srv (reg.view now guid) q version id c)
        (.nextId ctx) =
      if ctx = q.context ∧ reg.reader.nextId q.context ≤ id then some (id + 1)
      else reg.rows (.nextId ctx) := by
  split
  · next h =>
      obtain ⟨rfl, hle⟩ := h
      rw [Rows.after, writeAll_append]
      refine writeAll_of_agree ⟨_, mem_added.mpr (.next hle), by simp [Write.touch]⟩
        fun w hw y hy => ?_
      cases mem_added.mp hw <;> simp [Write.touch] at hy
      exact hy.symm
  · next h =>
      rw [after_replaced fun w hw hk => ?_]
      · refine writeAll_of_untouched fun w hw => Write.touch_eq_none fun hk => ?_
        have := hgone w hw
        cases w <;> simp [Write.IsRemoval] at this <;> simp [Write.keys] at hk
      · cases hw with
        | next hle =>
          simp only [Write.keys, List.mem_singleton, RowKey.nextId.injEq] at hk
          exact h ⟨hk, hle⟩
        | _ => simp [Write.keys] at hk

end Registers

/-- Every verb either hides and removes, or stores a version. -/
theorem Effect.shrinks_or_registers (h : Effect srv (reg.view now guid) verb ws evs) :
    Shrinks reg (reg.rows.after ws) ∨
      ∃ m x version id, Registration srv (reg.view now guid) verb m x version id ∧
        ws = RegisterSchema.written srv (reg.view now guid) m.subject version id x.canon := by
  cases h with
  | silent => exact .inl Shrinks.refl
  | settings hws => exact .inl (Shrinks.refl.settings hws)
  | softDelete q rows extra hrows hextra => exact .inl (shrinks_softDelete hrows hextra)
  | hardDelete q rows hrows =>
    refine .inl (shrinks_hardDelete fun p hp => ?_)
    obtain ⟨p', hp', rfl⟩ := List.mem_map.mp hp
    exact hrows p' hp'
  | purge m hm hpurges hrows =>
    rw [Rows.after, writeAll_append]
    exact .inl ((shrinks_hardDelete hrows).settings (by simp [Write.IsSetting]))
  | register m hm x hx version id hversion hid =>
    exact .inr ⟨m, x, version, id, ⟨⟨_, _, _, rfl, hm⟩, hx, hversion, hid⟩, rfl⟩

end SchemaRegistry

import SchemaRegistry.Footprint

/-!
Bodies and the version rows that use them. A body is stored exactly as long as some
version row of its context, live or soft-deleted, holds its id: every verb keeps this,
except a purge that removes two subjects of one context sharing an id, which leaves
their body behind.
-/

namespace SchemaRegistry

open Lib

variable {srv : Server} {reg : Registry} {verb : Verb} {now : Int} {guid : String}
  {ws : List Write} {evs : List LogEvent}

/-- Some version row of the context holds the id. -/
def Rows.Uses (ρ : Rows) (ctx : String) (id : UInt32) : Prop :=
  ∃ subject v vr, ρ (.version ctx subject v) = some vr ∧ vr.id = id

/-- Every id in use has its body. -/
def Rows.UsersHaveBodies (ρ : Rows) : Prop :=
  ∀ ctx id, ρ.Uses ctx id → (ρ (.body ctx id)).isSome = true

/-- Every body has a version row that uses it. -/
def Rows.BodiesHaveUsers (ρ : Rows) : Prop :=
  ∀ ctx id, (ρ (.body ctx id)).isSome = true → ρ.Uses ctx id

/-- What the engine takes to be still in use, in terms of rows. -/
theorem stillUsed_iff (hc : reg.snapshot.Consistent) {q : QualifiedSubject} {version id : UInt32}
    {also : List (String × UInt32)} : stillUsed reg.reader q version id also = true ↔
      ∃ subject v vr, reg.rows (.version q.context subject v) = some vr ∧ vr.id = id ∧
        ¬ (subject = q.subject ∧ (v = version ∨ (subject, v) ∈ also)) := by
  simp only [stillUsed, List.any_eq_true, Bool.not_eq_true', Prod.exists, Registry.mem_idUsages hc]
  constructor
  · rintro ⟨subject, v, ⟨vr, hrow, hid⟩, hnot⟩
    exact ⟨subject, v, vr, hrow, hid, by simpa using hnot⟩
  · rintro ⟨subject, v, vr, hrow, hid, hnot⟩
    exact ⟨subject, v, ⟨vr, hrow, hid⟩, by simpa using hnot⟩

section HardDelete

variable {rows : List (QualifiedSubject × UInt32 × VersionRecord)} {also : List (String × UInt32)}

/-- A row that a removal of `rows` leaves in place. -/
def Outside (rows : List (QualifiedSubject × UInt32 × VersionRecord)) (ctx subject : String)
    (v : UInt32) : Prop :=
  ∀ p ∈ rows, ¬ (p.1 = ⟨ctx, subject⟩ ∧ p.2.1 = v)

theorem version_hardDeleteAll (reg : Registry)
    (rows : List (QualifiedSubject × UInt32 × VersionRecord)) (also : List (String × UInt32))
    (ρ : Rows) (ctx subject : String) (v : UInt32) :
    (¬ Outside rows ctx subject v ∧
      ρ.after (hardDeleteAll reg.reader rows also).1 (.version ctx subject v) = none) ∨
    (Outside rows ctx subject v ∧
      ρ.after (hardDeleteAll reg.reader rows also).1 (.version ctx subject v)
        = ρ (.version ctx subject v)) := by
  rcases after_hardDeleteAll reg.reader rows also (k := .version ctx subject v) ρ fun _ =>
    exists_deletes_version with ⟨⟨p, hp, hdel⟩, hgone⟩ | h
  · exact .inl ⟨fun hout => hout p hp hdel, hgone⟩
  · exact .inr h

/-- A removal keeps the bodies of what it leaves when it counts every row it leaves as a
user. -/
theorem Rows.UsersHaveBodies.hardDelete (h : reg.rows.UsersHaveBodies)
    (hused : ∀ p ∈ rows, ∀ subject v vr, reg.rows (.version p.1.context subject v) = some vr →
      vr.id = p.2.2.id → Outside rows p.1.context subject v →
      stillUsed reg.reader p.1 p.2.1 p.2.2.id also = true) :
    (reg.rows.after (hardDeleteAll reg.reader rows also).1).UsersHaveBodies := by
  rintro ctx id ⟨subject, v, vr, hrow, hid⟩
  rcases version_hardDeleteAll reg rows also reg.rows ctx subject v with ⟨-, hgone⟩ | ⟨hout, hsame⟩
  · rw [hgone] at hrow
    cases hrow
  · rw [hsame] at hrow
    rcases after_hardDeleteAll reg.reader rows also (k := .body ctx id) reg.rows fun _ =>
      exists_deletes_body with ⟨⟨p, hp, rfl, rfl, hstill, -⟩, -⟩ | ⟨-, hsame'⟩
    · have := hused p hp subject v vr hrow hid hout
      rw [hstill] at this
      cases this
    · rw [hsame']
      exact h ctx id ⟨subject, v, vr, hrow, hid⟩

/-- A removal leaves no body behind when what it counts as a user is a row it leaves. -/
theorem Rows.BodiesHaveUsers.hardDelete (h : reg.rows.BodiesHaveUsers)
    (hrows : ∀ p ∈ rows, p.2 ∈ reg.reader.listVersions p.1.context p.1.subject)
    (hused : ∀ p ∈ rows, stillUsed reg.reader p.1 p.2.1 p.2.2.id also = true →
      ∃ subject v vr, reg.rows (.version p.1.context subject v) = some vr ∧ vr.id = p.2.2.id ∧
        Outside rows p.1.context subject v) :
    (reg.rows.after (hardDeleteAll reg.reader rows also).1).BodiesHaveUsers := by
  intro ctx id hsome
  rcases after_hardDeleteAll reg.reader rows also (k := .body ctx id) reg.rows fun _ =>
    exists_deletes_body with ⟨-, hgone⟩ | ⟨hkept, hsame⟩
  · rw [hgone] at hsome
    cases hsome
  · rw [hsame] at hsome
    obtain ⟨subject, v, vr, hrow, hid⟩ := h ctx id hsome
    rcases version_hardDeleteAll reg rows also reg.rows ctx subject v with ⟨hin, -⟩ | ⟨-, hsame'⟩
    · -- The user goes, so another one that stays must have kept the body.
      unfold Outside at hin
      push Not at hin
      obtain ⟨p, hp, hq, hv⟩ := hin
      have hvr : reg.rows (.version p.1.context p.1.subject p.2.1) = some p.2.2 :=
        Registry.mem_listVersions.mp (hrows p hp)
      rw [hq, hv, hrow, Option.some.injEq] at hvr
      subst hvr
      have hstill : stillUsed reg.reader p.1 p.2.1 p.2.2.id also = true := by
        by_contra hstill
        refine hkept p hp ⟨by rw [hq], hid, by simpa using hstill, ?_⟩
        rw [hq, hid]
        exact hsome
      obtain ⟨subject', v', vr', hrow', hid', hout⟩ := hused p hp hstill
      rw [hq] at hrow' hout
      rcases version_hardDeleteAll reg rows also reg.rows ctx subject' v' with
        ⟨hin', -⟩ | ⟨-, hsame'⟩
      · exact (hin' hout).elim
      · exact ⟨subject', v', vr', hsame'.trans hrow', hid'.trans hid⟩
    · exact ⟨subject, v, vr, hsame'.trans hrow, hid⟩

end HardDelete

theorem not_mem_keys_of_isSetting {w : Write} (h : w.IsSetting) :
    (∀ ctx subject v, .version ctx subject v ∉ w.keys) ∧ (∀ ctx id, .body ctx id ∉ w.keys) ∧
      (∀ ctx subject v id, .refby ctx subject v id ∉ w.keys) ∧ ∀ ctx, .nextId ctx ∉ w.keys := by
  cases w <;> simp_all [Write.IsSetting, Write.keys]

/-- A row of one subject counts as a user until it is among those that go. -/
theorem stillUsed_of_subject (hc : reg.snapshot.Consistent) {q : QualifiedSubject}
    {rows : List (UInt32 × VersionRecord)} {p : UInt32 × VersionRecord} (hp : p ∈ rows) :
    stillUsed reg.reader q p.1 p.2.id (rows.map fun p => (q.subject, p.1)) = true ↔
      ∃ subject v vr, reg.rows (.version q.context subject v) = some vr ∧ vr.id = p.2.id ∧
        Outside (rows.map fun p => (q, p.1, p.2)) q.context subject v := by
  rw [stillUsed_iff hc]
  refine exists_congr fun subject => exists_congr fun v => exists_congr fun vr =>
    and_congr_right fun _ => and_congr_right fun _ => ?_
  simp only [Outside, List.mem_map, Prod.mk.injEq, forall_exists_index, and_imp,
    forall_apply_eq_imp_iff₂]
  constructor
  · rintro hnot p' hp' ⟨hq, rfl⟩
    have hs : q.subject = subject := congrArg QualifiedSubject.subject hq
    exact hnot ⟨hs.symm, .inr ⟨p', hp', hs, rfl⟩⟩
  · rintro hout ⟨rfl, rfl | ⟨p', hp', -, rfl⟩⟩
    · exact hout p hp ⟨rfl, rfl⟩
    · exact hout p' hp' ⟨rfl, rfl⟩

/-- What a step leaves of ids and bodies when it neither stores nor removes a version. -/
structure SameBodies (ρ ρ' : Rows) : Prop where
  body : ∀ ctx id, ρ' (.body ctx id) = ρ (.body ctx id)
  ids : ∀ ctx subject v,
    (ρ' (.version ctx subject v)).map (·.id) = (ρ (.version ctx subject v)).map (·.id)

theorem SameBodies.uses_iff {ρ ρ' : Rows} (h : SameBodies ρ ρ') (ctx : String) (id : UInt32) :
    ρ'.Uses ctx id ↔ ρ.Uses ctx id := by
  have huses : ∀ σ : Rows, σ.Uses ctx id ↔
      ∃ subject v, (σ (.version ctx subject v)).map (·.id) = some id := fun σ => by
    simp [Rows.Uses]
  simp only [huses, h.ids]

theorem Rows.UsersHaveBodies.same {ρ ρ' : Rows} (h : ρ.UsersHaveBodies) (hsame : SameBodies ρ ρ') :
    ρ'.UsersHaveBodies := by
  intro ctx id hused
  rw [hsame.body]
  exact h ctx id ((hsame.uses_iff ctx id).mp hused)

theorem Rows.BodiesHaveUsers.same {ρ ρ' : Rows} (h : ρ.BodiesHaveUsers) (hsame : SameBodies ρ ρ') :
    ρ'.BodiesHaveUsers := by
  intro ctx id hbody
  rw [hsame.body] at hbody
  exact (hsame.uses_iff ctx id).mpr (h ctx id hbody)

theorem sameBodies_settings {ρ : Rows} {ws : List Write} (hws : ∀ w ∈ ws, w.IsSetting) :
    SameBodies ρ (ρ.after ws) where
  body ctx id := writeAll_of_untouched fun w hw =>
    Write.touch_eq_none ((not_mem_keys_of_isSetting (hws w hw)).2.1 ctx id)
  ids ctx subject v := congrArg _ <| writeAll_of_untouched fun w hw =>
    Write.touch_eq_none ((not_mem_keys_of_isSetting (hws w hw)).1 ctx subject v)

/-- The version rows after a soft delete: flagged, or left alone. -/
theorem version_softDelete {q : QualifiedSubject} {rows : List (UInt32 × VersionRecord)}
    {extra : List Write} (hrows : ∀ p ∈ rows, reg.reader.Removable q false p)
    (hextra : ∀ w ∈ extra, w.IsSetting) (ctx subject : String) (v : UInt32) :
    (∃ vr, (v, vr) ∈ rows ∧ q = ⟨ctx, subject⟩ ∧ reg.rows (.version ctx subject v) = some vr ∧
      reg.rows.after (rows.map (fun p => softDeleteWrite q p.1 p.2) ++ extra)
        (.version ctx subject v) = some { vr with deleted := true }) ∨
    reg.rows.after (rows.map (fun p => softDeleteWrite q p.1 p.2) ++ extra)
      (.version ctx subject v) = reg.rows (.version ctx subject v) := by
  rcases writeAll_cases Write.touch reg.rows
      (rows.map (fun p => softDeleteWrite q p.1 p.2) ++ extra) (.version ctx subject v) with
    ⟨hsame, -⟩ | ⟨w, hw, hx⟩
  · exact .inr hsame
  · rcases List.mem_append.mp hw with hw | hw
    · obtain ⟨p, hp, rfl⟩ := List.mem_map.mp hw
      have hrow := Registry.mem_listVersions.mp (hrows p hp).1
      simp only [softDeleteWrite, Write.touch, Option.ite_none_right_eq_some,
        Option.some.injEq] at hx
      obtain ⟨⟨rfl, rfl, rfl⟩, hx⟩ := hx
      exact .inl ⟨p.2, hp, rfl, hrow, hx.symm⟩
    · rw [Write.touch_eq_none ((not_mem_keys_of_isSetting (hextra w hw)).1 ctx subject v)] at hx
      cases hx

theorem sameBodies_softDelete {q : QualifiedSubject}
    {rows : List (UInt32 × VersionRecord)} {extra : List Write}
    (hrows : ∀ p ∈ rows, reg.reader.Removable q false p) (hextra : ∀ w ∈ extra, w.IsSetting) :
    SameBodies reg.rows
      (reg.rows.after (rows.map (fun p => softDeleteWrite q p.1 p.2) ++ extra)) where
  body ctx id := by
    refine writeAll_of_untouched fun w hw => Write.touch_eq_none ?_
    rcases List.mem_append.mp hw with hw | hw
    · obtain ⟨p, -, rfl⟩ := List.mem_map.mp hw
      simp [softDeleteWrite, Write.keys]
    · exact (not_mem_keys_of_isSetting (hextra w hw)).2.1 ctx id
  ids ctx subject v := by
    rcases version_softDelete hrows hextra ctx subject v with ⟨vr, -, -, hrow, hafter⟩ | hsame
    · rw [hafter, hrow]
      rfl
    · rw [hsame]

/-- No two subjects of one context among the rows that go share an id. -/
def IdsApart (rows : List (QualifiedSubject × UInt32 × VersionRecord)) : Prop :=
  ∀ p ∈ rows, ∀ p' ∈ rows, p.1.context = p'.1.context → p.2.2.id = p'.2.2.id →
    p.1.subject = p'.1.subject

instance (rows : List (QualifiedSubject × UInt32 × VersionRecord)) : Decidable (IdsApart rows) :=
  inferInstanceAs (Decidable (∀ p ∈ rows, ∀ p' ∈ rows, _))

/-- A row that a purge leaves counts as a user. -/
theorem stillUsed_of_outside_doomed (hc : reg.snapshot.Consistent) {m : SetMode}
    {p : QualifiedSubject × UInt32 × VersionRecord} (hp : p ∈ m.doomed reg.reader)
    {also : List (String × UInt32)} {subject : String} {v : UInt32} {vr : VersionRecord}
    (hrow : reg.rows (.version p.1.context subject v) = some vr) (hid : vr.id = p.2.2.id)
    (hout : Outside (m.doomed reg.reader) p.1.context subject v) :
    stillUsed reg.reader p.1 p.2.1 p.2.2.id also = true := by
  refine (stillUsed_iff hc).mpr ⟨subject, v, vr, hrow, hid, ?_⟩
  -- Every row of a subject in scope goes, so a row that stays is of another subject.
  rintro ⟨rfl, -⟩
  exact hout (p.1, v, vr) (mem_doomed.mpr ⟨(mem_doomed.mp hp).1,
    Registry.mem_listVersions.mpr hrow⟩) ⟨rfl, rfl⟩

/-- With ids apart, what a purge counts as a user is a row that it leaves. -/
theorem outside_doomed_of_stillUsed (hc : reg.snapshot.Consistent) {m : SetMode}
    (hapart : IdsApart (m.doomed reg.reader)) {p : QualifiedSubject × UInt32 × VersionRecord}
    (hp : p ∈ m.doomed reg.reader)
    (hused : stillUsed reg.reader p.1 p.2.1 p.2.2.id
      ((m.doomed reg.reader).map fun p => (p.1.subject, p.2.1)) = true) :
    ∃ subject v vr, reg.rows (.version p.1.context subject v) = some vr ∧ vr.id = p.2.2.id ∧
      Outside (m.doomed reg.reader) p.1.context subject v := by
  obtain ⟨subject, v, vr, hrow, hid, hnot⟩ := (stillUsed_iff hc).mp hused
  refine ⟨subject, v, vr, hrow, hid, ?_⟩
  rintro p' hp' ⟨hq, rfl⟩
  have hrow' := Registry.mem_listVersions.mp (mem_doomed.mp hp').2
  rw [hq, hrow, Option.some.injEq] at hrow'
  have hsubject := hapart p hp p' hp' (by rw [hq]) (by rw [← hid, hrow'])
  have hs : p'.1.subject = subject := congrArg QualifiedSubject.subject hq
  exact hnot ⟨hs.symm.trans hsubject.symm, .inr (List.mem_map.mpr ⟨p', hp', by rw [hs]⟩)⟩

section Register

variable {q : QualifiedSubject} {version id : UInt32} {c : Canon srv.fmt.Inner}

/-- A version row after a registration is the new one, or was there and stayed. -/
theorem version_of_register {ctx subject : String} {v : UInt32} {vr : VersionRecord}
    (hrow : reg.rows.after (RegisterSchema.written srv (reg.view now guid) q version id c)
      (.version ctx subject v)
        = some vr) :
    q = ⟨ctx, subject⟩ ∧ v = version ∧ vr = ⟨id, false, now⟩ ∨
      ¬ (q = ⟨ctx, subject⟩ ∧ v = version) ∧ reg.rows (.version ctx subject v) = some vr := by
  rcases version_register srv (reg.view now guid) q version id c reg.rows ctx subject v with
    ⟨⟨hq, hv⟩, hnew⟩ | ⟨hne, ⟨-, hgone⟩ | ⟨-, hsame⟩⟩
  · rw [hnew, Option.some.injEq] at hrow
    exact .inl ⟨hq, hv, hrow.symm⟩
  · rw [hgone] at hrow
    cases hrow
  · exact .inr ⟨hne, hsame.symm.trans hrow⟩

/-- A version row that is neither written nor stale stays. -/
theorem version_kept_register {ctx subject : String} {v : UInt32} {vr : VersionRecord}
    (hrow : reg.rows (.version ctx subject v) = some vr)
    (hne : ¬ (q = ⟨ctx, subject⟩ ∧ v = version))
    (hstale : q.context = ctx → vr.id = id → vr.deleted = false) :
    reg.rows.after (RegisterSchema.written srv (reg.view now guid) q version id c)
      (.version ctx subject v)
        = some vr := by
  rcases version_register srv (reg.view now guid) q version id c reg.rows ctx subject v with
    ⟨hq, -⟩ | ⟨-, ⟨⟨rfl, vr', hmem, hdel, hid', -⟩, -⟩ | ⟨-, hsame⟩⟩
  · exact (hne hq).elim
  · have hrow' := Registry.mem_listVersions.mp hmem
    rw [hrow, Option.some.injEq] at hrow'
    subst hrow'
    rw [hstale rfl hid'] at hdel
    cases hdel
  · exact hsame.trans hrow

/-- A registration stores the body of its id, and takes out another one only when no row is
left to use it. -/
theorem Rows.UsersHaveBodies.register (h : reg.rows.UsersHaveBodies)
    (hc : reg.snapshot.Consistent) :
    (reg.rows.after
      (RegisterSchema.written srv (reg.view now guid) q version id c)).UsersHaveBodies := by
  rintro ctx i ⟨subject, v, vr, hrow, hid⟩
  rcases body_register srv (reg.view now guid) q version id c reg.rows ctx i with
    ⟨-, hbody⟩ | ⟨hown, hbody⟩
  · rw [hbody]
    rfl
  · rcases version_of_register hrow with ⟨rfl, -, rfl⟩ | ⟨hne, hrow⟩
    · exact (hown ⟨rfl, hid.symm⟩).elim
    · rcases hbody with ⟨⟨old, -, rfl, rfl, hused⟩, -⟩ | ⟨-, hsame⟩
      · have : stillUsed reg.reader q version old.id [] = true :=
          (stillUsed_iff hc).mpr ⟨subject, v, vr, hrow, hid, by
            rintro ⟨rfl, rfl | hmem⟩
            · exact hne ⟨rfl, rfl⟩
            · cases hmem⟩
        exact absurd (hused.symm.trans this) (by simp)
      · rw [hsame]
        exact h ctx i ⟨subject, v, vr, hrow, hid⟩

/-- A registration leaves no body behind: that of the row it replaces goes unless another
row uses it. -/
theorem Rows.BodiesHaveUsers.register (h : reg.rows.BodiesHaveUsers)
    (hc : reg.snapshot.Consistent) :
    (reg.rows.after
      (RegisterSchema.written srv (reg.view now guid) q version id c)).BodiesHaveUsers := by
  intro ctx i hsome
  rcases body_register srv (reg.view now guid) q version id c reg.rows ctx i with
    ⟨⟨rfl, rfl⟩, -⟩ | ⟨hown, ⟨-, hgone⟩ | ⟨hall, hsame⟩⟩
  · rcases version_register srv (reg.view now guid) q version i c reg.rows q.context q.subject
      version with ⟨-, hrow⟩ | ⟨hne, -⟩
    · exact ⟨q.subject, version, _, hrow, rfl⟩
    · exact (hne ⟨rfl, rfl⟩).elim
  · rw [hgone] at hsome
    cases hsome
  · rw [hsame] at hsome
    obtain ⟨subject, v, vr, hrow, hid⟩ := h ctx i hsome
    have hfresh : ∀ vr' : VersionRecord, vr'.id = i → q.context = ctx → vr'.id = id →
        vr'.deleted = false := fun vr' hi hctx hid' => (hown ⟨hctx, hi.symm.trans hid'⟩).elim
    by_cases hq : q = ⟨ctx, subject⟩ ∧ v = version
    · -- The row being replaced uses the id; its body stayed, so another row does too.
      obtain ⟨rfl, rfl⟩ := hq
      have hstill : stillUsed reg.reader ⟨ctx, subject⟩ v vr.id [] = true := by
        by_contra hstill
        have hnone : reg.rows (.body ctx i) = none := hall vr (Registry.mem_listVersions.mpr hrow)
          rfl hid (by simpa using hstill)
        rw [hnone] at hsome
        cases hsome
      obtain ⟨subject', v', vr', hrow', hid', hnot⟩ := (stillUsed_iff hc).mp hstill
      refine ⟨subject', v', vr', version_kept_register hrow' ?_ (hfresh vr' (hid'.trans hid)),
        hid'.trans hid⟩
      rintro ⟨hq, rfl⟩
      exact hnot ⟨(congrArg QualifiedSubject.subject hq).symm, .inl rfl⟩
    · exact ⟨subject, v, vr, version_kept_register hrow hq (hfresh vr hid), hid⟩

end Register

/-- No verb removes a body that a version row uses. -/
theorem Rows.UsersHaveBodies.effect (h : reg.rows.UsersHaveBodies) (hc : reg.snapshot.Consistent)
    (heff : Effect srv (reg.view now guid) verb ws evs) : (reg.rows.after ws).UsersHaveBodies := by
  cases heff with
  | silent => exact h
  | settings hws => exact h.same (sameBodies_settings hws)
  | softDelete q rows extra hrows hextra => exact h.same (sameBodies_softDelete hrows hextra)
  | hardDelete q rows hrows =>
    refine h.hardDelete fun p hp subject v vr hrow hid hout => ?_
    obtain ⟨p', hp', rfl⟩ := List.mem_map.mp hp
    exact (stillUsed_of_subject hc hp').mpr ⟨subject, v, vr, hrow, hid, hout⟩
  | purge m hm hpurges hrows =>
    rw [Rows.after, writeAll_append]
    exact (h.hardDelete fun p hp subject v vr hrow hid hout =>
      stillUsed_of_outside_doomed hc hp hrow hid hout).same
        (sameBodies_settings (by simp [Write.IsSetting]))
  | register m hm x hx version id hversion hid => exact h.register hc

/-- The condition under which a step keeps bodies and usages in agreement: if it purges, the
subjects it purges do not share ids. -/
def Registry.PurgesApart (reg : Registry) (req : Request) : Prop :=
  ∀ subject mode force, req.verb = .setMode subject mode force →
    (SetMode.new subject mode force).purges reg.reader = true →
    IdsApart ((SetMode.new subject mode force).doomed reg.reader)

/-- Only a purge of subjects that share ids leaves a body behind. -/
theorem Rows.BodiesHaveUsers.effect (h : reg.rows.BodiesHaveUsers) (hc : reg.snapshot.Consistent)
    (hapart : reg.PurgesApart ⟨verb, now, guid⟩)
    (heff : Effect srv (reg.view now guid) verb ws evs) : (reg.rows.after ws).BodiesHaveUsers := by
  cases heff with
  | silent => exact h
  | settings hws => exact h.same (sameBodies_settings hws)
  | softDelete q rows extra hrows hextra => exact h.same (sameBodies_softDelete hrows hextra)
  | hardDelete q rows hrows =>
    refine h.hardDelete (fun p hp => ?_) fun p hp => ?_
    · obtain ⟨p', hp', rfl⟩ := List.mem_map.mp hp
      exact (hrows p' hp').1
    · obtain ⟨p', hp', rfl⟩ := List.mem_map.mp hp
      exact (stillUsed_of_subject hc hp').mp
  | purge m hm hpurges hrows =>
    subst hm
    have hids := hapart _ _ _ rfl hpurges
    rw [Rows.after, writeAll_append]
    exact (h.hardDelete (fun p hp => (hrows p hp).1) fun p hp =>
      outside_doomed_of_stillUsed hc hids hp).same
        (sameBodies_settings (by simp [Write.IsSetting]))
  | register m hm x hx version id hversion hid => exact h.register hc

/-- The state of a container in which bodies and usages agree. -/
structure Registry.BodiesAgree (reg : Registry) : Prop where
  consistent : reg.snapshot.Consistent
  present : reg.rows.UsersHaveBodies
  used : reg.rows.BodiesHaveUsers

theorem Registry.BodiesAgree.step {req : Request} (h : reg.BodiesAgree)
    (hapart : reg.PurgesApart req) : (reg.step srv req).BodiesAgree := by
  obtain ⟨ws, evs, heff, hstep⟩ := Registry.rows_step srv reg req
  refine ⟨consistent_step h.consistent, ?_, ?_⟩ <;> rw [hstep]
  · exact h.present.effect h.consistent heff
  · exact h.used.effect h.consistent hapart heff

theorem Registry.bodiesAgree_empty (tenant : TenantId) : (Registry.empty tenant).BodiesAgree := by
  refine ⟨Snapshot.consistent_new, ?_, ?_⟩ <;> rw [Registry.rows_empty]
  · rintro ctx id ⟨subject, v, vr, hrow, -⟩
    cases hrow
  · intro ctx id hsome
    cases hsome

/-- In every history whose purges keep ids apart, a body is stored exactly when a version row
of its context holds its id. -/
theorem bodiesUsed_of_purgesApart (srv : Server) (tenant : TenantId) (reqs : List Request)
    (hapart : Along (Registry.step srv) Registry.PurgesApart (Registry.empty tenant) reqs)
    (ctx : String) (id : UInt32) :
    let reg := (Registry.empty tenant).runAll srv reqs
    (reg.reader.getSchema ctx id).isSome = true ↔
      ∃ subject v vr, reg.reader.getVersion ctx subject v = some vr ∧ vr.id = id := by
  have hinv : ((Registry.empty tenant).runAll srv reqs).BodiesAgree :=
    inv_of_along hapart (Registry.bodiesAgree_empty tenant) fun _ _ h hok => h.step hok
  exact ⟨hinv.used ctx id, hinv.present ctx id⟩

/-- Two subjects that hold one id, both soft-deleted, and then a purge of the registry. -/
def sharedIdHistory : List Request :=
  [registerText "s" "\"string\"", registerText "t" "\"string\"",
    plainRequest (.deleteSubject "s" false), plainRequest (.deleteSubject "t" false),
    plainRequest (.setMode none .«import» false)]

/-- Each of the two rows counts the other as a user, so the purge leaves their body behind. -/
theorem orphan_after_sharedIdHistory :
    ¬ (((plainRun sharedIdHistory).reader.getSchema "." 1).isSome
        = true ↔
      ∃ subject v vr, (plainRun
        sharedIdHistory).reader.getVersion "." subject v = some vr ∧ vr.id = 1) := by
  have hbody : ((plainRun sharedIdHistory).reader.getSchema
      "." 1).isSome = true := by decide
  have husages : (plainRun sharedIdHistory).reader.idUsages
      "." 1 = [] := by decide
  intro hiff
  obtain ⟨subject, v, hrow⟩ := hiff.mp hbody
  have hmem := (Registry.mem_idUsages (consistent_runAll .default sharedIdHistory)
    (p := (subject, v))).mpr hrow
  rw [husages] at hmem
  cases hmem

/-- The same history with different texts, whose purge keeps ids apart. -/
def apartHistory : List Request :=
  [registerText "s" "\"string\"", registerText "t" "\"int\"",
    plainRequest (.deleteSubject "s" false), plainRequest (.deleteSubject "t" false),
    plainRequest (.setMode none .«import» false)]

theorem bodiesUsed_apartHistory :
    Along (Registry.step plainServer) Registry.PurgesApart (Registry.empty .default) apartHistory ∧
    (((plainRun apartHistory).reader.getSchema "." 1).isSome = true ↔
      ∃ subject v vr, (plainRun
        apartHistory).reader.getVersion "." subject v = some vr ∧ vr.id = 1) := by
  have hapart : Along (Registry.step plainServer) Registry.PurgesApart (Registry.empty .default)
      apartHistory := by
    refine ⟨?_, ?_, ?_, ?_, ?_, trivial⟩ <;> intro subject mode force hverb _ <;> cases hverb
    decide
  exact ⟨hapart, bodiesUsed_of_purgesApart plainServer .default apartHistory hapart "." 1⟩

end SchemaRegistry

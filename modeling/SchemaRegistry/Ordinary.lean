import SchemaRegistry.Lib.Lists
import SchemaRegistry.Edges

/-!
Ordinary registrations: the numbers they hand out stay in range, their references
stay in their context, and no other content has their fingerprint. Along such
registrations every stored reference names its target by a positive number, and ids
are handed out in order.
-/

namespace SchemaRegistry

open Lib

variable {srv : Server} {reg : Registry} {verb : Verb} {now : Int} {guid : String}
  {ws : List Write} {evs : List LogEvent}

/-! ### Version numbers as machine integers -/

theorem toInt_toInt32 {v : UInt32} (h : v.toNat < 2 ^ 31) : v.toInt32.toInt = v.toNat := by
  rw [← Int32.toInt_toBitVec]
  change v.toBitVec.toInt = v.toNat
  rw [BitVec.toInt_eq_toNat_of_lt]
  · rfl
  · change 2 * v.toNat < _
    omega

theorem toInt32_pos {v : UInt32} (h0 : 0 < v) (h : v.toNat < 2 ^ 31) : 0 < v.toInt32 := by
  have h0' : 0 < v.toNat := UInt32.lt_iff_toNat_lt.mp h0
  rw [Int32.lt_iff_toInt_lt, toInt_toInt32 h]
  simpa using h0'

theorem toInt32_nonneg {v : UInt32} (h : v.toNat < 2 ^ 31) : 0 ≤ v.toInt32 := by
  rw [Int32.le_iff_toInt_le, toInt_toInt32 h]
  simp

theorem toUInt32_range {d : Int32} (h : 0 < d) : 0 < d.toUInt32 ∧ d.toUInt32.toNat < 2 ^ 31 := by
  have hpos : 0 < d.toBitVec.toInt := by simpa using Int32.lt_iff_toInt_lt.mp h
  have hcast : d.toUInt32.toNat = d.toBitVec.toNat := rfl
  have hlt := d.toBitVec.isLt
  rw [UInt32.lt_iff_toNat_lt, hcast]
  rw [BitVec.toInt_eq_toNat_cond] at hpos
  change 0 < _ ∧ _
  split at hpos <;> omega

/-- A stored reference with a positive number points at that number. -/
theorem SchemaReference.target_of_pos {sr : SchemaReference} (h : 0 < sr.version) :
    sr.target = sr.version.toUInt32 := by
  have hmax : max sr.version 1 = sr.version := by
    change (if sr.version ≤ 1 then 1 else sr.version) = sr.version
    split
    · next hle =>
        have hlt := Int32.lt_iff_toInt_lt.mp h
        have hle := Int32.le_iff_toInt_le.mp hle
        refine Int32.toInt_inj.mp ?_
        simp only [Int32.reduceToInt] at hlt hle ⊢
        omega
    · rfl
  rw [target, hmax]

/-- A subject's next number is one more than its newest, unless the last number is taken. -/
theorem newVersion_eq {versions : List (UInt32 × VersionRecord)}
    (h : ∀ p ∈ versions, p.1.toNat + 1 < 2 ^ 32) :
    versions = [] ∧ RegisterSchema.newVersion versions = 1 ∨
      ∃ p ∈ versions, (RegisterSchema.newVersion versions).toNat = p.1.toNat + 1 ∧
        ∀ p' ∈ versions, p'.1 ≤ p.1 := by
  unfold RegisterSchema.newVersion
  split
  · next m hmax =>
      obtain ⟨hmem, hle⟩ := List.max?_eq_some_iff.mp hmax
      obtain ⟨p, hp, rfl⟩ := List.mem_map.mp hmem
      refine .inr ⟨p, hp, ?_, fun p' hp' => hle p'.1 (List.mem_map_of_mem hp')⟩
      rw [UInt32.toNat_add]
      exact Nat.mod_eq_of_lt (h p hp)
  · next hmax => exact .inl ⟨by simpa using hmax, rfl⟩

theorem lt_newVersion {versions : List (UInt32 × VersionRecord)}
    (h : ∀ p ∈ versions, p.1.toNat + 1 < 2 ^ 32) :
    ∀ p ∈ versions, p.1 < RegisterSchema.newVersion versions := by
  intro p hp
  rcases newVersion_eq h with ⟨rfl, -⟩ | ⟨p', -, hnew, hle⟩
  · cases hp
  · have := UInt32.le_iff_toNat_le.mp (hle p hp)
    rw [UInt32.lt_iff_toNat_lt]
    omega

/-- The next number is in range and free when the newest is not the last number. -/
theorem newVersion_spec {versions : List (UInt32 × VersionRecord)}
    (h : ∀ p ∈ versions, p.1.toNat + 1 < 2 ^ 31) :
    0 < RegisterSchema.newVersion versions ∧ (RegisterSchema.newVersion versions).toNat < 2 ^ 31 ∧
      ∀ p ∈ versions, p.1 < RegisterSchema.newVersion versions := by
  have h32 : ∀ p ∈ versions, p.1.toNat + 1 < 2 ^ 32 := fun p hp => (h p hp).trans (by decide)
  refine and_assoc.mp ⟨?_, lt_newVersion h32⟩
  rcases newVersion_eq h32 with ⟨-, hone⟩ | ⟨p, hp, hnew, -⟩
  · rw [hone]
    decide
  · rw [UInt32.lt_iff_toNat_lt, hnew]
    exact ⟨Nat.succ_pos _, h p hp⟩

theorem toUInt32_lt {d : Int32} (h : 0 ≤ d) : d.toUInt32.toNat < 2 ^ 31 := by
  have hpos : 0 ≤ d.toBitVec.toInt := by simpa using Int32.le_iff_toInt_le.mp h
  have hcast : d.toUInt32.toNat = d.toBitVec.toNat := rfl
  have hlt := d.toBitVec.isLt
  rw [hcast]
  rw [BitVec.toInt_eq_toNat_cond] at hpos
  split at hpos <;> omega

/-! ### Ordinary registrations -/

/-- A registration that stays clear of the edges of the id and number spaces, and of fingerprint
collisions. -/
structure RegisterSchema.InRange (srv : Server) (view : ReadView) (m : RegisterSchema) : Prop where
  /-- The subject has a next version number, and a reference can name it. -/
  versions : ∀ p ∈ view.reader.listVersions m.subject.context m.subject.subject,
    p.1.toNat + 1 < 2 ^ 31
  /-- The context has a next id. -/
  nextId : (view.reader.nextId m.subject.context).toNat + 1 < 2 ^ 32
  /-- No body of the context has its fingerprint but other references. -/
  distinct : ∀ c ∈ m.content srv view, ∀ i rec,
    view.reader.getSchema m.subject.context i = some rec → rec.fingerprint = c.fingerprint →
    rec.references = c.refs

/-- One that stays clear of other contexts too. -/
structure RegisterSchema.Ordinary (srv : Server) (view : ReadView) (m : RegisterSchema) : Prop
    extends m.InRange srv view where
  /-- Its references stay in its context. -/
  refs : ∀ rin ∈ m.draft.refs, ∀ subject ∈ rin.subject,
    (pointsAt m.subject.context subject).context = m.subject.context

/-- A step that, if it registers, does so ordinarily. -/
def Registry.Ordinary (srv : Server) (reg : Registry) (req : Request) : Prop :=
  ∀ subject body normalize m, req.verb = .register subject body normalize →
    RegisterSchema.new subject body normalize = .ok m →
    m.Ordinary srv (reg.view req.now req.newGuid)

/-- Version numbers fit a reference, and ids are below the counter. -/
structure Registry.InBounds (reg : Registry) : Prop where
  consistent : reg.snapshot.Consistent
  present : reg.rows.UsersHaveBodies
  versions : ∀ {ctx subject v vr}, reg.rows (.version ctx subject v) = some vr →
    0 < v ∧ v.toNat < 2 ^ 31
  ids : ∀ {ctx subject v vr}, reg.rows (.version ctx subject v) = some vr →
    vr.id < reg.reader.nextId ctx

/-- And every stored reference stays in its context and has a positive number. -/
structure Registry.InOrder (reg : Registry) : Prop extends reg.InBounds where
  refs : ∀ {ctx id rec}, reg.rows (.body ctx id) = some rec → ∀ sr ∈ rec.references,
    (refTarget ctx sr).context = ctx ∧ 0 < sr.version

/-- A reference that was resolved is stored by a positive number, and leads where it led. -/
theorem Registry.InBounds.found (h : reg.InBounds) {ctx : String} {refs : List RefIn}
    {f : ResolvedReference} (hf : ReferenceFound reg.reader ctx refs f) :
    0 < f.concrete.version ∧ f.target = (refTarget ctx f.concrete, f.concrete.target) := by
  obtain ⟨vr, hrow⟩ := hf.row
  obtain ⟨hv0, hv⟩ := h.versions hrow
  have hpos : 0 < f.concrete.version := hf.version ▸ toInt32_pos hv0 hv
  refine ⟨hpos, Prod.ext hf.target ?_⟩
  rw [SchemaReference.target_of_pos hpos, hf.version]
  simp

/-- The edges of a registration lead to the targets of the references it stores. -/
theorem Registry.InBounds.targets (h : reg.InBounds) {ctx : String} {refsIn : List RefIn}
    {refs : List SchemaReference} {targets : List (QualifiedSubject × UInt32)}
    {found : List ResolvedReference} (hcanon : Canonical reg.reader ctx refsIn refs targets found) :
    targets = refs.map fun sr => (refTarget ctx sr, sr.target) := by
  rw [hcanon.refs, hcanon.targets, List.map_map]
  exact List.map_congr_left fun f hf => (h.found (hcanon.each f hf)).2

section Registration

variable {m : RegisterSchema} {x : RegisterSchema.Resolved srv.fmt.Inner} {version id : UInt32}

/-- What an ordinary registration resolved: in its context, by positive number. -/
theorem Registry.InOrder.found (h : reg.InOrder) (hord : m.Ordinary srv (reg.view now guid))
    (hx : m.resolve srv (reg.view now guid) = .ok (.inr x)) {f : ResolvedReference}
    (hf : ReferenceFound reg.reader m.subject.context x.draft.refs f) :
    (refTarget m.subject.context f.concrete).context = m.subject.context ∧ 0 < f.concrete.version ∧
      f.target = (refTarget m.subject.context f.concrete, f.concrete.target) := by
  obtain ⟨rin, hrin, hsubject, -⟩ := hf.source
  refine ⟨?_, h.toInBounds.found hf⟩
  rcases (resolve_spec hx).inherits.refs with hrefs | ⟨p, rec, -, hrec, hrefs⟩
  · exact hord.refs rin (hrefs ▸ hrin) _ hsubject
  · rw [hrefs] at hrin
    obtain ⟨sr, hsr, rfl⟩ := List.mem_map.mp hrin
    have hlocal := (h.refs hrec sr hsr).1
    rwa [refTarget_eq, show sr.subject = f.concrete.subject from Option.some.inj hsubject] at hlocal

/-- The references an ordinary registration stores, and the edges to their targets. -/
theorem Registry.InOrder.resolved (h : reg.InOrder) (hord : m.Ordinary srv (reg.view now guid))
    (hx : m.resolve srv (reg.view now guid) = .ok (.inr x)) :
    (∀ sr ∈ x.canon.refs, (refTarget m.subject.context sr).context = m.subject.context ∧
      0 < sr.version) ∧
    x.canon.targets = x.canon.refs.map fun sr => (refTarget m.subject.context sr, sr.target) := by
  obtain ⟨found, hcanon⟩ := canonicalize_spec (resolve_spec hx).canon
  refine ⟨fun sr hsr => ?_, h.toInBounds.targets hcanon⟩
  rw [hcanon.refs] at hsr
  obtain ⟨f, hf, rfl⟩ := List.mem_map.mp hsr
  obtain ⟨hlocal, hpos, -⟩ := h.found hord hx (hcanon.each f hf)
  exact ⟨hlocal, hpos⟩

/-- The version number is in range; if it is taken, the request asked for it. -/
theorem chooseVersion_spec {taken : Bool} {d : Draft} {versions : List (UInt32 × VersionRecord)}
    (hnext : ∀ p ∈ versions, p.1.toNat + 1 < 2 ^ 31)
    (hv : RegisterSchema.chooseVersion taken d (RegisterSchema.newVersion versions) = .ok version) :
    0 < version ∧ version.toNat < 2 ^ 31 ∧
      ∀ vr, (version, vr) ∈ versions → 0 < d.version ∧ version = d.version.toUInt32 := by
  obtain ⟨hpos, hlt, hfree⟩ := newVersion_spec hnext
  unfold RegisterSchema.chooseVersion at hv
  split at hv
  · cases hv
    exact ⟨hpos, hlt, fun vr hmem => (UInt32.lt_irrefl _ (hfree _ hmem)).elim⟩
  · next hd =>
      have hd : 0 < d.version := Int32.not_le.mp hd
      split at hv
      · cases hv
      · cases hv
        exact ⟨(toUInt32_range hd).1, (toUInt32_range hd).2, fun _ _ => ⟨hd, rfl⟩⟩

/-- The id is the next one, or one whose body, if in use, has the content's fingerprint. -/
theorem chooseId_spec {ctx fp : String} {schemaId : Int32}
    (hid : RegisterSchema.chooseId reg.reader ctx fp schemaId = .ok id) :
    id = reg.reader.nextId ctx ∨ id.toNat < 2 ^ 31 ∧
      (reg.reader.idUsages ctx id ≠ [] → ∀ rec, reg.rows (.body ctx id) = some rec →
        rec.fingerprint = fp) := by
  unfold RegisterSchema.chooseId at hid
  split at hid
  · next hpos =>
      refine .inr ?_
      dsimp only at hid
      split at hid
      · next existing hbody =>
          split at hid
          · cases hid
          · next hfp =>
              cases hid
              refine ⟨toUInt32_lt hpos, fun _ rec hrec => ?_⟩
              have hget : reg.reader.getSchema ctx schemaId.toUInt32 = some rec := hrec
              split at hbody
              · cases hbody
              · rw [hget, Option.some.injEq] at hbody
                simpa [hbody] using hfp
      · next hbody =>
          cases hid
          refine ⟨toUInt32_lt hpos, fun hused rec hrec => ?_⟩
          have hget : reg.reader.getSchema ctx schemaId.toUInt32 = some rec := hrec
          rw [if_neg (by simpa using hused), hget] at hbody
          cases hbody
  · cases hid
    exact .inl rfl

/-- An id that was asked for or found is the one stored. -/
theorem Registration.id_of_nonneg {view : ReadView}
    (hreg : Registration srv view verb m x version id) (hpos : 0 ≤ x.schemaId) :
    id = x.schemaId.toUInt32 := by
  have hchosen := hreg.id
  rw [RegisterSchema.chooseId, if_pos hpos] at hchosen
  dsimp only at hchosen
  split at hchosen
  · split at hchosen
    · cases hchosen
    · exact (Except.ok.inj hchosen).symm
  · exact (Except.ok.inj hchosen).symm

/-- The id is in use, or was never given out, when that holds of an id that comes with the
request. -/
theorem Registration.used_or_beyond
    (hreg : Registration srv (reg.view now guid) verb m x version id)
    (hgiven : 0 ≤ m.draft.id → reg.reader.idUsages m.subject.context m.draft.id.toUInt32 ≠ [] ∨
      reg.reader.nextId m.subject.context ≤ m.draft.id.toUInt32) :
    reg.reader.idUsages m.subject.context id ≠ [] ∨ reg.reader.nextId m.subject.context ≤ id := by
  by_cases hpos : 0 ≤ x.schemaId
  · obtain rfl := hreg.id_of_nonneg hpos
    rcases (resolve_spec hreg.resolved).schemaId with ⟨hid, -⟩ | ⟨i, hit, hlookup, -, hid⟩
    · rw [hid, (resolve_spec hreg.resolved).inherits.id]
      rw [hid, (resolve_spec hreg.resolved).inherits.id] at hpos
      exact hgiven hpos
    · rw [hid, UInt32.toUInt32_toInt32]
      unfold hashLookup at hlookup
      obtain ⟨i', -, hlookup⟩ := Option.bind_eq_some_iff.mp hlookup
      dsimp only at hlookup
      split at hlookup
      · cases hlookup
      · next hused =>
          cases hlookup
          exact .inl (by simpa using hused)
  · have hchosen := hreg.id
    rw [RegisterSchema.chooseId, if_neg hpos] at hchosen
    cases hchosen
    exact .inr UInt32.le_rfl

/-- An id in use keeps its body, which has the content's references. -/
theorem Registry.InBounds.bodyFor_of_uses (h : reg.InBounds)
    (hrange : m.InRange srv (reg.view now guid))
    (hreg : Registration srv (reg.view now guid) verb m x version id) {rec : SchemaRecord}
    (hused : reg.rows.Uses m.subject.context id)
    (hrec : reg.rows (.body m.subject.context id) = some rec) :
    RegisterSchema.bodyFor srv (reg.view now guid) m.subject.context id x.canon = rec ∧
      rec.references = x.canon.refs := by
  obtain ⟨subject, v, vr, hrow, hid⟩ := hused
  have hfp : rec.fingerprint = x.canon.fingerprint := by
    rcases chooseId_spec hreg.id with hnext | ⟨-, hfp⟩
    · have hlt := h.ids hrow
      rw [hid, hnext] at hlt
      exact (UInt32.lt_irrefl _ hlt).elim
    · refine hfp (List.ne_nil_of_mem (a := (subject, v)) ?_) rec hrec
      exact (Registry.mem_idUsages h.consistent).mpr ⟨vr, hrow, hid⟩
  have hget : (reg.view now guid).reader.getSchema m.subject.context id = some rec := hrec
  refine ⟨?_, hrange.distinct x.canon (resolve_spec hreg.resolved).content id rec hget hfp⟩
  simp only [RegisterSchema.bodyFor, hget, hfp, if_true]

/-- The body a registration stores has the references it resolved. -/
theorem RegisterSchema.InRange.bodyFor_references (hrange : m.InRange srv (reg.view now guid))
    (hreg : Registration srv (reg.view now guid) verb m x version id) :
    (RegisterSchema.bodyFor srv (reg.view now guid) m.subject.context id x.canon).references
      = x.canon.refs := by
  unfold RegisterSchema.bodyFor
  cases hget : (reg.view now guid).reader.getSchema m.subject.context id with
  | none => rfl
  | some existing =>
    dsimp only
    split
    · next hfp =>
        exact hrange.distinct x.canon (resolve_spec hreg.resolved).content id existing hget hfp
    · rfl

/-- The counter after a registration is beyond its id and not below what it was. -/
theorem counter_register {reg' : Registry}
    (hnext : (reg.reader.nextId m.subject.context).toNat + 1 < 2 ^ 32)
    (hreg : Registration srv (reg.view now guid) verb m x version id)
    (hrows : reg'.rows = reg.rows.after
      (RegisterSchema.written srv (reg.view now guid) m.subject version id x.canon)) :
    id < reg'.reader.nextId m.subject.context ∧
      ∀ ctx, reg.reader.nextId ctx ≤ reg'.reader.nextId ctx := by
  have hid : id.toNat + 1 < 2 ^ 32 := by
    rcases chooseId_spec hreg.id with hid | ⟨hlt, -⟩
    · rw [hid]
      exact hnext
    · omega
  have hsucc : (id + 1).toNat = id.toNat + 1 := by
    rw [UInt32.toNat_add]
    exact Nat.mod_eq_of_lt hid
  have hcounter : ∀ ctx, reg'.reader.nextId ctx =
      if ctx = m.subject.context ∧ reg.reader.nextId m.subject.context ≤ id then id + 1
      else reg.reader.nextId ctx := by
    intro ctx
    rw [Registry.nextId_eq, hrows, nextId_register _ replaced_isRemoval, Registry.nextId_eq reg ctx]
    split <;> rfl
  refine ⟨?_, fun ctx => ?_⟩
  · rw [hcounter]
    split
    · rw [UInt32.lt_iff_toNat_lt, hsucc]
      exact Nat.lt_succ_self _
    · next hgt => exact UInt32.not_le.mp fun hle => hgt ⟨rfl, hle⟩
  · rw [hcounter]
    split
    · next hle =>
        obtain ⟨rfl, hle⟩ := hle
        have := UInt32.le_iff_toNat_le.mp hle
        rw [UInt32.le_iff_toNat_le, hsucc]
        omega
    · exact UInt32.le_rfl

end Registration

/-! ### Order is kept -/

theorem Registry.InBounds.shrinks {reg' : Registry} (h : reg.InBounds)
    (hc : reg'.snapshot.Consistent) (hp : reg'.rows.UsersHaveBodies)
    (hs : Shrinks reg reg'.rows) : reg'.InBounds where
  consistent := hc
  present := hp
  versions hrow := by
    obtain ⟨old, hold, -⟩ := hs.version hrow
    exact h.versions hold
  ids hrow := by
    obtain ⟨old, hold, hid, -⟩ := hs.version hrow
    rw [hid, Registry.nextId_eq, hs.nextId, ← Registry.nextId_eq]
    exact h.ids hold

section Registers

variable {reg' : Registry} {m : RegisterSchema} {x : RegisterSchema.Resolved srv.fmt.Inner}
  {version id : UInt32}

theorem Registry.InBounds.registers (h : reg.InBounds) (hrange : m.InRange srv (reg.view now guid))
    (hreg : Registration srv (reg.view now guid) verb m x version id)
    (hc : reg'.snapshot.Consistent) (hp : reg'.rows.UsersHaveBodies)
    (hrows : reg'.rows = reg.rows.after
      (RegisterSchema.written srv (reg.view now guid) m.subject version id x.canon)) :
    reg'.InBounds where
  consistent := hc
  present := hp
  versions hrow := by
    rw [hrows] at hrow
    rcases version_of_register hrow with ⟨-, rfl, -⟩ | ⟨-, hold⟩
    · obtain ⟨hpos, hlt, -⟩ := chooseVersion_spec hrange.versions hreg.version
      exact ⟨hpos, hlt⟩
    · exact h.versions hold
  ids {ctx subject v vr} hrow := by
    obtain ⟨hid, hmono⟩ := counter_register hrange.nextId hreg hrows
    rw [hrows] at hrow
    rcases version_of_register hrow with ⟨hq, -, rfl⟩ | ⟨-, hold⟩
    · rw [show ctx = m.subject.context by rw [hq]]
      exact hid
    · exact UInt32.lt_of_lt_of_le (h.ids hold) (hmono ctx)

theorem Registry.InOrder.registers (h : reg.InOrder) (hord : m.Ordinary srv (reg.view now guid))
    (hreg : Registration srv (reg.view now guid) verb m x version id)
    (hc : reg'.snapshot.Consistent) (hp : reg'.rows.UsersHaveBodies)
    (hrows : reg'.rows = reg.rows.after
      (RegisterSchema.written srv (reg.view now guid) m.subject version id x.canon)) :
    reg'.InOrder := by
  refine { h.toInBounds.registers hord.toInRange hreg hc hp hrows with refs := ?_ }
  intro ctx i rec hrec
  rw [hrows] at hrec
  by_cases hown : ctx = m.subject.context ∧ i = id
  · obtain ⟨rfl, rfl⟩ := hown
    rw [body_of_register_self, Option.some.injEq] at hrec
    rw [← hrec, hord.toInRange.bodyFor_references hreg]
    exact (h.resolved hord hreg.resolved).1
  · rw [body_of_register_ne _ hown] at hrec
    obtain ⟨D, hremoval⟩ := removal_replaced reg.reader m.subject version id
    exact h.refs (hremoval.body_of_after hrec)

end Registers

theorem Registry.InOrder.step {req : Request} (h : reg.InOrder) (hord : reg.Ordinary srv req) :
    (reg.step srv req).InOrder := by
  obtain ⟨ws, evs, heff, hstep⟩ := Registry.rows_step srv reg req
  have hc : (reg.step srv req).snapshot.Consistent := consistent_step h.consistent
  have hp : (reg.step srv req).rows.UsersHaveBodies := hstep ▸ h.present.effect h.consistent heff
  rcases heff.shrinks_or_registers with hs | ⟨m, x, version, id, hreg, rfl⟩
  · rw [← hstep] at hs
    exact { h.toInBounds.shrinks hc hp hs with refs := fun hrec => h.refs (hs.body hrec) }
  · obtain ⟨subject, body, normalize, hverb, hm⟩ := hreg.new
    exact h.registers (hord subject body normalize m hverb hm) hreg hc hp hstep

theorem Registry.inBounds_empty (tenant : TenantId) : (Registry.empty tenant).InBounds where
  consistent := Snapshot.consistent_new
  present := (Registry.bodiesAgree_empty tenant).present
  versions hrow := by
    rw [Registry.rows_empty] at hrow
    cases hrow
  ids hrow := by
    rw [Registry.rows_empty] at hrow
    cases hrow

theorem Registry.inOrder_empty (tenant : TenantId) : (Registry.empty tenant).InOrder := by
  refine { Registry.inBounds_empty tenant with refs := ?_ }
  intro ctx id rec hrec
  rw [Registry.rows_empty] at hrec
  cases hrec

/-- Where bodies and usages agree, only the bodies of listed versions can have the fingerprint. -/
theorem Registry.BodiesAgree.distinct (h : reg.BodiesAgree) {m : RegisterSchema}
    (hlisted : ∀ c ∈ m.content srv (reg.view now guid),
      ∀ s ∈ reg.reader.listSubjectNames m.subject.context,
      ∀ p ∈ reg.reader.listVersions m.subject.context s,
      ∀ rec ∈ reg.reader.getSchema m.subject.context p.2.id,
      rec.fingerprint = c.fingerprint → rec.references = c.refs) :
    ∀ c ∈ m.content srv (reg.view now guid), ∀ i rec,
      (reg.view now guid).reader.getSchema m.subject.context i = some rec →
      rec.fingerprint = c.fingerprint → rec.references = c.refs := by
  intro c hc i rec hrec hfp
  obtain ⟨subject, v, vr, hrow, rfl⟩ :=
    h.used m.subject.context i (Option.isSome_iff_exists.mpr ⟨rec, hrec⟩)
  exact hlisted c hc subject ((Registry.mem_listSubjectNames h.consistent).mpr ⟨v, vr, hrow⟩)
    (v, vr) (Registry.mem_listVersions.mpr hrow) rec hrec hfp

end SchemaRegistry

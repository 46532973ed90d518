import SchemaRegistry.Counter

/-!
Content and ids. Within a context the hash index leads from the fingerprint of every body in
use to its id, so a registration of content that is there is attached to that id, through
deletes and registrations anew. The fingerprint is taken over a printed form, in which the
members of a JSON object have an order, and the id that the index finds is carried as a
signed number: content that is equal but written in another order, and ids past the signed
numbers, get a second id.
-/

namespace SchemaRegistry

open Lib

variable {srv : Server} {reg : Registry} {verb : Verb} {now : Int} {guid : String} {ctx : String}

/-! ### Content -/

/-- What an id stands for. -/
structure Content where
  schemaType : SchemaType
  schema : String
  references : List SchemaReference
  metadata : Option Json
  ruleSet : Option Json

def SchemaRecord.content (rec : SchemaRecord) : Content :=
  ⟨rec.schemaType, rec.schema, rec.references, rec.metadata, rec.ruleSet⟩

def Canon.content {Inner : Type} (c : Canon Inner) : Content :=
  ⟨c.schemaType, c.text, c.refs, c.metadata, c.ruleSet⟩

/-- Equal values. On objects that name a member once, as all those that are read do, this is
`==`, for which the order of the members does not count. -/
def SameJson (a b : Option Json) : Prop :=
  a = b ∨ Json.eqvOpt a b = true ∧ Json.eqvOpt b a = true

theorem SameJson.eq_none {a : Option Json} (h : SameJson a none) : a = none := by
  rcases h with h | ⟨h, -⟩
  · exact h
  · cases a with
    | none => rfl
    | some v => cases h

theorem SameJson.symm {a b : Option Json} (h : SameJson a b) : SameJson b a :=
  h.imp Eq.symm And.symm

namespace Content

structure Same (a b : Content) : Prop where
  schemaType : a.schemaType = b.schemaType
  schema : a.schema = b.schema
  references : a.references = b.references
  metadata : SameJson a.metadata b.metadata
  ruleSet : SameJson a.ruleSet b.ruleSet

theorem Same.refl (a : Content) : a.Same a := ⟨rfl, rfl, rfl, .inl rfl, .inl rfl⟩

theorem Same.symm {a b : Content} (h : a.Same b) : b.Same a :=
  ⟨h.schemaType.symm, h.schema.symm, h.references.symm, h.metadata.symm, h.ruleSet.symm⟩

/-- Written alike: metadata and rules print the same. -/
def WrittenAlike (a b : Content) : Prop :=
  jsonBytes a.metadata = jsonBytes b.metadata ∧ jsonBytes a.ruleSet = jsonBytes b.ruleSet

theorem WrittenAlike.symm {a b : Content} (h : a.WrittenAlike b) : b.WrittenAlike a :=
  ⟨h.1.symm, h.2.symm⟩

theorem Same.writtenAlike_of_none {a b : Content} (h : a.Same b) (hmetadata : b.metadata = none)
    (hruleSet : b.ruleSet = none) : a.WrittenAlike b := by
  have hmeta := h.metadata
  have hrules := h.ruleSet
  rw [hmetadata] at hmeta
  rw [hruleSet] at hrules
  rw [WrittenAlike, hmeta.eq_none, hrules.eq_none, hmetadata, hruleSet]
  exact ⟨rfl, rfl⟩

def fingerprint (fmt : Formats) (a : Content) : String :=
  SchemaRegistry.fingerprint fmt a.schemaType a.schema a.references a.metadata a.ruleSet

theorem fingerprint_congr {fmt : Formats} {a b : Content} (h : a.Same b) (hw : a.WrittenAlike b) :
    a.fingerprint fmt = b.fingerprint fmt := by
  simp only [fingerprint, SchemaRegistry.fingerprint, fingerprintInput, h.schemaType, h.schema,
    h.references, hw.1, hw.2]

end Content

/-! ### Registrations that find what is there -/

/-- A registration whose context gives out ids that fit a signed number, and whose content, if
it is there, is there in the same writing. -/
structure RegisterSchema.OneSpelling (srv : Server) (view : ReadView) (m : RegisterSchema) :
    Prop where
  nextId : (view.reader.nextId m.subject.context).toNat < 2 ^ 31
  spelling : ∀ c ∈ m.content srv view, ∀ i rec,
    view.reader.getSchema m.subject.context i = some rec → rec.content.Same c.content →
    rec.content.WrittenAlike c.content

/-- A step that, if it registers, does so without an id of its own and in one spelling. -/
def Registry.OneSpelling (srv : Server) (reg : Registry) (req : Request) : Prop :=
  req.NoId ∧ ∀ subject body normalize m, req.verb = .register subject body normalize →
    RegisterSchema.new subject body normalize = .ok m →
    m.OneSpelling srv (reg.view req.now req.newGuid)

/-- The hash index leads to every body in use, and equal content is written alike. -/
structure Registry.Indexed (fmt : Formats) (reg : Registry) : Prop extends reg.Sound fmt where
  below : ∀ ctx id, reg.rows.Uses ctx id → id < reg.reader.nextId ctx
  indexed : ∀ ctx id rec, reg.rows.Uses ctx id → reg.rows (.body ctx id) = some rec →
    reg.rows (.fingerprint ctx rec.fingerprint) = some id
  alike : ∀ ctx i j rec rec', reg.rows (.body ctx i) = some rec →
    reg.rows (.body ctx j) = some rec' → rec.content.Same rec'.content →
    rec.content.WrittenAlike rec'.content

/-- In such a container equal content has one id. -/
theorem Registry.Indexed.id_eq {fmt : Formats} (h : reg.Indexed fmt) {i j : UInt32}
    {rec rec' : SchemaRecord} (hi : reg.rows.Uses ctx i) (hj : reg.rows.Uses ctx j)
    (hrec : reg.rows (.body ctx i) = some rec) (hrec' : reg.rows (.body ctx j) = some rec')
    (hsame : rec.content.Same rec'.content) : i = j := by
  have hfp : rec.fingerprint = rec'.fingerprint := calc
    rec.fingerprint = rec.content.fingerprint fmt := h.hashed ctx i rec hrec
    _ = rec'.content.fingerprint fmt :=
        Content.fingerprint_congr hsame (h.alike ctx i j rec rec' hrec hrec' hsame)
    _ = rec'.fingerprint := (h.hashed ctx j rec' hrec').symm
  have hindex := h.indexed ctx i rec hi hrec
  rw [hfp, h.indexed ctx j rec' hj hrec', Option.some.injEq] at hindex
  exact hindex.symm

theorem Registry.Indexed.of_shrinks {fmt : Formats} {reg' : Registry} (h : reg.Indexed fmt)
    (hsound : reg'.Sound fmt) (hs : Shrinks reg reg'.rows)
    (hindex : ∀ ctx fp, reg'.rows (.fingerprint ctx fp) = reg.rows (.fingerprint ctx fp)) :
    reg'.Indexed fmt := by
  have huses : ∀ ctx id, reg'.rows.Uses ctx id → reg.rows.Uses ctx id := by
    rintro ctx id ⟨subject, v, vr, hrow, hid⟩
    obtain ⟨old, hold, hsame, -⟩ := hs.version hrow
    exact ⟨subject, v, old, hold, hsame ▸ hid⟩
  refine { hsound with below := ?_, indexed := ?_, alike := ?_ }
  · intro ctx id hid
    rw [Registry.nextId_eq, hs.nextId, ← Registry.nextId_eq]
    exact h.below ctx id (huses ctx id hid)
  · intro ctx id rec hid hrec
    rw [hindex]
    exact h.indexed ctx id rec (huses ctx id hid) (hs.body hrec)
  · intro ctx i j rec rec' hrec hrec'
    exact h.alike ctx i j rec rec' (hs.body hrec) (hs.body hrec')

section Registers

variable {m : RegisterSchema} {x : RegisterSchema.Resolved srv.fmt.Inner} {version id : UInt32}

/-- The body a registration stores has its content, or is the one that was there. -/
theorem bodyFor_content (srv : Server) (view : ReadView) (ctx : String) (id : UInt32)
    (c : Canon srv.fmt.Inner) :
    (RegisterSchema.bodyFor srv view ctx id c).content = c.content ∨
      view.reader.getSchema ctx id = some (RegisterSchema.bodyFor srv view ctx id c) := by
  unfold RegisterSchema.bodyFor
  cases view.reader.getSchema ctx id with
  | none => exact .inl rfl
  | some existing =>
    dsimp only
    split
    · exact .inr rfl
    · exact .inl rfl

/-- The bodies after a registration: those that were there, and one of its content. -/
theorem body_after_register {i : UInt32} {rec : SchemaRecord}
    (hrec : reg.rows.after
      (RegisterSchema.written srv (reg.view now guid) m.subject version id x.canon) (.body ctx i)
        = some rec) :
    reg.rows (.body ctx i) = some rec ∨
      (ctx = m.subject.context ∧ i = id) ∧ rec.content = x.canon.content := by
  by_cases hown : ctx = m.subject.context ∧ i = id
  · obtain ⟨rfl, rfl⟩ := hown
    rw [body_of_register_self] at hrec
    cases hrec
    exact (bodyFor_content srv (reg.view now guid) m.subject.context i x.canon).symm.imp id
      fun hcontent => ⟨⟨rfl, rfl⟩, hcontent⟩
  · rw [body_of_register_ne _ hown] at hrec
    obtain ⟨D, hremoval⟩ := removal_replaced reg.reader m.subject version id
    exact .inl (hremoval.body_of_after hrec)

/-- Content with the fingerprint of a body in use is attached to the id of that body. -/
theorem Registry.Indexed.attached (h : reg.Indexed srv.fmt) (hneg : m.draft.id < 0)
    (hnext : (reg.reader.nextId m.subject.context).toNat < 2 ^ 31)
    (hreg : Registration srv (reg.view now guid) verb m x version id) {j : UInt32}
    {rec : SchemaRecord} (hj : reg.rows.Uses m.subject.context j)
    (hrec : reg.rows (.body m.subject.context j) = some rec)
    (hfp : rec.fingerprint = x.canon.fingerprint) : id = j := by
  have hindex : reg.reader.idForFingerprint m.subject.context x.canon.fingerprint = some j :=
    hfp ▸ h.indexed _ j rec hj hrec
  have hused := (Registry.uses_iff h.consistent).mp hj
  have hlookup : ∃ hit, hashLookup srv reg.reader m.subject x.canon = some (j, hit) := by
    simp [hashLookup, hindex, hused]
  obtain ⟨hit, hlookup⟩ := hlookup
  have hres := resolve_spec hreg.resolved
  -- The index has an answer, so the id is the one it gives.
  have hschemaId : x.schemaId = j.toInt32 := by
    rcases hres.schemaId with ⟨-, hnone⟩ | ⟨i, hit', hlookup', -, hid⟩
    · rw [hres.inherits.id] at hnone
      have hcontra := (hnone hneg).symm.trans hlookup
      cases hcontra
    · have heq := hlookup'.symm.trans hlookup
      simp only [Option.some.injEq, Prod.mk.injEq] at heq
      rw [hid, heq.1]
  have hlt := h.below _ j hj
  rw [UInt32.lt_iff_toNat_lt] at hlt
  have hpos : 0 ≤ x.schemaId := by
    rw [hschemaId]
    exact toInt32_nonneg (by omega)
  have hid := hreg.id_of_nonneg hpos
  rw [hid, hschemaId, UInt32.toUInt32_toInt32]

theorem Registry.Indexed.of_registers {reg' : Registry} (h : reg.Indexed srv.fmt)
    (hsound : reg'.Sound srv.fmt) (hneg : m.draft.id < 0)
    (hone : m.OneSpelling srv (reg.view now guid))
    (hreg : Registration srv (reg.view now guid) verb m x version id)
    (hrows : reg'.rows = reg.rows.after
      (RegisterSchema.written srv (reg.view now guid) m.subject version id x.canon)) :
    reg'.Indexed srv.fmt := by
  have hnext : (reg.reader.nextId m.subject.context).toNat < 2 ^ 31 := hone.nextId
  have huses : ∀ ctx i, reg'.rows.Uses ctx i →
      reg.rows.Uses ctx i ∨ ctx = m.subject.context ∧ i = id := by
    rintro ctx i ⟨subject, v, vr, hrow, hid⟩
    rw [hrows] at hrow
    rcases version_of_register hrow with ⟨hq, -, rfl⟩ | ⟨-, hold⟩
    · exact .inr ⟨by rw [hq], hid.symm⟩
    · exact .inl ⟨subject, v, vr, hold, hid⟩
  have hspelled : ∀ i rec, reg.rows (.body m.subject.context i) = some rec →
      rec.content.Same x.canon.content → rec.content.WrittenAlike x.canon.content :=
    fun i rec => hone.spelling x.canon (resolve_spec hreg.resolved).content i rec
  refine { hsound with below := ?_, indexed := ?_, alike := ?_ }
  · intro ctx i hi
    obtain ⟨hid, hmono⟩ := counter_register (by omega) hreg hrows
    rcases huses ctx i hi with hold | ⟨rfl, rfl⟩
    · exact UInt32.lt_of_lt_of_le (h.below ctx i hold) (hmono ctx)
    · exact hid
  · intro ctx i rec hi hrec
    by_cases hown : ctx = m.subject.context ∧ i = id
    · obtain ⟨rfl, rfl⟩ := hown
      rw [hrows, body_of_register_self, Option.some.injEq] at hrec
      rw [hrows, ← hrec, bodyFor_fingerprint]
      exact (index_register reg now guid m.subject version i x.canon _).trans (if_pos rfl)
    · -- A body that was there is still found: were the index led away, it would be to its own id.
      have hi := (huses ctx i hi).resolve_right hown
      rw [hrows] at hrec
      have hrec := (body_after_register hrec).resolve_right fun hnew => hown hnew.1
      have hindex := h.indexed ctx i rec hi hrec
      by_cases hctx : ctx = m.subject.context
      · subst hctx
        rw [hrows]
        refine (index_register reg now guid m.subject version id x.canon _).trans ?_
        rw [if_neg fun hfp => hown ⟨rfl, (h.attached hneg hnext hreg hi hrec hfp).symm⟩, hindex]
      · rw [hrows, index_register_ne hctx, hindex]
  · intro ctx i j rec rec' hrec hrec' hsame
    rw [hrows] at hrec hrec'
    rcases body_after_register hrec with hold | ⟨⟨rfl, rfl⟩, hnew⟩
    · rcases body_after_register hrec' with hold' | ⟨⟨rfl, rfl⟩, hnew'⟩
      · exact h.alike ctx i j rec rec' hold hold' hsame
      · rw [hnew'] at hsame ⊢
        exact hspelled i rec hold hsame
    · rcases body_after_register hrec' with hold' | ⟨-, hnew'⟩
      · rw [hnew] at hsame ⊢
        exact (hspelled j rec' hold' hsame.symm).symm
      · rw [hnew, hnew']
        exact ⟨rfl, rfl⟩

end Registers

/-! ### Whole runs -/

theorem Registry.indexed_empty (fmt : Formats) (tenant : TenantId) :
    (Registry.empty tenant).Indexed fmt := by
  refine { Registry.sound_empty fmt tenant with below := ?_, indexed := ?_, alike := ?_ }
  · rintro ctx id ⟨subject, v, vr, hrow, -⟩
    rw [Registry.rows_empty] at hrow
    cases hrow
  · intro ctx id rec hid hrec
    rw [Registry.rows_empty] at hrec
    cases hrec
  · intro ctx i j rec rec' hrec
    rw [Registry.rows_empty] at hrec
    cases hrec

theorem Registry.Indexed.step {req : Request} (h : reg.Indexed srv.fmt)
    (hone : reg.OneSpelling srv req) : (reg.step srv req).Indexed srv.fmt := by
  have hsound : (reg.step srv req).Sound srv.fmt := h.toSound.step
  obtain ⟨ws, evs, heff, hrows⟩ := Registry.rows_step srv reg req
  rcases heff.keeps_index_or_registers with ⟨hs, hindex⟩ | ⟨m, x, version, id, hreg, rfl⟩
  · rw [← hrows] at hs hindex
    exact h.of_shrinks hsound hs hindex
  · obtain ⟨subject, body, normalize, hverb, hm⟩ := hreg.new
    have hneg : m.draft.id < 0 := by
      rw [draft_eq_of_new hm]
      exact hone.1 subject body normalize hverb
    exact h.of_registers hsound hneg (hone.2 subject body normalize m hverb hm) hreg hrows

/-- In every run whose registrations come without an id of their own, in contexts whose ids fit
a signed number, and write equal content alike: two versions of a context have the same id
exactly when their contents are equal. -/
theorem id_eq_iff_content (srv : Server) (tenant : TenantId) (reqs : List Request)
    (hone : Along (Registry.step srv) (Registry.OneSpelling srv) (Registry.empty tenant) reqs)
    (ctx s s' : String) (v v' : UInt32) (row row' : VersionRecord)
    (hrow : ((Registry.empty tenant).runAll srv reqs).rows (.version ctx s v) = some row)
    (hrow' : ((Registry.empty tenant).runAll srv reqs).rows (.version ctx s' v') = some row') :
    row.id = row'.id ↔ ∃ rec rec',
      ((Registry.empty tenant).runAll srv reqs).rows (.body ctx row.id) = some rec ∧
      ((Registry.empty tenant).runAll srv reqs).rows (.body ctx row'.id) = some rec' ∧
      rec.content.Same rec'.content := by
  have hinv : ((Registry.empty tenant).runAll srv reqs).Indexed srv.fmt :=
    inv_of_along hone (Registry.indexed_empty srv.fmt tenant) fun _ _ h hreq => h.step hreq
  constructor
  · intro hid
    obtain ⟨rec, hrec⟩ := Option.isSome_iff_exists.mp
      (hinv.present ctx row.id ⟨s, v, row, hrow, rfl⟩)
    exact ⟨rec, rec, hrec, hid ▸ hrec, .refl _⟩
  · rintro ⟨rec, rec', hrec, hrec', hsame⟩
    exact hinv.id_eq ⟨s, v, row, hrow, rfl⟩ ⟨s', v', row', hrow', rfl⟩ hrec hrec' hsame

/-- Register a text under a subject with one rule, whose members come in the given order. -/
def registerRuled (subject : String) (rule : List (String × Json)) : Request :=
  plainRequest (.register subject
    { schema := some "\"int\""
      ruleSet := some (.object [("domainRules", .array [.object rule])]) } false)

/-- The same rule twice, two of its members the other way round the second time. -/
def reorderedHistory : List Request :=
  [registerRuled "a" [("name", .string "r"), ("type", .string "CEL"), ("mode", .string "WRITE")],
    registerRuled "b" [("type", .string "CEL"), ("name", .string "r"), ("mode", .string "WRITE")]]

/-- What of a body can be compared by deciding. -/
def ruledShape (rec : SchemaRecord) : SchemaType × String × List SchemaReference × Bool :=
  (rec.schemaType, rec.schema, rec.references, rec.metadata.isSome)

/-- Equal content, two ids. -/
theorem ids_ne_reorderedHistory :
    ∃ row row' rec rec',
      (plainRun reorderedHistory).rows (.version "." "a" 1) = some row ∧
      (plainRun reorderedHistory).rows (.version "." "b" 1) = some row' ∧
      (plainRun reorderedHistory).rows (.body "." row.id) = some rec ∧
      (plainRun reorderedHistory).rows (.body "." row'.id) = some rec' ∧
      rec.content.Same rec'.content ∧ row.id ≠ row'.id := by
  -- All that is read off the run, so that it is evaluated once.
  have hrun : ∃ reg, reg = plainRun reorderedHistory ∧
      reg.reader.getVersion "." "a" 1 = some ⟨1, false, 0⟩ ∧
      reg.reader.getVersion "." "b" 1 = some ⟨2, false, 0⟩ ∧
      (reg.reader.getSchema "." 1).map ruledShape = some (.avro, "\"int\"", [], false) ∧
      (reg.reader.getSchema "." 2).map ruledShape = some (.avro, "\"int\"", [], false) ∧
      Json.eqvOpt ((reg.reader.getSchema "." 1).bind (·.ruleSet))
        ((reg.reader.getSchema "." 2).bind (·.ruleSet)) = true ∧
      Json.eqvOpt ((reg.reader.getSchema "." 2).bind (·.ruleSet))
        ((reg.reader.getSchema "." 1).bind (·.ruleSet)) = true := ⟨_, rfl, by decide +kernel⟩
  obtain ⟨reg, hreg, hrow, hrow', hshape, hshape', hrules, hrules'⟩ := hrun
  rw [← hreg]
  obtain ⟨rec, hrec, hshape⟩ := Option.map_eq_some_iff.mp hshape
  obtain ⟨rec', hrec', hshape'⟩ := Option.map_eq_some_iff.mp hshape'
  rw [hrec, hrec', Option.bind_some, Option.bind_some] at hrules hrules'
  simp only [ruledShape, Prod.mk.injEq, Option.isSome_eq_false_iff, Option.isNone_iff_eq_none]
    at hshape hshape'
  obtain ⟨htype, htext, hrefs, hmeta⟩ := hshape
  obtain ⟨htype', htext', hrefs', hmeta'⟩ := hshape'
  refine ⟨⟨1, false, 0⟩, ⟨2, false, 0⟩, rec, rec', hrow, hrow', hrec, hrec', ?_, by decide⟩
  exact ⟨htype.trans htype'.symm, htext.trans htext'.symm, hrefs.trans hrefs'.symm,
    .inl (hmeta.trans hmeta'.symm), .inr ⟨hrules, hrules'⟩⟩

/-- One text under two subjects. -/
def sharedHistory : List Request := [registerText "a" "\"int\"", registerText "b" "\"int\""]

/-- The two versions hold one id, and their contents are equal. -/
theorem id_eq_iff_content_sharedHistory :
    ∃ rec rec',
      (plainRun sharedHistory).rows (.body "." 1) = some rec ∧
      (plainRun sharedHistory).rows (.body "." 1) = some rec' ∧
      rec.content.Same rec'.content := by
  have hrow : (plainRun sharedHistory).reader.getVersion
      "." "a" 1 = some ⟨1, false, 0⟩ := by decide
  have hrow' : (plainRun sharedHistory).reader.getVersion
      "." "b" 1 = some ⟨1, false, 0⟩ := by decide
  have hone : Along (Registry.step plainServer) (Registry.OneSpelling plainServer)
      (Registry.empty .default) sharedHistory := by
    refine ⟨⟨?_, ?_⟩, ⟨?_, ?_⟩, trivial⟩
    · intro subject body normalize hverb
      cases hverb
      decide
    · intro subject body normalize m hverb hm
      cases hverb
      simp only [RegisterSchema.new] at hm
      split at hm <;> cases hm
      refine ⟨by decide, ?_⟩
      rintro c - i rec ⟨⟩
    · intro subject body normalize hverb
      cases hverb
      decide
    · intro subject body normalize m hverb hm
      cases hverb
      simp only [RegisterSchema.new] at hm
      split at hm <;> cases hm
      refine ⟨by decide, ?_⟩
      intro c hc i rec hrec hsame
      have hplain : (RegisterSchema.content plainServer
          (((Registry.empty .default).step plainServer (registerText "a" "\"int\"")).view
            (registerText "b" "\"int\"").now (registerText "b" "\"int\"").newGuid)
          ⟨QualifiedSubject.parse "b", Draft.ofRequest { schema := some "\"int\"" }, false⟩).map
            (fun c => (c.metadata.isSome, c.ruleSet.isSome)) = some (false, false) := by
        decide
      rw [Option.mem_def.mp hc] at hplain
      simp only [Option.map_some, Option.some.injEq, Prod.mk.injEq, Option.isSome_eq_false_iff,
        Option.isNone_iff_eq_none] at hplain
      exact hsame.writtenAlike_of_none hplain.1 hplain.2
  exact (id_eq_iff_content plainServer .default sharedHistory hone "." "a" "b" 1 1 _ _
    hrow hrow').mp
    rfl

end SchemaRegistry

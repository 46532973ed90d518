import SchemaRegistry.Lib.Memo
import SchemaRegistry.Appended

/-!
The parse caches. A request's text is parsed through a table keyed by a hash of type,
text and resolved references; a stored schema through one keyed by its context, its id
and a hash of what its references resolve to. Neither table is told about deletes. An
entry of the second stays true as long as an id, once used, is never given other
content; an entry of either is found again for the same input only as long as the texts
and names that are hashed do not hold the bytes that separate them.
-/

namespace SchemaRegistry

open Lib

/-! ### The keys -/

/-- What `parse_cached` is asked. -/
structure TextQuery where
  schemaType : SchemaType
  text : String
  refs : List ResolvedRef
  validateDefaults : Bool

/-- What `parse_record` parses, with what the references resolved to. -/
structure RecordQuery where
  ctx : String
  id : UInt32
  schemaType : SchemaType
  schema : String
  resolved : List ResolvedRef

/-- What a resolved reference contributes to a key. -/
def resolvedBytes (r : ResolvedRef) : Bytes := [0] ++ utf8 r.name ++ [1] ++ utf8 r.schema

def TextQuery.bytes (q : TextQuery) : Bytes :=
  utf8 q.schemaType.asStr ++ [if q.validateDefaults then 1 else 0] ++ utf8 q.text
    ++ q.refs.flatMap resolvedBytes

variable (srv : Server)

def TextQuery.key (q : TextQuery) : Bytes := srv.fmt.sha256 q.bytes

/-- What a schema's references resolved to, as a cache key component. -/
def depsFingerprint (resolved : List ResolvedRef) : Bytes :=
  if resolved.isEmpty then List.replicate 32 0 else srv.fmt.sha256 (resolved.flatMap resolvedBytes)

def RecordQuery.key (q : RecordQuery) : String × UInt32 × Bytes :=
  (q.ctx, q.id, depsFingerprint srv q.resolved)

/-! ### The caches -/

/-- The parse of a text, without a cache. -/
def TextQuery.parse (q : TextQuery) : Except SchemaError (ParsedSchema srv.fmt.Inner) :=
  srv.fmt.parseWith q.schemaType q.text q.refs q.validateDefaults

/-- The parse of a stored schema, without a cache. -/
def RecordQuery.parse (q : RecordQuery) : ApiResult (ParsedSchema srv.fmt.Inner) :=
  match srv.fmt.parseWith q.schemaType q.schema q.resolved false with
  | .ok parsed => .ok parsed
  | .error e => .error (.internal ("stored schema no longer parses: " ++ e.message))

/-- A container with its parse caches. -/
structure Cached (fmt : Formats) where
  reg : Registry
  parsedById : Memo (String × UInt32 × Bytes) (ParsedSchema fmt.Inner) := fun _ => none
  parsedByText : Memo Bytes (ParsedSchema fmt.Inner) := fun _ => none

namespace Cached

variable {srv}

/-- Parse a request schema, memoized by type, text and resolved references. -/
def parseCached (s : Cached srv.fmt) (q : TextQuery) :
    Except SchemaError (ParsedSchema srv.fmt.Inner) × Cached srv.fmt :=
  let (result, table) := s.parsedByText.call (TextQuery.key srv) (TextQuery.parse srv) q
  (result, { s with parsedByText := table })

/-- Parse a stored schema, through the cache. -/
def parseRecord (s : Cached srv.fmt) (ctx : String) (id : UInt32) (rec : SchemaRecord) :
    ApiResult (ParsedSchema srv.fmt.Inner) × Cached srv.fmt :=
  match resolveStored s.reg.reader ctx rec.references with
  | .error e => (.error e, s)
  | .ok resolved =>
      let (result, table) := s.parsedById.call (RecordQuery.key srv) (RecordQuery.parse srv)
        ⟨ctx, id, rec.schemaType, rec.schema, resolved⟩
      (result, { s with parsedById := table })

/-- What `parse_record` answers. -/
def parser (s : Cached srv.fmt) : RecordParser srv.fmt.Inner :=
  fun ctx id rec => (s.parseRecord ctx id rec).1

/-- What happens next. A verb reaches the caches only through the two functions above,
and parses on the state it starts from: its parses are events before it. -/
inductive Event where
  | verb (req : Request)
  | parseText (q : TextQuery)
  /-- Parse the body now stored under an id. -/
  | parseRecord (ctx : String) (id : UInt32)
  | forgetText (key : Bytes)
  | forgetRecord (key : String × UInt32 × Bytes)

def step (s : Cached srv.fmt) : Event → Cached srv.fmt
  | .verb req => { s with reg := s.reg.step srv req }
  | .parseText q => (s.parseCached q).2
  | .parseRecord ctx id =>
      match s.reg.reader.getSchema ctx id with
      | some rec => (s.parseRecord ctx id rec).2
      | none => s
  | .forgetText key => { s with parsedByText := s.parsedByText.forget key }
  | .forgetRecord key => { s with parsedById := s.parsedById.forget key }

/-- A container that holds nothing, with empty caches. -/
def empty (tenant : TenantId) : Cached srv.fmt := { reg := Registry.empty tenant }

end Cached

/-! ### Keys of plain texts -/

/-- A name without the byte that ends it. -/
def PlainName (name : String) : Prop := '\x01' ∉ name.toList

instance (name : String) : Decidable (PlainName name) := inferInstanceAs (Decidable (_ ∉ _))

/-- A resolved reference whose parts do not hold the bytes that end them. -/
def ResolvedRef.Plain (r : ResolvedRef) : Prop := PlainName r.name ∧ NulFree r.schema

instance (r : ResolvedRef) : Decidable r.Plain := inferInstanceAs (Decidable (_ ∧ _))

def TextQuery.Plain (q : TextQuery) : Prop := NulFree q.text ∧ ∀ r ∈ q.refs, r.Plain

instance (q : TextQuery) : Decidable q.Plain := inferInstanceAs (Decidable (_ ∧ _))

/-- The type's name and the flag come back, and what follows them. -/
theorem typeBytes_inj {t t' : SchemaType} {b b' : Bool} {rest rest' : Bytes}
    (h : utf8 t.asStr ++ [if b then 1 else 0] ++ rest
      = utf8 t'.asStr ++ [if b' then 1 else 0] ++ rest') : t = t' ∧ b = b' ∧ rest = rest' := by
  have hnames : utf8 SchemaType.avro.asStr = [65, 86, 82, 79] ∧
      utf8 SchemaType.json.asStr = [74, 83, 79, 78] ∧
      utf8 SchemaType.protobuf.asStr = [80, 82, 79, 84, 79, 66, 85, 70] := by decide
  obtain ⟨havro, hjson, hprotobuf⟩ := hnames
  have hflag : ∀ {rest rest' : Bytes}, (if b then (1 : UInt8) else 0) = (if b' then 1 else 0) ∧
      rest = rest' → b = b' ∧ rest = rest' := by
    intro rest rest' h
    refine ⟨?_, h.2⟩
    cases b <;> cases b' <;> simp at h ⊢
  cases t <;> cases t' <;>
    simp [havro, hjson, hprotobuf] at h ⊢ <;>
    exact hflag h

/-- The references begin with a separator, if there are any. -/
theorem head_resolvedBytes (refs : List ResolvedRef) :
    ∀ a ∈ (refs.flatMap resolvedBytes).head?, a = 0 := by
  cases refs <;> simp [resolvedBytes]

/-- References come back from the bytes they contribute. -/
theorem resolvedBytes_inj {refs refs' : List ResolvedRef} (h : ∀ r ∈ refs, r.Plain)
    (h' : ∀ r ∈ refs', r.Plain)
    (heq : refs.flatMap resolvedBytes = refs'.flatMap resolvedBytes) : refs = refs' := by
  induction refs generalizing refs' with
  | nil =>
    cases refs' with
    | nil => rfl
    | cons r' refs' => simp [resolvedBytes] at heq
  | cons r refs ih =>
    cases refs' with
    | nil => simp [resolvedBytes] at heq
    | cons r' refs' =>
      obtain ⟨⟨hname, hschema⟩, hrefs⟩ := List.forall_mem_cons.mp h
      obtain ⟨⟨hname', hschema'⟩, hrefs'⟩ := List.forall_mem_cons.mp h'
      simp only [List.flatMap_cons, resolvedBytes, List.append_assoc, List.cons_append,
        List.nil_append, List.cons.injEq, true_and] at heq
      obtain ⟨heqName, heq⟩ := append_sep_inj (not_mem_utf8 (by decide) rfl hname)
        (not_mem_utf8 (by decide) rfl hname') heq
      obtain ⟨heqSchema, heq⟩ := append_sep_or_nil_inj (zero_not_mem_utf8 hschema)
        (zero_not_mem_utf8 hschema') (head_resolvedBytes refs) (head_resolvedBytes refs') heq
      have hr : r = r' := by
        cases r
        cases r'
        simpa using And.intro (utf8_injective heqName) (utf8_injective heqSchema)
      rw [hr, ih hrefs hrefs' heq]

theorem TextQuery.bytes_inj {q q' : TextQuery} (h : q.Plain) (h' : q'.Plain)
    (heq : q.bytes = q'.bytes) : q = q' := by
  unfold TextQuery.bytes at heq
  rw [List.append_assoc _ (utf8 q.text), List.append_assoc _ (utf8 q'.text)] at heq
  obtain ⟨htype, hflag, heq⟩ := typeBytes_inj heq
  obtain ⟨htext, heq⟩ := append_sep_or_nil_inj (zero_not_mem_utf8 h.1) (zero_not_mem_utf8 h'.1)
    (head_resolvedBytes _) (head_resolvedBytes _) heq
  have hrefs := resolvedBytes_inj h.2 h'.2 heq
  cases q
  cases q'
  cases utf8_injective htext
  simp_all

/-- The digest that stands for no references is no digest. -/
def Formats.ZeroFree (fmt : Formats) : Prop := ∀ b, fmt.sha256 b ≠ List.replicate 32 0

theorem depsFingerprint_inj {srv : Server} (hsha : Function.Injective srv.fmt.sha256)
    (hzero : srv.fmt.ZeroFree) {refs refs' : List ResolvedRef} (h : ∀ r ∈ refs, r.Plain)
    (h' : ∀ r ∈ refs', r.Plain) (heq : depsFingerprint srv refs = depsFingerprint srv refs') :
    refs = refs' := by
  unfold depsFingerprint at heq
  split at heq <;> split at heq
  · next hempty hempty' => rw [List.isEmpty_iff.mp hempty, List.isEmpty_iff.mp hempty']
  · exact (hzero _ heq.symm).elim
  · exact (hzero _ heq).elim
  · exact resolvedBytes_inj h h' (hsha heq)

/-! ### What references resolve to -/

/-- A body whose text and reference names can stand in a key. -/
def SchemaRecord.Plain (rec : SchemaRecord) : Prop :=
  NulFree rec.schema ∧ ∀ sr ∈ rec.references, PlainName sr.name

/-- All stored bodies are plain. -/
def Reader.PlainBodies (r : Reader) : Prop :=
  ∀ ctx id rec, r.getSchema ctx id = some rec → rec.Plain

section Resolving

variable {r : Reader}

theorem plain_collectRef (h : r.PlainBodies) {levels : Nat} {name : String} {q : QualifiedSubject}
    {version : UInt32} {acc acc' : Collected} (hname : PlainName name)
    (hacc : ∀ x ∈ acc.out, x.Plain) (hres : collectRef r levels name q version acc = .ok acc') :
    ∀ x ∈ acc'.out, x.Plain := by
  induction levels generalizing name q version acc acc' with
  | zero => cases hres
  | succ levels ih =>
    unfold collectRef at hres
    split at hres
    · cases hres
      exact hacc
    · split at hres
      · cases hres
      · split at hres
        · cases hres
        · next rec hrec =>
            obtain ⟨acc₁, hfold, hres⟩ := bind_eq_ok.mp hres
            cases hres
            have hplain := h _ _ rec hrec
            have hstep : ∀ sr ∈ rec.references, ∀ acc acc' : Collected,
                (∀ x ∈ acc.out, x.Plain) → collectRef r levels sr.name (refTarget q.context sr)
                  sr.target acc = .ok acc' → ∀ x ∈ acc'.out, x.Plain :=
              fun sr hsr acc acc' hacc hres => ih (hplain.2 sr hsr) hacc hres
            have hfolded : ∀ x ∈ acc₁.out, x.Plain := foldlM_inv hstep (by exact hacc) hfold
            intro x hx
            rcases List.mem_append.mp hx with hx | hx
            · exact hfolded x hx
            · rw [List.mem_singleton.mp hx]
              exact ⟨hname, hplain.1⟩

theorem plain_resolveLoop (h : r.PlainBodies) {ctx : String} {refs : List RefIn}
    {acc acc' : Collected} {found : List ResolvedReference}
    (hrefs : ∀ rin ∈ refs, ∀ name ∈ rin.name, PlainName name) (hacc : ∀ x ∈ acc.out, x.Plain)
    (hres : resolveLoop r ctx refs acc = .ok (found, acc')) : ∀ x ∈ acc'.out, x.Plain := by
  induction refs generalizing acc found with
  | nil =>
    cases hres
    exact hacc
  | cons rin rest ih =>
    obtain ⟨hrin, hrest⟩ := List.forall_mem_cons.mp hrefs
    simp only [resolveLoop, bind_eq_ok] at hres
    obtain ⟨⟨one, acc₁⟩, hone, ⟨more, acc₂⟩, hmore, hres⟩ := hres
    cases hres
    refine ih hrest ?_ hmore
    have hname : rin.name = some one.concrete.name := by
      unfold resolveReference at hone
      split at hone
      · cases hone
      · split at hone
        · next name subject version hname hsubject hversion =>
            obtain ⟨spec, -, hone⟩ := bind_eq_ok.mp hone
            split at hone
            · cases hone
            · split at hone
              · cases hone
              · cases hone
                exact hname
        · cases hone
    exact plain_collectRef h (hrin _ hname) hacc (resolveReference_spec hone).2

/-- What a plain body's references resolve to is plain. -/
theorem plain_resolveStored (h : r.PlainBodies) {ctx : String} {refs : List SchemaReference}
    {resolved : List ResolvedRef} (hrefs : ∀ sr ∈ refs, PlainName sr.name)
    (hres : resolveStored r ctx refs = .ok resolved) : ∀ x ∈ resolved, x.Plain := by
  unfold resolveStored at hres
  split at hres
  · next concrete resolved' targets hreferences =>
      cases hres
      simp only [resolveReferences, bind_eq_ok] at hreferences
      obtain ⟨⟨found, acc⟩, hloop, hreferences⟩ := hreferences
      cases hreferences
      refine plain_resolveLoop h (fun rin hrin name hname => ?_) (by simp) hloop
      obtain ⟨sr, hsr, rfl⟩ := List.mem_map.mp hrin
      cases hname
      exact hrefs sr hsr
  · cases hres

end Resolving

/-! ### Ids that never get other content -/

/-- A registration that stores new content under an id that was never used, and content
that can stand in a key. -/
structure RegisterSchema.Fresh (srv : Server) (view : ReadView) (m : RegisterSchema) : Prop where
  /-- The context has a next id. -/
  nextId : (view.reader.nextId m.subject.context).toNat + 1 < 2 ^ 32
  /-- An id that comes with the request is in use, or was never given out. -/
  given : 0 ≤ m.draft.id → view.reader.idUsages m.subject.context m.draft.id.toUInt32 ≠ [] ∨
    view.reader.nextId m.subject.context ≤ m.draft.id.toUInt32
  plain : ∀ c ∈ m.content srv view, NulFree c.text ∧ ∀ sr ∈ c.refs, PlainName sr.name

/-- The bodies are plain and below the counter of their context. -/
structure Registry.Numbered (fmt : Formats) (reg : Registry) : Prop extends reg.Sound fmt where
  plain : reg.reader.PlainBodies
  below : ∀ ctx id rec, reg.rows (.body ctx id) = some rec → id < reg.reader.nextId ctx

section Registering

variable {srv : Server} {reg reg' : Registry} {verb : Verb} {m : RegisterSchema} {now : Int}
  {guid : String} {x : RegisterSchema.Resolved srv.fmt.Inner} {version id : UInt32}

/-- The id is in use, or was never given out. -/
theorem RegisterSchema.Fresh.chosen (h : m.Fresh srv (reg.view now guid))
    (hreg : Registration srv (reg.view now guid) verb m x version id) :
    reg.reader.idUsages m.subject.context id ≠ [] ∨ reg.reader.nextId m.subject.context ≤ id :=
  hreg.used_or_beyond h.given

/-- An id in use keeps its body. -/
theorem Registry.Numbered.bodyFor_of_used (h : reg.Numbered srv.fmt)
    (hreg : Registration srv (reg.view now guid) verb m x version id)
    (hused : reg.reader.idUsages m.subject.context id ≠ []) :
    reg.rows (.body m.subject.context id)
      = some (RegisterSchema.bodyFor srv (reg.view now guid) m.subject.context id x.canon) := by
  obtain ⟨⟨subject, v⟩, hmem⟩ := List.exists_mem_of_ne_nil _ hused
  obtain ⟨vr, hrow, hvr⟩ := (Registry.mem_idUsages h.consistent).mp hmem
  obtain ⟨rec, hrec⟩ := Option.isSome_iff_exists.mp
    (h.present m.subject.context id ⟨subject, v, vr, hrow, hvr⟩)
  have hfp : rec.fingerprint = x.canon.fingerprint := by
    rcases chooseId_spec hreg.id with hnext | ⟨-, hfp⟩
    · have hlt := h.below _ _ rec hrec
      rw [hnext] at hlt
      exact (UInt32.lt_irrefl _ hlt).elim
    · exact hfp hused rec hrec
  have hget : (reg.view now guid).reader.getSchema m.subject.context id = some rec := hrec
  rw [hrec]
  simp only [RegisterSchema.bodyFor, hget, hfp, if_true]

/-- What a registration does to the bodies: those that are there stay or go, and a new one is
under an id that was never given out. -/
theorem Registry.Numbered.body_of_register (h : reg.Numbered srv.fmt)
    (hfresh : m.Fresh srv (reg.view now guid))
    (hreg : Registration srv (reg.view now guid) verb m x version id) {ctx : String} {i : UInt32}
    {rec : SchemaRecord}
    (hrec : reg.rows.after
      (RegisterSchema.written srv (reg.view now guid) m.subject version id x.canon) (.body ctx i)
        = some rec) :
    reg.rows (.body ctx i) = some rec ∨ ctx = m.subject.context ∧ i = id ∧ rec.Plain ∧
      reg.reader.nextId m.subject.context ≤ id := by
  by_cases hown : ctx = m.subject.context ∧ i = id
  · obtain ⟨rfl, rfl⟩ := hown
    rw [body_of_register_self, Option.some.injEq] at hrec
    subst hrec
    rcases hfresh.chosen hreg with hused | hle
    · exact .inl (h.bodyFor_of_used hreg hused)
    · refine .inr ⟨rfl, rfl, ?_, hle⟩
      have hnone : (reg.view now guid).reader.getSchema m.subject.context i = none := by
        cases hget : (reg.view now guid).reader.getSchema m.subject.context i with
        | none => rfl
        | some rec => exact absurd hle (UInt32.not_le.mpr (h.below _ _ rec hget))
      simp only [RegisterSchema.bodyFor, hnone]
      exact hfresh.plain x.canon (resolve_spec hreg.resolved).content
  · rw [body_of_register_ne _ hown] at hrec
    obtain ⟨D, hremoval⟩ := removal_replaced reg.reader m.subject version id
    exact .inl (hremoval.body_of_after hrec)

/-- What a step leaves of the ids that were given out: the counters do not go back, and no id
below them gets other content. -/
structure Registry.Keeps (reg reg' : Registry) : Prop where
  counter : ∀ ctx, reg.reader.nextId ctx ≤ reg'.reader.nextId ctx
  body : ∀ ctx id rec, id < reg.reader.nextId ctx → reg'.rows (.body ctx id) = some rec →
    reg.rows (.body ctx id) = some rec

/-- A step that, if it registers, does so freshly. -/
def Registry.Fresh (srv : Server) (reg : Registry) (req : Request) : Prop :=
  ∀ subject body normalize m, req.verb = .register subject body normalize →
    RegisterSchema.new subject body normalize = .ok m →
    m.Fresh srv (reg.view req.now req.newGuid)

theorem Registry.Numbered.step {req : Request} (h : reg.Numbered srv.fmt)
    (hfresh : reg.Fresh srv req) :
    (reg.step srv req).Numbered srv.fmt ∧ reg.Keeps (reg.step srv req) := by
  have hsound : (reg.step srv req).Sound srv.fmt := h.toSound.step
  obtain ⟨ws, evs, heff, hrows⟩ := Registry.rows_step srv reg req
  rcases heff.shrinks_or_registers with hs | ⟨m, x, version, id, hreg, rfl⟩
  · rw [← hrows] at hs
    have hnext : ∀ ctx, (reg.step srv req).reader.nextId ctx = reg.reader.nextId ctx := by
      intro ctx
      rw [Registry.nextId_eq, hs.nextId, ← Registry.nextId_eq]
    refine ⟨⟨hsound, fun ctx id rec hrec => h.plain ctx id rec (hs.body hrec),
      fun ctx id rec hrec => ?_⟩, fun ctx => ?_, fun ctx id rec _ hrec => hs.body hrec⟩
    · rw [hnext]
      exact h.below ctx id rec (hs.body hrec)
    · rw [hnext]
      exact UInt32.le_rfl
  · obtain ⟨subject, body, normalize, hverb, hm⟩ := hreg.new
    have hm := hfresh subject body normalize m hverb hm
    obtain ⟨hid, hmono⟩ := counter_register hm.nextId hreg hrows
    have hbody : ∀ {ctx i rec}, (reg.step srv req).rows (.body ctx i) = some rec → _ :=
      fun hrec => h.body_of_register hm hreg (hrows ▸ hrec)
    refine ⟨⟨hsound, fun ctx i rec hrec => ?_, fun ctx i rec hrec => ?_⟩, hmono,
      fun ctx i rec hlt hrec => ?_⟩
    · rcases hbody hrec with hold | ⟨-, -, hplain, -⟩
      · exact h.plain ctx i rec hold
      · exact hplain
    · rcases hbody hrec with hold | ⟨rfl, rfl, -, -⟩
      · exact UInt32.lt_of_lt_of_le (h.below ctx i rec hold) (hmono ctx)
      · exact hid
    · rcases hbody hrec with hold | ⟨rfl, rfl, -, hle⟩
      · exact hold
      · exact absurd hlt (UInt32.not_lt.mpr hle)

theorem Registry.numbered_empty (fmt : Formats) (tenant : TenantId) :
    (Registry.empty tenant).Numbered fmt := by
  have hnone : ∀ ctx id rec, (Registry.empty tenant).rows (.body ctx id) ≠ some rec := by
    intro ctx id rec hrec
    rw [Registry.rows_empty] at hrec
    cases hrec
  exact ⟨Registry.sound_empty fmt tenant, fun ctx id rec hrec => (hnone ctx id rec hrec).elim,
    fun ctx id rec hrec => (hnone ctx id rec hrec).elim⟩

end Registering

/-! ### Coherence -/

/-- The id of a parsed body was given out, and if it has a body now, then that one. -/
structure RecordQuery.Current (reg : Registry) (q : RecordQuery) : Prop where
  below : q.id < reg.reader.nextId q.ctx
  body : ∀ rec, reg.rows (.body q.ctx q.id) = some rec →
    rec.schemaType = q.schemaType ∧ rec.schema = q.schema
  plain : ∀ r ∈ q.resolved, r.Plain

theorem RecordQuery.Current.keeps {reg reg' : Registry} {q : RecordQuery} (h : q.Current reg)
    (hkeeps : reg.Keeps reg') : q.Current reg' where
  below := UInt32.lt_of_lt_of_le h.below (hkeeps.counter q.ctx)
  body rec hrec := h.body rec (hkeeps.body q.ctx q.id rec h.below hrec)
  plain := h.plain

namespace Cached

variable {srv : Server} {s : Cached srv.fmt}

/-- Every entry is the parse of a plain text, or of a body that its id still has if it has
one. -/
structure Sound (s : Cached srv.fmt) : Prop where
  reg : s.reg.Numbered srv.fmt
  byText : s.parsedByText.Sound (TextQuery.key srv) (TextQuery.parse srv) TextQuery.Plain
  byId : s.parsedById.Sound (RecordQuery.key srv) (RecordQuery.parse srv)
    (RecordQuery.Current s.reg)

/-- The caches do not show: every stored body and every plain text parses as it would
without them. -/
structure Coherent (s : Cached srv.fmt) : Prop where
  record : ∀ ctx id rec, s.reg.store.getSchema ctx id = some rec →
    (s.parseRecord ctx id rec).1 = SchemaRegistry.parseRecord srv s.reg.reader ctx rec
  text : ∀ q : TextQuery, q.Plain → (s.parseCached q).1 = q.parse srv

/-- Every stored body is parsed as it would be without the cache. -/
def RecordsCoherent (s : Cached srv.fmt) : Prop :=
  ∀ ctx id rec, s.reg.store.getSchema ctx id = some rec →
    s.parser ctx id rec = SchemaRegistry.parseRecord srv s.reg.reader ctx rec

/-- The condition on what happens next. -/
def Event.Fresh (s : Cached srv.fmt) : Event → Prop
  | .verb req => s.reg.Fresh srv req
  | .parseText q => q.Plain
  | _ => True

/-- A stored body's own query. -/
theorem Sound.current (h : s.Sound) {ctx : String} {id : UInt32} {rec : SchemaRecord}
    {resolved : List ResolvedRef} (hrec : s.reg.store.getSchema ctx id = some rec)
    (hres : resolveStored s.reg.reader ctx rec.references = .ok resolved) :
    RecordQuery.Current s.reg ⟨ctx, id, rec.schemaType, rec.schema, resolved⟩ where
  below := h.reg.below ctx id rec hrec
  body rec' hrec' := by
    obtain rfl : rec = rec' := Option.some.inj (hrec.symm.trans hrec')
    exact ⟨rfl, rfl⟩
  plain := plain_resolveStored h.reg.plain (h.reg.plain ctx id rec hrec).2 hres

theorem parseRecord_eq (r : Reader) (ctx : String) (id : UInt32) (rec : SchemaRecord) :
    SchemaRegistry.parseRecord srv r ctx rec = (do
      let resolved ← resolveStored r ctx rec.references
      RecordQuery.parse srv ⟨ctx, id, rec.schemaType, rec.schema, resolved⟩) := rfl

theorem Sound.coherent (hsha : Function.Injective srv.fmt.sha256) (hzero : srv.fmt.ZeroFree)
    (h : s.Sound) : s.Coherent where
  record ctx id rec hrec := by
    rw [parseRecord_eq s.reg.reader ctx id]
    unfold parseRecord
    split
    · next e hres =>
        rw [hres]
        rfl
    · next resolved hres =>
        rw [hres, ok_bind]
        refine h.byId.call_fst fun q hq hkey => ?_
        -- The same id has the same text, and the same digest the same references.
        obtain ⟨hctx, hid, hdeps⟩ : q.ctx = ctx ∧ q.id = id ∧
            depsFingerprint srv q.resolved = depsFingerprint srv resolved := by
          simpa [RecordQuery.key] using hkey
        obtain ⟨htype, hschema⟩ := hq.body rec (by rw [hctx, hid]; exact hrec)
        have hresolved := depsFingerprint_inj hsha hzero hq.plain (h.current hrec hres).plain hdeps
        simp only [RecordQuery.parse, htype, hschema, hresolved]
  text q hq := by
    refine h.byText.call_fst fun q' hq' hkey => ?_
    rw [TextQuery.bytes_inj hq' hq (hsha hkey)]

theorem Sound.step (h : s.Sound) {e : Event} (he : e.Fresh s) : (s.step e).Sound := by
  cases e with
  | verb req =>
    obtain ⟨hreg, hkeeps⟩ := h.reg.step he
    exact ⟨hreg, h.byText, h.byId.mono fun q hq => hq.keeps hkeeps⟩
  | parseText q => exact ⟨h.reg, h.byText.call_snd he, h.byId⟩
  | parseRecord ctx id =>
    unfold Cached.step
    dsimp only
    split
    · next rec hrec =>
        unfold Cached.parseRecord
        split
        · exact h
        · next resolved hres =>
            exact ⟨h.reg, h.byText, h.byId.call_snd (h.current hrec hres)⟩
    · exact h
  | forgetText key => exact ⟨h.reg, h.byText.forget key, h.byId⟩
  | forgetRecord key => exact ⟨h.reg, h.byText, h.byId.forget key⟩

theorem sound_empty (tenant : TenantId) : (Cached.empty tenant : Cached srv.fmt).Sound :=
  ⟨Registry.numbered_empty srv.fmt tenant, Memo.sound_empty, Memo.sound_empty⟩

/-- In every history that parses plain texts only and never gives an id other content, the
caches do not show. -/
theorem coherent_of_fresh (srv : Server) (hsha : Function.Injective srv.fmt.sha256)
    (hzero : srv.fmt.ZeroFree) (tenant : TenantId) (events : List Event)
    (hfresh : Along step Event.Fresh (Cached.empty tenant : Cached srv.fmt) events) :
    (events.foldl step (Cached.empty tenant : Cached srv.fmt)).Coherent :=
  (inv_of_along hfresh (sound_empty tenant) fun _ _ h he => h.step he).coherent hsha hzero

end Cached

/-! ### An id used twice -/

/-- The plain server with a digest that is never zero. -/
def keyedServer : Server :=
  ⟨{ plainFormats with sha256 := fun b => 1 :: b }, .backward, false⟩

theorem keyed_injective : Function.Injective keyedServer.fmt.sha256 :=
  fun _ _ h => List.tail_eq_of_cons_eq h

/-- A schema is registered and parsed, goes for good, and another is imported under its id. -/
def recycledHistory : List Cached.Event :=
  [.verb (registerText "s" "\"string\""), .parseRecord "." 1,
    .verb (plainRequest (.deleteSubject "s" false)), .verb (plainRequest (.deleteSubject "s" true)),
    .verb (plainRequest (.setMode (some "s") .«import» false)),
    .verb (plainRequest (.register "s" { schema := some "\"int\"", id := some 1 } false))]

/-- The text parsed for an id through the cache, and the one parsed without. -/
def parsedTexts (s : Cached keyedServer.fmt) (ctx : String) (id : UInt32) :
    Option (String × String) :=
  match s.reg.store.getSchema ctx id with
  | none => none
  | some rec =>
      match (s.parseRecord ctx id rec).1, parseRecord keyedServer s.reg.reader ctx rec with
      | .ok cached, .ok plain => some (cached.canonical, plain.canonical)
      | _, _ => none

/-- The parse of the first schema is found for the second. -/
theorem stale_after_recycledHistory :
    let s : Cached keyedServer.fmt := recycledHistory.foldl Cached.step (Cached.empty .default)
    Function.Injective keyedServer.fmt.sha256 ∧
    ¬ ∀ ctx id rec, s.reg.store.getSchema ctx id = some rec →
      (s.parseRecord ctx id rec).1 = parseRecord keyedServer s.reg.reader ctx rec := by
  intro s
  refine ⟨keyed_injective, fun hall => ?_⟩
  have htexts : parsedTexts s "." 1 = some ("\"string\"", "\"int\"") := by decide
  unfold parsedTexts at htexts
  split at htexts
  · cases htexts
  · next rec hrec =>
      rw [hall "." 1 rec hrec] at htexts
      split at htexts
      · next cached plain hcached hplain =>
          cases hcached.symm.trans hplain
          obtain ⟨hstring, hint⟩ := Prod.mk.inj (Option.some.inj htexts)
          exact absurd (hstring.symm.trans hint) (by decide)
      · cases htexts

/-- A schema is registered and parsed, goes for good, and another gets the next id. -/
def renumberedHistory : List Cached.Event :=
  [.verb (registerText "s" "\"string\""), .parseRecord "." 1,
    .parseText ⟨.avro, "\"string\"", [], false⟩,
    .verb (plainRequest (.deleteSubject "s" false)), .verb (plainRequest (.deleteSubject "s" true)),
    .verb (registerText "s" "\"int\""), .parseRecord "." 2]

theorem coherent_renumberedHistory :
    let s : Cached keyedServer.fmt := renumberedHistory.foldl Cached.step (Cached.empty .default)
    parsedTexts s "." 2 = some ("\"int\"", "\"int\"") ∧ s.Coherent := by
  intro s
  refine ⟨by decide, Cached.coherent_of_fresh keyedServer keyed_injective ?_ .default
    renumberedHistory ?_⟩
  · intro b h
    cases h
  · refine ⟨?_, trivial, show TextQuery.Plain _ by decide, ?_, ?_, ?_, trivial, trivial⟩ <;>
      intro subject body normalize m hverb hm <;> cases hverb <;>
      simp only [RegisterSchema.new] at hm <;> split at hm <;> cases hm
    · exact ⟨by decide, by decide, by decide⟩
    · exact ⟨by decide, by decide, by decide⟩

end SchemaRegistry

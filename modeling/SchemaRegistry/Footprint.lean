import SchemaRegistry.References

/-!
What the plan of a verb may touch: rows under the verb's lock, and reference edges;
names without NUL, when the request and the container have only such names; and
deletes of versions under the id they have.
-/

namespace SchemaRegistry

open Lib

variable {srv : Server} {reg : Registry} {verb : Verb} {now : Int} {guid : String}
  {ws : List Write} {evs : List LogEvent}

/-! ### Names -/

/-- The names in a container are without NUL: those of its versions, and those its stored
references point at. -/
structure Registry.CleanNames (reg : Registry) : Prop where
  versions : ∀ {q v vr}, reg.rows (.version q.context q.subject v) = some vr →
    QualifiedSubject.NulFree q
  bodies : ∀ {ctx id rec}, reg.rows (.body ctx id) = some rec → ∀ sr ∈ rec.references,
    (refTarget ctx sr).NulFree

/-- The references a registration resolved name subjects without NUL. -/
theorem Registry.CleanNames.refs (h : reg.CleanNames) {m : RegisterSchema}
    {x : RegisterSchema.Resolved srv.fmt.Inner}
    (hx : m.resolve srv (reg.view now guid) = .ok (.inr x)) :
    (∀ sr ∈ x.canon.refs, (refTarget m.subject.context sr).NulFree) ∧
      ∀ t ∈ x.canon.targets, t.1.NulFree := by
  obtain ⟨found, hcanon⟩ := canonicalize_spec (resolve_spec hx).canon
  have hfound : ∀ f ∈ found, f.target.1.NulFree := fun f hf => by
    obtain ⟨vr, hrow⟩ := (hcanon.each f hf).row
    exact h.versions hrow
  rw [hcanon.refs, hcanon.targets]
  refine ⟨fun sr hsr => ?_, fun t ht => ?_⟩
  · obtain ⟨f, hf, rfl⟩ := List.mem_map.mp hsr
    rw [← (hcanon.each f hf).target]
    exact hfound f hf
  · obtain ⟨f, hf, rfl⟩ := List.mem_map.mp ht
    exact hfound f hf

section New

variable {subject : String} {req : RegisterSchemaRequest} {normalize : Bool} {m : RegisterSchema}

theorem subject_of_new (h : RegisterSchema.new subject req normalize = .ok m) :
    m.subject = QualifiedSubject.parse subject := by
  rw [eq_of_new h]

theorem draft_eq_of_new (h : RegisterSchema.new subject req normalize = .ok m) :
    m.draft = Draft.ofRequest req := by
  rw [eq_of_new h]

theorem nulFree_new (h : RegisterSchema.new subject req normalize = .ok m)
    (hv : (Verb.register subject req normalize).NulFree) : m.subject.NulFree := by
  rw [subject_of_new h]
  exact nulFree_parse (hv subject rfl)

theorem covers_of_new (h : RegisterSchema.new subject req normalize = .ok m) :
    (Verb.register subject req normalize).target.Covers m.subject.context :=
  congrArg QualifiedSubject.context (subject_of_new h)

end New

theorem Registry.CleanNames.removes (h : reg.CleanNames) {w : Write} (hw : reg.reader.Removes w) :
    w.NulFree := by
  obtain ⟨also, q, p, hp, hdel⟩ := hw
  cases hdel with
  | version => exact h.versions (Registry.mem_listVersions.mp hp)
  | refby rec sr hused hrec hsr => exact h.bodies hrec sr hsr
  | body => trivial

/-- The writes of every verb whose request names are without NUL have such names too. -/
theorem Registry.CleanNames.writes (h : reg.CleanNames) (hv : verb.NulFree)
    (heff : Effect srv (reg.view now guid) verb ws evs) : ∀ w ∈ ws, w.NulFree := by
  intro w hw
  cases heff with
  | silent => cases hw
  | settings hws hnul => exact hnul hv w hw
  | softDelete q rows extra hrows hextra hnul =>
    rcases List.mem_append.mp hw with hw | hw
    · obtain ⟨p, hp, rfl⟩ := List.mem_map.mp hw
      exact h.versions (Registry.mem_listVersions.mp (hrows p hp).1)
    · exact hnul hv w hw
  | hardDelete q rows hrows =>
    refine h.removes (removes_of_rows (fun p hp => ?_) hw)
    obtain ⟨p', hp', rfl⟩ := List.mem_map.mp hp
    exact (hrows p' hp').1
  | purge m hm hpurges hrows =>
    rcases List.mem_append.mp hw with hw | hw
    · exact h.removes (removes_of_rows (fun p hp => (hrows p hp).1) hw)
    · obtain rfl := List.mem_singleton.mp hw
      subst hm
      exact nulFree_scopeOf hv
  | register m hm x hx version id hversion hid =>
    have hq : m.subject.NulFree := nulFree_new hm hv
    rcases List.mem_append.mp hw with hw | hw
    · exact h.removes (removes_of_replaced hw)
    · cases mem_added.mp hw with
      | body => exact hq.1
      | next => trivial
      | version => exact hq
      | refby t ht => exact (h.refs hx).2 t ht

/-- The bodies a verb stores refer to names without NUL. -/
theorem Registry.CleanNames.putSchema (h : reg.CleanNames)
    (heff : Effect srv (reg.view now guid) verb ws evs) {ctx : String} {id : UInt32}
    {rec : SchemaRecord} {index : Bool} (hw : .putSchema ctx id rec index ∈ ws) :
    ∀ sr ∈ rec.references, (refTarget ctx sr).NulFree := by
  intro sr hsr
  obtain ⟨m, x, hx, rfl, rfl, -⟩ := heff.putSchema hw
  rcases bodyFor_references srv (reg.view now guid) m.subject.context id x.canon with hrefs | hold
  · exact (h.refs hx).1 sr (hrefs ▸ hsr)
  · exact h.bodies hold sr hsr

/-! ### Keys -/

/-- A reference edge. -/
def RowKey.IsEdge : RowKey → Prop
  | .refby .. => True
  | _ => False

theorem mem_doomed {m : SetMode} {r : Reader} {p : QualifiedSubject × UInt32 × VersionRecord} :
    p ∈ m.doomed r ↔ p.1 ∈ m.subjectsInScope r ∧ p.2 ∈ r.listVersions p.1.context p.1.subject := by
  simp only [SetMode.doomed, List.mem_flatMap, List.mem_map]
  constructor
  · rintro ⟨sq, hsq, row, hrow, rfl⟩
    exact ⟨hsq, hrow⟩
  · rintro ⟨hsq, hrow⟩
    exact ⟨p.1, hsq, p.2, hrow, rfl⟩

theorem covers_of_mem_subjectsInScope {m : SetMode} {r : Reader} {q : QualifiedSubject}
    (h : q ∈ m.subjectsInScope r) : (targetOf m.subject).Covers q.context := by
  unfold SetMode.subjectsInScope at h
  cases hm : m.subject with
  | none => trivial
  | some q' =>
    simp only [hm] at h
    have hctx : q.context = q'.context := by
      split at h
      · obtain ⟨name, -, rfl⟩ := List.mem_map.mp h
        rfl
      · rw [List.mem_singleton.mp h]
    rw [hctx]
    exact covers_targetOf q'

/-- An edge of a body that is there, in a context under the verb's lock, or of the one that the
verb registers. -/
inductive Verb.Edge (srv : Server) (view : ReadView) (verb : Verb) : RowKey → Prop
  | old {ctx : String} {id : UInt32} {rec : SchemaRecord} {sr : SchemaReference}
      (hcov : verb.target.Covers ctx) (hrec : view.reader.getSchema ctx id = some rec)
      (hsr : sr ∈ rec.references) : verb.Edge srv view
        (.refby (refTarget ctx sr).context (refTarget ctx sr).subject sr.target id)
  | new {subject : String} {req : RegisterSchemaRequest} {normalize : Bool} {m : RegisterSchema}
      {x : RegisterSchema.Resolved srv.fmt.Inner} {t : QualifiedSubject × UInt32} {id : UInt32}
      (hverb : verb = .register subject req normalize)
      (hm : RegisterSchema.new subject req normalize = .ok m)
      (hx : m.resolve srv view = .ok (.inr x)) (ht : t ∈ x.canon.targets) :
      verb.Edge srv view (.refby t.1.context t.1.subject t.2 id)

/-- A hard delete stays in the context of its row, edges apart. -/
theorem HardDeletes.owned {view : ReadView} {also : List (String × UInt32)} {q : QualifiedSubject}
    {v : UInt32} {vr : VersionRecord} {w : Write} (h : HardDeletes view.reader also q v vr w)
    (hq : verb.target.Covers q.context) {k : RowKey} (hk : k ∈ w.keys) :
    verb.target.Owns k ∨ verb.Edge srv view k := by
  cases h with
  | version | body =>
    obtain rfl := List.mem_singleton.mp hk
    exact .inl hq
  | refby rec sr hused hrec hsr =>
    obtain rfl := List.mem_singleton.mp hk
    exact .inr (.old hq hrec hsr)

/-- Every verb writes under its own lock, edges apart. -/
theorem Effect.owned_or_edge {view : ReadView} (h : Effect srv view verb ws evs) {w : Write}
    (hw : w ∈ ws) {k : RowKey} (hk : k ∈ w.keys) :
    verb.target.Owns k ∨ verb.Edge srv view k := by
  cases h with
  | silent => cases hw
  | settings hws hnul hown => exact .inl (hown w hw k hk)
  | softDelete q rows extra hrows hextra hnul hq hown =>
    rcases List.mem_append.mp hw with hw | hw
    · obtain ⟨p, -, rfl⟩ := List.mem_map.mp hw
      rcases List.mem_pair.mp hk with rfl | rfl
      · exact .inl hq
      · exact .inl hq
    · exact .inl (hown w hw k hk)
  | hardDelete q rows hrows hq =>
    obtain ⟨p, hp, hdel⟩ := mem_hardDeleteAll.mp hw
    obtain ⟨p', -, rfl⟩ := List.mem_map.mp hp
    exact hdel.owned hq hk
  | purge m hm hpurges hrows =>
    subst hm
    rcases List.mem_append.mp hw with hw | hw
    · obtain ⟨p, hp, hdel⟩ := mem_hardDeleteAll.mp hw
      refine hdel.owned ?_ hk
      exact covers_of_mem_subjectsInScope (mem_doomed.mp hp).1
    · obtain rfl := List.mem_singleton.mp hw
      obtain rfl := List.mem_singleton.mp hk
      exact .inl (ownsScope_scopeOf _)
  | register m hm x hx version id hversion hid =>
    have hcov := covers_of_new hm
    rcases List.mem_append.mp hw with hw | hw
    · rcases mem_replaced.mp hw with ⟨vr, -, hdel⟩ | ⟨p, -, -, -, -, hdel⟩
      · exact hdel.owned hcov hk
      · exact hdel.owned hcov hk
    · cases mem_added.mp hw with
      | body =>
        rcases List.mem_pair.mp hk with rfl | rfl
        · exact .inl hcov
        · exact .inl hcov
      | next =>
        obtain rfl := List.mem_singleton.mp hk
        exact .inl hcov
      | version =>
        rcases List.mem_pair.mp hk with rfl | rfl
        · exact .inl hcov
        · exact .inl hcov
      | refby t ht =>
        obtain rfl := List.mem_singleton.mp hk
        exact .inr (.new rfl hm hx ht)

theorem Effect.owned {view : ReadView} (h : Effect srv view verb ws evs) {w : Write} (hw : w ∈ ws)
    {k : RowKey} (hk : k ∈ w.keys) : verb.target.Owns k ∨ k.IsEdge :=
  (h.owned_or_edge hw hk).imp_right fun hedge => by
    cases hedge <;> trivial

end SchemaRegistry

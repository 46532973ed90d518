import SchemaRegistry.Lib.Acyclic
import SchemaRegistry.Ordinary

/-!
The reference graph. A version points at the versions its stored references name, in
whatever context. References are resolved, with all they lead to, in the state before the
version is stored, so a version under a new number is not among what it leads to. An import
over a number that is taken may reference what already leads there, and closes a cycle.
-/

namespace SchemaRegistry

open Lib Relation

variable {srv : Server} {reg : Registry} {verb : Verb} {now : Int} {guid : String}

/-! ### The graph -/

/-- A version that is there points at the targets of its stored references. -/
def Reader.Points (r : Reader) (a b : QualifiedSubject × UInt32) : Prop :=
  ∃ vr rec, r.getVersion a.1.context a.1.subject a.2 = some vr ∧
    r.getSchema a.1.context vr.id = some rec ∧
    ∃ sr ∈ rec.references, b = (refTarget a.1.context sr, sr.target)

/-! ### Resolution visits all it leads to -/

section Resolution

variable {r : Reader}

/-- The version is there, and what it points at was visited. -/
def Expanded (r : Reader) (visited : List (String × String × UInt32))
    (k : String × String × UInt32) : Prop :=
  ∃ vr rec, r.getVersion k.1 k.2.1 k.2.2 = some vr ∧ r.getSchema k.1 vr.id = some rec ∧
    ∀ sr ∈ rec.references,
      ((refTarget k.1 sr).context, (refTarget k.1 sr).subject, sr.target) ∈ visited

/-- What a part of the resolution visits: more than before, and all of that is expanded. -/
structure Collects (r : Reader) (acc acc' : Collected) : Prop where
  grows : acc.visited ⊆ acc'.visited
  expanded : ∀ k ∈ acc'.visited, k ∈ acc.visited ∨ Expanded r acc'.visited k

theorem Expanded.mono {visited visited' : List (String × String × UInt32)}
    {k : String × String × UInt32} (h : Expanded r visited k) (hsub : visited ⊆ visited') :
    Expanded r visited' k := by
  obtain ⟨vr, rec, hrow, hrec, hrefs⟩ := h
  exact ⟨vr, rec, hrow, hrec, fun sr hsr => hsub (hrefs sr hsr)⟩

theorem Collects.refl (acc : Collected) : Collects r acc acc :=
  ⟨List.Subset.refl _, fun _ hk => .inl hk⟩

theorem Collects.trans {acc acc₁ acc₂ : Collected} (h : Collects r acc acc₁)
    (h' : Collects r acc₁ acc₂) : Collects r acc acc₂ where
  grows := List.Subset.trans h.grows h'.grows
  expanded k hk := by
    rcases h'.expanded k hk with hk | hk
    · exact (h.expanded k hk).imp id fun hexp => hexp.mono h'.grows
    · exact .inr hk

/-- One after another, and each leaves its own key behind. -/
theorem Collects.foldlM {α : Type} {f : Collected → α → ApiResult Collected}
    {key : α → String × String × UInt32} {xs : List α}
    (hstep : ∀ a ∈ xs, ∀ acc acc', f acc a = .ok acc' →
      Collects r acc acc' ∧ key a ∈ acc'.visited) {acc acc' : Collected}
    (h : xs.foldlM f acc = .ok acc') :
    Collects r acc acc' ∧ ∀ a ∈ xs, key a ∈ acc'.visited := by
  induction xs generalizing acc with
  | nil =>
    cases h
    exact ⟨.refl _, by simp⟩
  | cons a xs ih =>
    rw [List.foldlM_cons] at h
    obtain ⟨acc₁, hfirst, hrest⟩ := bind_eq_ok.mp h
    obtain ⟨hone, hkey⟩ := hstep a List.mem_cons_self acc acc₁ hfirst
    obtain ⟨hmore, hkeys⟩ := ih (fun b hb => hstep b (List.mem_cons_of_mem a hb)) hrest
    refine ⟨hone.trans hmore, fun b hb => ?_⟩
    rcases List.mem_cons.mp hb with rfl | hb
    · exact hmore.grows hkey
    · exact hkeys b hb

theorem collectRef_collects {levels : Nat} {name : String} {q : QualifiedSubject} {v : UInt32}
    {acc acc' : Collected} (h : collectRef r levels name q v acc = .ok acc') :
    Collects r acc acc' ∧ (q.context, q.subject, v) ∈ acc'.visited := by
  induction levels generalizing name q v acc acc' with
  | zero => cases h
  | succ levels ih =>
    rw [collectRef] at h
    split at h
    · next hseen =>
        cases h
        exact ⟨.refl acc, hseen⟩
    · split at h
      · cases h
      · next vr hrow =>
          split at h
          · cases h
          · next rec hrec =>
              obtain ⟨acc₁, hfold, h⟩ := bind_eq_ok.mp h
              cases h
              obtain ⟨hcollects, hkeys⟩ := Collects.foldlM
                (fun sr _ acc acc' => @ih sr.name (refTarget q.context sr) sr.target acc acc') hfold
              have hself := hcollects.grows List.mem_cons_self
              refine ⟨⟨fun k hk => hcollects.grows (List.mem_cons_of_mem _ hk), fun k hk => ?_⟩,
                hself⟩
              rcases hcollects.expanded k hk with hk | hk
              · rcases List.mem_cons.mp hk with rfl | hk
                · exact .inr ⟨vr, rec, hrow, hrec, hkeys⟩
                · exact .inl hk
              · exact .inr hk

/-- Whatever the targets of a resolved schema lead to is there. -/
theorem Canonical.reached {ctx : String} {refsIn : List RefIn} {refs : List SchemaReference}
    {targets : List (QualifiedSubject × UInt32)} {found : List ResolvedReference}
    (h : Canonical r ctx refsIn refs targets found) {t k : QualifiedSubject × UInt32}
    (ht : t ∈ targets) (hpath : ReflTransGen r.Points t k) :
    ∃ vr, r.getVersion k.1.context k.1.subject k.2 = some vr := by
  obtain ⟨acc, hacc⟩ := h.collected
  have hstep : ∀ f ∈ found, ∀ acc acc',
      collectRef r maxLevels f.concrete.name f.target.1 f.target.2 acc = .ok acc' →
      Collects r acc acc' ∧ (f.target.1.context, f.target.1.subject, f.target.2) ∈ acc'.visited :=
    fun _ _ _ _ => collectRef_collects
  obtain ⟨hcollects, hkeys⟩ := Collects.foldlM hstep hacc
  have hexp : ∀ k ∈ acc.visited, Expanded r acc.visited k :=
    fun k hk => (hcollects.expanded k hk).resolve_left (by simp)
  have hvisited : (k.1.context, k.1.subject, k.2) ∈ acc.visited := by
    induction hpath with
    | refl =>
      rw [h.targets] at ht
      obtain ⟨f, hf, rfl⟩ := List.mem_map.mp ht
      exact hkeys f hf
    | tail _ hedge ih =>
      obtain ⟨vr, rec, hrow, hrec, sr, hsr, rfl⟩ := hedge
      obtain ⟨vr', rec', hrow', hrec', hrefs⟩ := hexp _ ih
      obtain rfl := Option.some.inj (hrow.symm.trans hrow')
      obtain rfl := Option.some.inj (hrec.symm.trans hrec')
      exact hrefs sr hsr
  obtain ⟨vr, -, hrow, -⟩ := hexp _ hvisited
  exact ⟨vr, hrow⟩

end Resolution

/-! ### The condition -/

/-- A registration in range that, if it takes a number that is taken, references nothing that
leads to the version it overwrites. -/
structure RegisterSchema.Forward (srv : Server) (view : ReadView) (m : RegisterSchema) : Prop
    extends RegisterSchema.InRange srv view m where
  overwrites : 0 < m.draft.version → ∀ vr ∈ view.reader.getVersion m.subject.context
      m.subject.subject m.draft.version.toUInt32,
    ∀ c ∈ m.content srv view, ∀ t ∈ c.targets,
      ¬ ReflTransGen view.reader.Points t (m.subject, m.draft.version.toUInt32)

/-- A step that, if it registers, registers forward. -/
def Registry.Forward (srv : Server) (reg : Registry) (req : Request) : Prop :=
  ∀ subject body normalize m, req.verb = .register subject body normalize →
    RegisterSchema.new subject body normalize = .ok m →
    m.Forward srv (reg.view req.now req.newGuid)

/-! ### Steps -/

theorem points_of_shrinks {reg' : Registry} (hs : Shrinks reg reg'.rows)
    {a b : QualifiedSubject × UInt32} (h : reg'.reader.Points a b) : reg.reader.Points a b := by
  obtain ⟨vr, rec, hrow, hrec, hsr⟩ := h
  obtain ⟨old, hold, hid, -⟩ := hs.version hrow
  exact ⟨old, rec, hold, hid ▸ hs.body hrec, hsr⟩

section Registers

variable {reg' : Registry} {m : RegisterSchema} {x : RegisterSchema.Resolved srv.fmt.Inner}
  {version id : UInt32}

/-- A registration gives the version it stores the targets it resolved, and leaves the others
as they are. -/
theorem points_of_registers (h : reg.InBounds) (hrange : m.InRange srv (reg.view now guid))
    (hreg : Registration srv (reg.view now guid) verb m x version id)
    (hrows : reg'.rows = reg.rows.after
      (RegisterSchema.written srv (reg.view now guid) m.subject version id x.canon))
    {a b : QualifiedSubject × UInt32} (hpoints : reg'.reader.Points a b) :
    a = (m.subject, version) ∧ b ∈ x.canon.targets ∨
      a ≠ (m.subject, version) ∧ reg.reader.Points a b := by
  obtain ⟨⟨ctx, subject⟩, v⟩ := a
  obtain ⟨vr, rec, hrow, hrec, sr, hsr, rfl⟩ := hpoints
  replace hrow : reg'.rows (.version ctx subject v) = some vr := hrow
  replace hrec : reg'.rows (.body ctx vr.id) = some rec := hrec
  rw [hrows] at hrow hrec
  rcases version_of_register hrow with ⟨hq, rfl, rfl⟩ | ⟨hne, hold⟩
  · refine .inl ⟨by rw [hq], ?_⟩
    obtain rfl : m.subject.context = ctx := by rw [hq]
    rw [body_of_register_self, Option.some.injEq] at hrec
    rw [← hrec, hrange.bodyFor_references hreg] at hsr
    obtain ⟨found, hcanon⟩ := canonicalize_spec (resolve_spec hreg.resolved).canon
    rw [h.targets hcanon]
    exact List.mem_map.mpr ⟨sr, hsr, rfl⟩
  · refine .inr ⟨fun heq => hne ?_, vr, rec, hold, ?_, sr, hsr, rfl⟩
    · simp only [Prod.mk.injEq] at heq
      exact ⟨heq.1.symm, heq.2⟩
    · by_cases hown : ctx = m.subject.context ∧ vr.id = id
      · -- The id is in use, so its body stays.
        obtain ⟨rfl, rfl⟩ := hown
        have hused : reg.rows.Uses m.subject.context vr.id := ⟨subject, v, vr, hold, rfl⟩
        obtain ⟨old, hget⟩ := Option.isSome_iff_exists.mp (h.present _ _ hused)
        rw [body_of_register_self, (h.bodyFor_of_uses hrange hreg hused hget).1] at hrec
        exact hget.trans hrec
      · rw [body_of_register_ne _ hown] at hrec
        obtain ⟨D, hremoval⟩ := removal_replaced reg.reader m.subject version id
        exact hremoval.body_of_after hrec

/-- Nothing that a forward registration references leads to the version it stores. -/
theorem RegisterSchema.Forward.not_reached (hfwd : m.Forward srv (reg.view now guid))
    (hreg : Registration srv (reg.view now guid) verb m x version id)
    {t : QualifiedSubject × UInt32} (ht : t ∈ x.canon.targets) :
    ¬ ReflTransGen reg.reader.Points t (m.subject, version) := by
  intro hpath
  obtain ⟨found, hcanon⟩ := canonicalize_spec (resolve_spec hreg.resolved).canon
  -- What is led to is there, so the number was taken and came with the request.
  obtain ⟨vr, hrow⟩ := hcanon.reached ht hpath
  have hmem : (version, vr) ∈ reg.reader.listVersions m.subject.context m.subject.subject :=
    Registry.mem_listVersions.mpr hrow
  obtain ⟨-, -, htaken⟩ := chooseVersion_spec hfwd.versions hreg.version
  obtain ⟨hpos, rfl⟩ := htaken vr hmem
  rw [(resolve_spec hreg.resolved).inherits.version] at hpos hpath hrow
  exact hfwd.overwrites hpos vr hrow x.canon (resolve_spec hreg.resolved).content t ht hpath

end Registers

/-- Numbers and ids in bounds, and no cycle. -/
structure Registry.Ordered (reg : Registry) : Prop extends reg.InBounds where
  acyclic : Acyclic reg.reader.Points

theorem Registry.Ordered.step {req : Request} (h : reg.Ordered) (hfwd : reg.Forward srv req) :
    (reg.step srv req).Ordered := by
  obtain ⟨ws, evs, heff, hstep⟩ := Registry.rows_step srv reg req
  have hc : (reg.step srv req).snapshot.Consistent := consistent_step h.consistent
  have hp : (reg.step srv req).rows.UsersHaveBodies := hstep ▸ h.present.effect h.consistent heff
  rcases heff.shrinks_or_registers with hs | ⟨m, x, version, id, hreg, rfl⟩
  · rw [← hstep] at hs
    exact { h.toInBounds.shrinks hc hp hs with
      acyclic := h.acyclic.mono fun a b => points_of_shrinks hs }
  · obtain ⟨subject, body, normalize, hverb, hm⟩ := hreg.new
    have hfwd := hfwd subject body normalize m hverb hm
    have hpoints := fun a b => @points_of_registers srv reg req.verb req.now req.newGuid
      (reg.step srv req) m x version id h.toInBounds hfwd.toInRange hreg hstep a b
    refine { h.toInBounds.registers hfwd.toInRange hreg hc hp hstep with acyclic := ?_ }
    refine h.acyclic.redirect (r := (m.subject, version)) ?_ ?_
    · intro a b hedge hne
      exact ((hpoints a b hedge).resolve_left fun hown => hne hown.1).2
    · intro b hedge
      rcases hpoints _ b hedge with ⟨-, ht⟩ | ⟨hne, -⟩
      · exact hfwd.not_reached hreg ht
      · exact absurd rfl hne

theorem Registry.ordered_empty (tenant : TenantId) : (Registry.empty tenant).Ordered := by
  refine { Registry.inBounds_empty tenant with acyclic := ?_ }
  intro a hcycle
  obtain ⟨b, ⟨vr, rec, hrow, -⟩, -⟩ := TransGen.head'_iff.mp hcycle
  cases hrow

/-- In every run whose registrations stay in range, and import over a taken number only what
does not lead there: following the stored references from a version never comes back to it. -/
theorem acyclic_of_forward (srv : Server) (tenant : TenantId) (reqs : List Request)
    (hfwd : Along (Registry.step srv) (Registry.Forward srv) (Registry.empty tenant) reqs) :
    Acyclic ((Registry.empty tenant).runAll srv reqs).reader.Points := by
  have hinv : ((Registry.empty tenant).runAll srv reqs).Ordered :=
    inv_of_along hfwd (Registry.ordered_empty tenant) fun _ _ h hok => h.step hok
  exact hinv.acyclic

/-- Two versions, the second referencing the first, and an import of the first anew that
references the second. -/
def turnedHistory : List Request :=
  [plainRequest (.setMode (some "a") .«import» false),
    plainRequest (.register "a"
      { schema := some "\x7b\x7d", schemaType := some "JSON", id := some 1, version := some 1 }
        false),
    registerReferring "b" "true" "a" 1,
    plainRequest (.register "a"
      { schema := some "false", schemaType := some "JSON", id := some 9, version := some 1,
        references := some [⟨false, some "b", some "b", some 1⟩] } false)]

/-- Each of the two leads to the other. -/
theorem cycle_after_turnedHistory :
    ¬ Acyclic (plainRun turnedHistory).reader.Points := by
  have hrun : ∃ reg, reg = plainRun turnedHistory ∧
      reg.reader.getVersion "." "a" 1 = some ⟨9, false, 0⟩ ∧
      (reg.reader.getSchema "." 9).map (·.references) = some [⟨"b", "b", 1⟩] ∧
      reg.reader.getVersion "." "b" 1 = some ⟨2, false, 0⟩ ∧
      (reg.reader.getSchema "." 2).map (·.references) = some [⟨"a", "a", 1⟩] :=
    ⟨_, rfl, by decide⟩
  obtain ⟨reg, hreg, hrow, hrefs, hrow', hrefs'⟩ := hrun
  rw [← hreg]
  intro hacyclic
  obtain ⟨rec, hrec, hrefs⟩ := Option.map_eq_some_iff.mp hrefs
  obtain ⟨rec', hrec', hrefs'⟩ := Option.map_eq_some_iff.mp hrefs'
  have hthere : reg.reader.Points (⟨".", "a"⟩, 1) (⟨".", "b"⟩, 1) :=
    ⟨_, rec, hrow, hrec, ⟨"b", "b", 1⟩, by simp [hrefs], by decide⟩
  have hback : reg.reader.Points (⟨".", "b"⟩, 1) (⟨".", "a"⟩, 1) :=
    ⟨_, rec', hrow', hrec', ⟨"a", "a", 1⟩, by simp [hrefs'], by decide⟩
  exact hacyclic (⟨".", "a"⟩, 1) (.tail (.single hthere) hback)

/-- A version, and one in another context that references it. -/
def crossingHistory : List Request :=
  [registerJson "s" "\x7b\x7d", registerReferring ":.c:t" "true" ":.:s" 1]

theorem acyclic_crossingHistory :
    Along (Registry.step plainServer) (Registry.Forward plainServer) (Registry.empty .default)
      crossingHistory ∧
    Acyclic (plainRun crossingHistory).reader.Points := by
  have hfwd : Along (Registry.step plainServer) (Registry.Forward plainServer)
      (Registry.empty .default) crossingHistory := by
    refine ⟨?_, ?_, trivial⟩ <;> intro subject body normalize m hverb hm <;> cases hverb <;>
      simp only [RegisterSchema.new] at hm <;> split at hm <;> cases hm
    · exact ⟨⟨by decide, by decide,
        (Registry.bodiesAgree_empty .default).distinct (by decide)⟩,
        fun hpos => absurd hpos (by decide)⟩
    · have hagree : ((Registry.empty .default).step plainServer
          (registerJson "s" "\x7b\x7d")).BodiesAgree :=
        (Registry.bodiesAgree_empty .default).step (by rintro _ _ _ ⟨⟩)
      exact ⟨⟨by decide, by decide, hagree.distinct (by decide)⟩,
        fun hpos => absurd hpos (by decide)⟩
  exact ⟨hfwd, acyclic_of_forward plainServer .default crossingHistory hfwd⟩

/-- The reference crosses the contexts. -/
example : ((plainRun crossingHistory).reader.getSchema
    ".c" 1).map (·.references) = some [⟨":.:s", ":.:s", 1⟩] := by decide

end SchemaRegistry

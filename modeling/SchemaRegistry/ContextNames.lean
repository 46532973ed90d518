import SchemaRegistry.Edges

/-!
Names of contexts and of subjects as they are written. A name with a context in front reads back
as what it was made from; a bare name does unless it starts like a qualified one. The contexts a
container knows come from parsed names.
-/

namespace SchemaRegistry

open Lib

variable {srv : Server} {reg : Registry} {now : Int} {guid : String} {verb : Verb}
  {ws : List Write} {evs : List LogEvent}

/-- The names contexts have: the wildcard, or a dot and something without a colon. -/
def ContextName (ctx : String) : Prop :=
  ctx = wildcardContext ∨ ∃ rest, ctx.toList = '.' :: rest ∧ ':' ∉ rest

theorem contextName_default : ContextName defaultContext := .inr ⟨[], rfl, List.not_mem_nil⟩

theorem ContextName.ne_empty {ctx : String} (h : ContextName ctx) : ctx.toList ≠ [] := by
  rcases h with rfl | ⟨rest, hrest, -⟩
  · decide
  · rw [hrest]
    exact List.cons_ne_nil _ _

theorem not_mem_of_splitOnce {l before after : List Char}
    (h : splitOnce ':' l = some (before, after)) :
    ':' ∉ before := by
  intro hmem
  by_cases hcolon : ':' ∈ l
  · obtain ⟨b, a, rfl, hb⟩ := List.eq_append_cons_of_mem hcolon
    rw [splitOnce_append hb] at h
    cases h
    exact hb hmem
  · rw [splitOnce_eq_none hcolon] at h
    cases h

theorem contextName_dot {l : List Char} (h : ':' ∉ l) :
    ContextName (normalizeParsed (String.ofList ('.' :: l))) := by
  have hne : normalizeParsed (String.ofList ('.' :: l)) = String.ofList ('.' :: l) := by
    simp [normalizeParsed]
  rw [hne]
  exact .inr ⟨l, String.toList_ofList, h⟩

theorem contextName_parse (raw : String) : ContextName (QualifiedSubject.parse raw).context := by
  unfold QualifiedSubject.parse
  split
  · next rest hraw =>
      split
      · next before after hsplit => exact contextName_dot (not_mem_of_splitOnce hsplit)
      · next hnone =>
          refine contextName_dot fun hcolon => ?_
          obtain ⟨b, a, rfl, hb⟩ := List.eq_append_cons_of_mem hcolon
          rw [splitOnce_append hb] at hnone
          cases hnone
  · exact .inl rfl
  · exact contextName_default

theorem contextName_normalizeContext {ctx name : String} (h : normalizeContext ctx = some name) :
    ContextName name := by
  unfold normalizeContext at h
  split at h
  · cases h
    exact contextName_default
  · split at h
    · cases h
      exact .inl rfl
    · simp only [Option.ite_none_right_eq_some, Option.some.injEq, Bool.and_eq_true,
        List.all_eq_true] at h
      obtain ⟨⟨-, hall⟩, rfl⟩ := h
      by_cases hdot : ctx.toList.head? = some '.'
      · rw [if_pos hdot] at hall ⊢
        obtain ⟨rest, hrest⟩ := List.head?_eq_some_iff.mp hdot
        refine .inr ⟨rest, hrest, fun hcolon => ?_⟩
        rw [hrest, List.tail_cons] at hall
        exact absurd (hall ':' hcolon) (by decide)
      · rw [if_neg hdot] at hall ⊢
        refine .inr ⟨ctx.toList, by simp, fun hcolon => ?_⟩
        exact absurd (hall ':' (by simpa using hcolon)) (by decide)

/-- A qualified name reads back as what it was made from. -/
theorem parse_qualify {ctx subject : String} (hctx : ContextName ctx) (hne : ctx ≠ defaultContext) :
    QualifiedSubject.parse (qualify ctx subject) = ⟨ctx, subject⟩ := by
  rw [qualify, if_neg hne]
  rcases hctx with rfl | ⟨rest, hrest, hcolon⟩
  · have hraw : (":" ++ wildcardContext ++ ":" ++ subject).toList
        = ':' :: '*' :: ':' :: subject.toList := by simp [wildcardContext]
    simp only [QualifiedSubject.parse, hraw, String.ofList_toList]
  · have hraw : (":" ++ ctx ++ ":" ++ subject).toList
        = ':' :: '.' :: (rest ++ ':' :: subject.toList) := by simp [hrest]
    have hback : String.ofList ('.' :: rest) = ctx := by rw [← hrest, String.ofList_toList]
    simp only [QualifiedSubject.parse, hraw, splitOnce_append hcolon, String.ofList_toList, hback]
    rw [normalizeParsed, if_neg]
    rw [← hback]
    simp

/-- A name that does not start with a colon is in the default context. -/
theorem parse_of_head?_ne {raw : String} (h : raw.toList.head? ≠ some ':') :
    QualifiedSubject.parse raw = ⟨defaultContext, raw⟩ := by
  unfold QualifiedSubject.parse
  split
  · next hraw => simp [hraw] at h
  · next hraw => simp [hraw] at h
  · rfl

/-- A version after a step was there before, or stands under the name of the registration the step
was. -/
theorem Registry.version_step {req : Request} {ctx subject : String} {v : UInt32}
    {vr : VersionRecord} (hrow : (reg.step srv req).rows (.version ctx subject v) = some vr) :
    (∃ old, reg.rows (.version ctx subject v) = some old)
      ∨ ∃ raw body normalize, req.verb = .register raw body normalize ∧ isValidSubject raw = true
        ∧ QualifiedSubject.parse raw = ⟨ctx, subject⟩ := by
  obtain ⟨ws, evs, heff, hrows⟩ := Registry.rows_step srv reg req
  rw [hrows] at hrow
  rcases heff.shrinks_or_registers with hs | ⟨m, x, version, id, hreg, rfl⟩
  · obtain ⟨old, hold, -⟩ := hs.version hrow
    exact .inl ⟨old, hold⟩
  · rcases version_of_register hrow with ⟨hq, -⟩ | ⟨-, hold⟩
    · obtain ⟨name, body, normalize, hverb, hnew⟩ := hreg.new
      refine .inr ⟨name, body, normalize, hverb, ?_, (subject_of_new hnew).symm.trans hq⟩
      by_contra hinvalid
      rw [RegisterSchema.new, if_neg hinvalid] at hnew
      cases hnew
    · exact .inl ⟨vr, hold⟩

/-- The contexts of a container's versions come from parsed names. -/
def Rows.NamesContexts (ρ : Rows) : Prop :=
  ∀ ctx subject v vr, ρ (.version ctx subject v) = some vr → ContextName ctx

theorem Rows.NamesContexts.step {req : Request}
    (h : reg.rows.NamesContexts) : (reg.step srv req).rows.NamesContexts := by
  intro ctx subject v vr hrow
  obtain ⟨old, hold⟩ | ⟨raw, -, -, -, -, hraw⟩ := Registry.version_step hrow
  · exact h ctx subject v old hold
  · have hctx := contextName_parse raw
    rwa [hraw] at hctx

theorem namesContexts_runAll (srv : Server) (tenant : TenantId) (reqs : List Request) :
    ((Registry.empty tenant).runAll srv reqs).rows.NamesContexts := by
  have hstep : ∀ (reg : Registry) (req : Request), reg.rows.NamesContexts →
      (reg.step srv req).rows.NamesContexts := fun _ _ => Rows.NamesContexts.step
  refine inv_of_run ?_ hstep
  intro ctx subject v vr hrow
  rw [Registry.rows_empty] at hrow
  cases hrow

/-! ### A context in use is known -/

/-- Every context that holds a version is listed. -/
def Rows.Filed (ρ : Rows) : Prop :=
  ∀ ctx subject v vr, ρ (.version ctx subject v) = some vr → ρ (.known ctx) = true

theorem dropsEmpty_of_isRemoval {r : Reader} {w : Write} (h : w.IsRemoval) : w.DropsEmpty r := by
  cases w <;> trivial

/-- No verb drops a context that has subjects. -/
theorem Effect.dropsEmpty {view : ReadView} (h : Effect srv view verb ws evs) :
    ∀ w ∈ ws, w.DropsEmpty view.reader := by
  cases h with
  | silent => simp
  | settings hws hnul hown hempty => exact hempty
  | softDelete q rows extra hrows hextra hnul hq hown hempty =>
    intro w hw
    rcases List.mem_append.mp hw with hw | hw
    · obtain ⟨p, -, rfl⟩ := List.mem_map.mp hw
      trivial
    · exact hempty w hw
  | hardDelete q rows hrows =>
    exact fun w hw => dropsEmpty_of_isRemoval (hardDeleteAll_isRemoval _ hw)
  | purge m hm hpurges hrows =>
    intro w hw
    rcases List.mem_append.mp hw with hw | hw
    · exact dropsEmpty_of_isRemoval (hardDeleteAll_isRemoval _ hw)
    · obtain rfl := List.mem_singleton.mp hw
      trivial
  | register m hm x hx version id hversion hid =>
    intro w hw
    rcases List.mem_append.mp hw with hw | hw
    · exact dropsEmpty_of_isRemoval (replaced_isRemoval w hw)
    · cases mem_added.mp hw <;> trivial

theorem Rows.Filed.effect (h : reg.rows.Filed) (hc : reg.snapshot.Consistent)
    (heff : Effect srv (reg.view now guid) verb ws evs) : (reg.rows.after ws).Filed := by
  intro ctx subject v vr hrow
  rcases writeAll_cases Write.touch reg.rows ws (.known ctx) with ⟨hsame, huntouched⟩ | ⟨w, hw, hx⟩
  · refine hsame.trans ?_
    rcases writeAll_cases Write.touch reg.rows ws (.version ctx subject v) with
      ⟨hold, -⟩ | ⟨w, hw, hx⟩
    · exact h ctx subject v vr (hold.symm.trans hrow)
    · -- What stores a version makes its context known.
      rw [Rows.after] at hrow
      rw [hrow] at hx
      have hnot := huntouched w hw
      cases w <;> simp [Write.touch] at hx hnot
      exact (hnot hx.1.1).elim
  · cases w <;> simp [Write.touch] at hx
    · rw [Rows.after]
      exact hx.2
    · -- The context was empty, and what the verb leaves was there.
      obtain ⟨rfl, -⟩ := hx
      have hempty := heff.dropsEmpty _ hw
      rcases heff.shrinks_or_registers with hs | ⟨m, x, version, id, -, rfl⟩
      · obtain ⟨old, hold, -⟩ := hs.version hrow
        have hmem := (Registry.mem_listSubjectNames hc).mpr ⟨v, old, hold⟩
        rw [show reg.reader.listSubjectNames _ = [] from hempty] at hmem
        cases hmem
      · rcases List.mem_append.mp hw with hw | hw
        · exact (replaced_isRemoval _ hw).elim
        · cases mem_added.mp hw

theorem filed_runAll (srv : Server) (tenant : TenantId) (reqs : List Request) :
    ((Registry.empty tenant).runAll srv reqs).rows.Filed := by
  have hstep : ∀ (reg : Registry) (req : Request), reg.snapshot.Consistent ∧ reg.rows.Filed →
      (reg.step srv req).snapshot.Consistent ∧ (reg.step srv req).rows.Filed := by
    rintro reg req ⟨hc, hfiled⟩
    obtain ⟨ws, evs, heff, hrows⟩ := Registry.rows_step srv reg req
    exact ⟨consistent_step hc, hrows ▸ hfiled.effect hc heff⟩
  have h0 : (Registry.empty tenant).rows.Filed := by
    intro ctx subject v vr hrow
    rw [Registry.rows_empty] at hrow
    cases hrow
  exact (inv_of_run ⟨Snapshot.consistent_new, h0⟩ hstep).2

/-- What a verb stores a version under is a parsed name or was there. -/
theorem Effect.contextName_of_putVersion (h : Effect srv (reg.view now guid) verb ws evs)
    (hnames : reg.rows.NamesContexts) {ctx subject : String} {v : UInt32} {rec : VersionRecord}
    (hw : .putVersion ctx subject v rec ∈ ws) : ContextName ctx := by
  cases h with
  | silent => cases hw
  | settings hws => exact (hws _ hw).elim
  | softDelete q rows extra hrows hextra =>
    rcases List.mem_append.mp hw with hw | hw
    · obtain ⟨p, hp, hput⟩ := List.mem_map.mp hw
      cases hput
      exact hnames _ _ _ _ (Registry.mem_listVersions.mp (hrows p hp).1)
    · exact (hextra _ hw).elim
  | hardDelete => exact (hardDeleteAll_isRemoval _ hw).elim
  | purge =>
    rcases List.mem_append.mp hw with hw | hw
    · exact (hardDeleteAll_isRemoval _ hw).elim
    · cases List.mem_singleton.mp hw
  | register m hm x hx version id hversion hid =>
    rcases List.mem_append.mp hw with hw | hw
    · exact (replaced_isRemoval _ hw).elim
    · cases mem_added.mp hw
      rw [subject_of_new hm]
      exact contextName_parse _

/-- The contexts a container knows have context names. -/
theorem contextName_of_known (srv : Server) (tenant : TenantId) (reqs : List Request) {ctx : String}
    (h : ((Registry.empty tenant).runAll srv reqs).rows (.known ctx) = true) : ContextName ctx := by
  have hstep : ∀ (reg : Registry) (req : Request),
      (reg.rows.NamesContexts ∧ ∀ ctx, reg.rows (.known ctx) = true → ContextName ctx) →
      (reg.step srv req).rows.NamesContexts
        ∧ ∀ ctx, (reg.step srv req).rows (.known ctx) = true → ContextName ctx := by
    rintro reg req ⟨hnames, hknown⟩
    refine ⟨hnames.step, fun ctx hctx => ?_⟩
    obtain ⟨ws, evs, heff, hrows⟩ := Registry.rows_step srv reg req
    rw [hrows] at hctx
    rcases writeAll_cases Write.touch reg.rows ws (.known ctx) with ⟨hsame, -⟩ | ⟨w, hw, hx⟩
    · exact hknown ctx (hsame.symm.trans hctx)
    · rw [Rows.after] at hctx
      rw [hctx] at hx
      cases w <;> simp [Write.touch] at hx
      subst hx
      exact heff.contextName_of_putVersion hnames hw
  refine (inv_of_run ⟨?_, ?_⟩ hstep).2 ctx h
  · intro ctx subject v vr hrow
    rw [Registry.rows_empty] at hrow
    cases hrow
  · intro ctx hctx
    rw [Registry.rows_empty] at hctx
    cases hctx

/-- A context that a registration names. -/
theorem contextName_of_known_ctx : ContextName ".ctx" :=
  contextName_of_known plainServer .default [registerText ":.ctx:a" "\"int\""] (by decide)

end SchemaRegistry

import SchemaRegistry.ContextNames
import SchemaRegistry.Exporter.Destination

/-!
What an exporter keeps apart at its destination. Ids are per context, so two source contexts
must not meet in one destination context; and a destination subject must stand for one source
subject. The shape rules on an exporter see to it as far as its patterns go; a rename format
that drops the subject, a name that the destination reads as a qualified one, and a reference
out of the one context of a CUSTOM or DEFAULT exporter are beyond them.
-/

namespace SchemaRegistry

open Lib

namespace Exporter

variable {glob : String → String → Bool} {info : ExporterInfo} {clusterId : String} {r : Reader}

/-! ### What an exporter can send -/

/-- The versions an exporter may come to: those of the subjects that its patterns match, and
what the ones it can send reference. -/
inductive Reaches (glob : String → String → Bool) (info : ExporterInfo) (r : Reader) :
    String → String → UInt32 → Prop
  | matching {ctx subject : String} {version : UInt32}
      (h : subjectMatches glob info.subjects ctx subject = true) :
      Reaches glob info r ctx subject version
  | reference {ctx subject : String} {version : UInt32} {vr : VersionRecord} {rec : SchemaRecord}
      (h : Reaches glob info r ctx subject version)
      (hpayload : exportPayload r ctx subject version = .ok (some (vr, rec)))
      {sr : SchemaReference} (hsr : sr ∈ rec.references) :
      Reaches glob info r (exportTarget ctx sr).context (exportTarget ctx sr).subject sr.target

/-- The versions an exporter can send, with what it sends of them. -/
def CanSend (glob : String → String → Bool) (info : ExporterInfo) (r : Reader)
    (ctx subject : String) (version : UInt32) (vr : VersionRecord) (rec : SchemaRecord) : Prop :=
  Reaches glob info r ctx subject version
    ∧ exportPayload r ctx subject version = .ok (some (vr, rec))

/-! ### Destination names -/

theorem not_mem_contextId (clusterId : String) : ':' ∉ (contextId clusterId).toList := by
  rw [contextId, String.toList_ofList]
  intro h
  obtain ⟨c, -, hc⟩ := List.mem_map.mp h
  split at hc
  · next hok =>
      subst hc
      revert hok
      decide
  · revert hc
    decide

theorem not_mem_of_contextName {ctx : String} (h : ContextName ctx) : ':' ∉ ctx.toList := by
  rcases h with rfl | ⟨rest, hrest, hcolon⟩
  · decide
  · rw [hrest]
    simpa using hcolon

theorem contextName_destContext {ctx : String} (h : ContextName ctx) :
    ContextName (destContext info clusterId ctx) := by
  have hauto : ∀ tail : String, ':' ∉ tail.toList →
      ContextName ("." ++ contextId clusterId ++ tail) := fun tail htail =>
    .inr ⟨(contextId clusterId).toList ++ tail.toList, by simp,
      fun hmem => (List.mem_append.mp hmem).elim (not_mem_contextId clusterId) htail⟩
  unfold destContext
  split
  · cases hnorm : info.context.bind normalizeContext with
    | none => exact contextName_default
    | some name =>
      obtain ⟨c, -, hc⟩ := Option.bind_eq_some_iff.mp hnorm
      exact contextName_normalizeContext hc
  · split
    · exact h
    · split
      · exact contextName_default
      · split
        · have := hauto "" (by simp)
          rwa [String.append_empty] at this
        · exact hauto ctx (not_mem_of_contextName h)

theorem toList_destContext_auto (htype : info.contextType = "AUTO") (ctx : String) :
    (destContext info clusterId ctx).toList = '.' :: (contextId clusterId).toList
      ++ if ctx = defaultContext then [] else ctx.toList := by
  simp only [destContext, htype]
  by_cases hctx : ctx = defaultContext <;> simp [hctx]

/-- AUTO and NONE keep contexts apart. -/
theorem eq_of_destContext_eq (htype : info.contextType = "AUTO" ∨ info.contextType = "NONE")
    {ctx ctx' : String} (hctx : ContextName ctx) (hctx' : ContextName ctx')
    (h : destContext info clusterId ctx = destContext info clusterId ctx') : ctx = ctx' := by
  rcases htype with htype | htype
  · have hlists := congrArg String.toList h
    rw [toList_destContext_auto htype, toList_destContext_auto htype] at hlists
    have htail := List.append_cancel_left hlists
    by_cases hd : ctx = defaultContext
    · by_cases hd' : ctx' = defaultContext
      · rw [hd, hd']
      · rw [if_pos hd, if_neg hd'] at htail
        exact (hctx'.ne_empty htail.symm).elim
    · by_cases hd' : ctx' = defaultContext
      · rw [if_neg hd, if_pos hd'] at htail
        exact (hctx.ne_empty htail).elim
      · rw [if_neg hd, if_neg hd'] at htail
        exact String.toList_inj.mp htail
  · simpa [destContext, htype] using h

/-- AUTO under a cluster id never sends to the default context. -/
theorem destContext_ne_default (htype : info.contextType = "AUTO") (hid : clusterId ≠ "")
    (ctx : String) : destContext info clusterId ctx ≠ defaultContext := by
  intro h
  have hlists := congrArg String.toList h
  have hlength : (contextId clusterId).toList.length = clusterId.toList.length := by
    rw [contextId, String.toList_ofList, List.length_map]
  have hne : clusterId.toList ≠ [] := fun hnil => hid (String.toList_inj.mp hnil)
  have hpos := List.length_pos_iff.mpr hne
  have htotal := congrArg List.length hlists
  rw [toList_destContext_auto htype, List.length_append, List.length_cons, hlength,
    show defaultContext.toList.length = 1 from rfl] at htotal
  omega

/-! ### Conditions under which nothing meets -/

/-- The rename format that applies, if there is one. -/
def renameFormat (info : ExporterInfo) : Option String :=
  info.subjectRenameFormat.filter fun f => !f.isEmpty

theorem renamed_eq (info : ExporterInfo) (subject : String) :
    renamed info subject = match renameFormat info with
      | some f => String.ofList (fillPlaces subjectPlace.toList subject.toList f.toList)
      | none => subject := by
  unfold renamed renameFormat
  cases info.subjectRenameFormat with
  | none => rfl
  | some f =>
    by_cases hf : f.isEmpty <;> simp [Option.filter, hf]

/-- What an exporter and the schemas it sends have to be like for nothing to meet at the
destination. -/
structure KeepsApart (glob : String → String → Bool) (info : ExporterInfo) (clusterId : String)
    (r : Reader) : Prop where
  /-- A rename format has a place for the subject, or one subject of a context is sent. -/
  place : (∀ f, renameFormat info = some f → subjectPlace.toList <:+: f.toList)
    ∨ ∀ ctx subject version vr rec subject' version' vr' rec',
      CanSend glob info r ctx subject version vr rec →
      CanSend glob info r ctx subject' version' vr' rec' → subject = subject'
  /-- A name that goes to the destination's default context is read there as it is written. -/
  plain : ∀ ctx subject version vr rec, CanSend glob info r ctx subject version vr rec →
    destContext info clusterId ctx = defaultContext →
    QualifiedSubject.parse (renamed info subject) = ⟨defaultContext, renamed info subject⟩
  /-- What a CUSTOM or DEFAULT exporter sends has no references to another context. -/
  inside : info.contextType = "CUSTOM" ∨ info.contextType = "DEFAULT" →
    ∀ ctx subject version vr rec, CanSend glob info r ctx subject version vr rec →
      ∀ sr ∈ rec.references, (exportTarget ctx sr).context = ctx

theorem eq_of_renamed_eq (hplace : ∀ f, renameFormat info = some f →
      subjectPlace.toList <:+: f.toList) {subject subject' : String}
    (h : renamed info subject = renamed info subject') : subject = subject' := by
  rw [renamed_eq, renamed_eq] at h
  cases hf : renameFormat info with
  | none => simpa [hf] using h
  | some f =>
    simp only [hf] at h
    have hlists := congrArg String.toList h
    rw [String.toList_ofList, String.toList_ofList] at hlists
    exact String.toList_inj.mp (eq_of_fillPlaces_eq (by decide) (hplace f hf) hlists)

/-- The destination reads a sent subject's name as the exporter wrote it. -/
theorem KeepsApart.parse_destSubject (h : KeepsApart glob info clusterId r) {ctx subject : String}
    {version : UInt32} {vr : VersionRecord} {rec : SchemaRecord} (hctx : ContextName ctx)
    (hsend : CanSend glob info r ctx subject version vr rec) :
    QualifiedSubject.parse (destSubject info clusterId ctx subject)
      = ⟨destContext info clusterId ctx, renamed info subject⟩ := by
  by_cases hdefault : destContext info clusterId ctx = defaultContext
  · rw [destSubject, hdefault, qualify, if_pos rfl]
    exact h.plain _ _ _ _ _ hsend hdefault
  · rw [destSubject, parse_qualify (contextName_destContext hctx) hdefault]

/-! ### One context for CUSTOM and DEFAULT -/

/-- The contexts of the patterns are all in the list, and none is the wildcard. -/
theorem patternContexts_spec {ps acc contexts : List String}
    (h : patternContexts info ps acc = .ok contexts) :
    (∀ c ∈ acc, c ∈ contexts) ∧ ∀ p ∈ ps, (QualifiedSubject.parse p).isWildcard = false
      ∧ (QualifiedSubject.parse p).context ∈ contexts := by
  induction ps generalizing acc with
  | nil =>
    cases h
    exact ⟨fun _ hc => hc, by simp⟩
  | cons p ps ih =>
    rw [patternContexts] at h
    cases hwild : (QualifiedSubject.parse p).isWildcard with
    | true => simp [hwild] at h
    | false =>
      simp only [hwild, Bool.false_eq_true, if_false] at h
      obtain ⟨hacc, hps⟩ := ih h
      have hmem : ∀ c, c ∈ acc ∨ c = (QualifiedSubject.parse p).context → c ∈ contexts := by
        intro c hc
        refine hacc c ?_
        split
        · next hin => exact hc.elim id fun heq => heq ▸ hin
        · exact List.mem_append.mpr (hc.imp id fun heq => List.mem_singleton.mpr heq)
      refine ⟨fun c hc => hmem c (.inl hc), fun p' hp' => ?_⟩
      rcases List.mem_cons.mp hp' with rfl | hp'
      · exact ⟨hwild, hmem _ (.inr rfl)⟩
      · exact hps p' hp'

/-- The patterns of an accepted CUSTOM or DEFAULT exporter match in one context. -/
theorem context_of_subjectMatches (hvalid : validateExporter info = .ok ())
    (htype : info.contextType = "CUSTOM" ∨ info.contextType = "DEFAULT") :
    ∃ only, ∀ ctx subject, subjectMatches glob info.subjects ctx subject = true → ctx = only := by
  simp only [validateExporter, error_bind, ite_error_eq_ok, bind_eq_ok] at hvalid
  obtain ⟨-, -, -, -, -, hrest⟩ := hvalid
  rw [if_pos (by simpa using htype)] at hrest
  obtain ⟨contexts, hcontexts, hone⟩ := bind_eq_ok.mp hrest
  have hlength : contexts.length ≤ 1 := by
    by_contra hmore
    rw [if_pos (by omega)] at hone
    cases hone
  obtain ⟨-, hpatterns⟩ := patternContexts_spec hcontexts
  refine ⟨contexts.headD "", fun ctx subject hmatch => ?_⟩
  obtain ⟨p, hp, hok⟩ := List.any_eq_true.mp hmatch
  obtain ⟨hwild, hmem⟩ := hpatterns p hp
  simp only [hwild, Bool.false_or, Bool.and_eq_true, beq_iff_eq] at hok
  rw [hok.1] at hmem
  obtain ⟨only, rfl⟩ := List.length_eq_one_iff.mp
    (Nat.le_antisymm hlength (List.length_pos_of_mem hmem))
  exact List.mem_singleton.mp hmem

/-- Everything such an exporter can send is in that context, when no reference leaves it. -/
theorem KeepsApart.context_eq (h : KeepsApart glob info clusterId r)
    (hvalid : validateExporter info = .ok ())
    (htype : info.contextType = "CUSTOM" ∨ info.contextType = "DEFAULT") :
    ∃ only, ∀ ctx subject version, Reaches glob info r ctx subject version → ctx = only := by
  obtain ⟨only, honly⟩ := @context_of_subjectMatches glob info hvalid htype
  refine ⟨only, fun ctx subject version hreach => ?_⟩
  induction hreach with
  | matching hmatch => exact honly _ _ hmatch
  | reference hreach hpayload hsr ih =>
    rw [h.inside htype _ _ _ _ _ ⟨hreach, hpayload⟩ _ hsr]
    exact ih

theorem contextType_of_validate (hvalid : validateExporter info = .ok ()) :
    (info.contextType = "AUTO" ∨ info.contextType = "NONE")
      ∨ (info.contextType = "CUSTOM" ∨ info.contextType = "DEFAULT") := by
  simp only [validateExporter, error_bind, ite_error_eq_ok, bind_eq_ok] at hvalid
  obtain ⟨-, u, htype, -⟩ := hvalid
  unfold validateContextType at htype
  split at htype
  · next h =>
      simp only [Bool.or_eq_true, decide_eq_true_eq] at h
      rcases h with (h | h) | h
      · exact .inl (.inl h)
      · exact .inl (.inr h)
      · exact .inr (.inr h)
  · split at htype
    · next h => exact .inr (.inl h)
    · cases htype

/-! ### Nothing meets at the destination -/

section Apart

variable {srv : Server} {tenant : TenantId} {reqs : List Request}
  {ctx ctx' subject subject' : String}
  {version version' : UInt32} {vr vr' : VersionRecord} {rec rec' : SchemaRecord}

theorem contextName_of_canSend {reg : Registry} (hnames : reg.rows.NamesContexts)
    (h : CanSend glob info reg.reader ctx subject version vr rec) : ContextName ctx := by
  have hpayload := h.2
  unfold exportPayload at hpayload
  cases hrow : reg.reader.getVersion ctx subject version with
  | none => simp [hrow] at hpayload
  | some old => exact hnames ctx subject version old hrow

/-- Two contexts that something is sent from do not become one. -/
theorem KeepsApart.eq_of_destContext_eq (h : KeepsApart glob info clusterId r)
    (hvalid : validateExporter info = .ok ()) (hctx : ContextName ctx) (hctx' : ContextName ctx')
    (hsend : CanSend glob info r ctx subject version vr rec)
    (hsend' : CanSend glob info r ctx' subject' version' vr' rec')
    (heq : destContext info clusterId ctx = destContext info clusterId ctx') : ctx = ctx' := by
  rcases contextType_of_validate hvalid with htype | htype
  · exact Exporter.eq_of_destContext_eq htype hctx hctx' heq
  · obtain ⟨only, honly⟩ := h.context_eq hvalid htype
    rw [honly _ _ _ hsend.1, honly _ _ _ hsend'.1]

/-- Two versions that an accepted exporter can send from a reachable state: different pairs of
context and id are posted to different pairs, and different subjects to different subjects, when the
rename format has a place for the subject or only one is sent of each context, no name in the
destination's default context is read as a qualified one, and no reference leaves the context of a
CUSTOM or DEFAULT exporter. -/
theorem posts_apart (hvalid : validateExporter info = .ok ())
    (h : KeepsApart glob info clusterId ((Registry.empty tenant).runAll srv reqs).reader)
    (hsend : CanSend glob info ((Registry.empty tenant).runAll srv reqs).reader ctx subject version
      vr rec)
    (hsend' : CanSend glob info ((Registry.empty tenant).runAll srv reqs).reader ctx' subject'
      version' vr' rec') :
    let p := postOf info clusterId ctx subject version vr rec
    let p' := postOf info clusterId ctx' subject' version' vr' rec'
    ((ctx, vr.id) ≠ (ctx', vr'.id) →
      ((QualifiedSubject.parse p.subject).context, p.id)
        ≠ ((QualifiedSubject.parse p'.subject).context, p'.id))
    ∧ ((ctx, subject) ≠ (ctx', subject') → p.subject ≠ p'.subject) := by
  have hnames := namesContexts_runAll srv tenant reqs
  have hctx := contextName_of_canSend hnames hsend
  have hctx' := contextName_of_canSend hnames hsend'
  have hread := h.parse_destSubject hctx hsend
  have hread' := h.parse_destSubject hctx' hsend'
  have hcontexts := h.eq_of_destContext_eq hvalid hctx hctx' hsend hsend'
  constructor
  · intro hne heq
    obtain ⟨hcontext, hid⟩ := Prod.mk.inj heq
    change (QualifiedSubject.parse (destSubject info clusterId ctx subject)).context
      = (QualifiedSubject.parse (destSubject info clusterId ctx' subject')).context at hcontext
    rw [hread, hread'] at hcontext
    exact hne (Prod.ext (hcontexts hcontext) hid)
  · intro hne heq
    change destSubject info clusterId ctx subject = destSubject info clusterId ctx' subject' at heq
    rw [heq, hread'] at hread
    obtain ⟨hcontext, hname⟩ := QualifiedSubject.mk.inj hread
    obtain rfl := hcontexts hcontext.symm
    refine hne (Prod.ext rfl ?_)
    rcases h.place with hplace | hone
    · exact eq_of_renamed_eq hplace hname.symm
    · exact hone _ _ _ _ _ _ _ _ _ hsend hsend'

end Apart

/-! ### A format without a place -/

/-- The two subjects of a small registry. -/
def twoSubjects : Registry :=
  plainRun [registerText "a" "\"int\"", registerText "b" "\"long\""]

/-- A `*` matches everything, any other pattern itself. -/
def simpleGlob (pattern text : String) : Bool := pattern == "*" || pattern == text

def mirrorAs (format : String) : ExporterInfo :=
  { name := "mirror"
    subjects := ["*"]
    contextType := "AUTO"
    context := none
    subjectRenameFormat := some format
    config := [("schema.registry.url", .string "http://elsewhere")] }

theorem canSend_twoSubjects (format : String) :
    (∃ vr rec, CanSend simpleGlob (mirrorAs format) twoSubjects.reader "." "a" 1 vr rec)
      ∧ ∃ vr rec, CanSend simpleGlob (mirrorAs format) twoSubjects.reader "." "b" 1 vr rec := by
  have hpayload : ∀ subject : String,
      (exportPayload twoSubjects.reader "." subject 1).toOption.join.isSome = true →
      ∃ vr rec, exportPayload twoSubjects.reader "." subject 1 = .ok (some (vr, rec)) := by
    intro subject h
    match hres : exportPayload twoSubjects.reader "." subject 1, h with
    | .ok (some (vr, rec)), _ => exact ⟨vr, rec, rfl⟩
  have hmatch : ∀ subject, subjectMatches simpleGlob (mirrorAs format).subjects "." subject
      = true := by
    intro subject
    rfl
  obtain ⟨vr, rec, ha⟩ := hpayload "a" (by decide)
  obtain ⟨vr', rec', hb⟩ := hpayload "b" (by decide)
  exact ⟨⟨vr, rec, .matching (hmatch "a"), ha⟩, ⟨vr', rec', .matching (hmatch "b"), hb⟩⟩

/-- Both subjects go to the one subject that the format names. -/
theorem posts_meet_without_place :
    validateExporter (mirrorAs "all") = .ok () ∧
      ∃ vr rec vr' rec', CanSend simpleGlob (mirrorAs "all") twoSubjects.reader "." "a" 1 vr rec
        ∧ CanSend simpleGlob (mirrorAs "all") twoSubjects.reader "." "b" 1 vr' rec'
        ∧ (postOf (mirrorAs "all") "prod" "." "a" 1 vr rec).subject
          = (postOf (mirrorAs "all") "prod" "." "b" 1 vr' rec').subject := by
  obtain ⟨⟨vr, rec, ha⟩, ⟨vr', rec', hb⟩⟩ := canSend_twoSubjects "all"
  refine ⟨by decide, vr, rec, vr', rec', ha, hb, ?_⟩
  show destSubject (mirrorAs "all") "prod" "." "a" = destSubject (mirrorAs "all") "prod" "." "b"
  decide

/-- With a place for the subject the two stay apart. -/
theorem posts_apart_with_place :
    ∃ vr rec vr' rec',
      CanSend simpleGlob (mirrorAs "dr-$\x7bsubject\x7d") twoSubjects.reader "." "a" 1 vr rec
        ∧ CanSend simpleGlob (mirrorAs "dr-$\x7bsubject\x7d") twoSubjects.reader "." "b" 1 vr' rec'
        ∧ (postOf (mirrorAs "dr-$\x7bsubject\x7d") "prod" "." "a" 1 vr rec).subject
          ≠ (postOf (mirrorAs "dr-$\x7bsubject\x7d") "prod" "." "b" 1 vr' rec').subject := by
  obtain ⟨⟨vr, rec, ha⟩, ⟨vr', rec', hb⟩⟩ := canSend_twoSubjects "dr-$\x7bsubject\x7d"
  refine ⟨vr, rec, vr', rec', ha, hb, ?_⟩
  have hkeeps :
      KeepsApart simpleGlob (mirrorAs "dr-$\x7bsubject\x7d") "prod" twoSubjects.reader := by
    refine ⟨.inl fun f hf => ?_, fun ctx _ _ _ _ _ hdefault => ?_, fun htype => ?_⟩
    · have hformat : renameFormat (mirrorAs "dr-$\x7bsubject\x7d")
          = some "dr-$\x7bsubject\x7d" := by
        decide
      obtain rfl : "dr-$\x7bsubject\x7d" = f := Option.some.inj (hformat.symm.trans hf)
      exact ⟨['d', 'r', '-'], [], by decide⟩
    · exact (destContext_ne_default rfl (by decide) ctx hdefault).elim
    · rcases htype with htype | htype <;> exact absurd htype (by decide)
  exact (posts_apart (by decide) hkeeps ha hb).2 (by decide)

end Exporter

end SchemaRegistry

import SchemaRegistry.Footprint

/-!
The published snapshot and the snapshot rebuilt from the store. Along every history
of requests whose names are without NUL, both give the same answer to every query.
-/

namespace SchemaRegistry

open Lib

variable {srv : Server} {reg : Registry} {verb : Verb} {now : Int} {guid : String}
  {ws : List Write} {evs : List LogEvent}

/-- The published snapshot agrees with the store, and names are without NUL. -/
structure Registry.Reloadable (reg : Registry) : Prop where
  agrees : reg.Agrees
  clean : reg.CleanNames

/-- A version row that the snapshot has is under a name without NUL. -/
theorem Registry.Agrees.nulFree (h : reg.Agrees) {q : QualifiedSubject} {v : UInt32}
    {vr : VersionRecord} (hrow : reg.rows (.version q.context q.subject v) = some vr) :
    q.NulFree := by
  by_contra hnul
  have hempty : reg.rows (.version q.context q.subject v) = none :=
    h.row_nul (.version q.context q.subject v) trivial hnul
  rw [hrow] at hempty
  cases hempty

theorem Registry.Reloadable.step {req : Request} (h : reg.Reloadable) (hv : req.verb.NulFree) :
    (reg.step srv req).Reloadable := by
  rcases Registry.step_cases srv reg req with hstep | ⟨plan, hplan, hstep⟩
  · rwa [hstep]
  · have heff := effect_of_decide hplan
    obtain ⟨gone, rest, hws, hgone, hrest⟩ := heff.split
    have hagrees : (reg.apply plan).Agrees :=
      h.agrees.apply (h.clean.writes hv heff) (hws ▸ along_of_removals hgone hrest)
    rw [hstep]
    refine ⟨hagrees, hagrees.nulFree, fun {ctx id rec} hrec sr hsr => ?_⟩
    rw [Registry.rows_apply] at hrec
    rcases body_after hrec with hold | ⟨index, hput⟩
    · exact h.clean.bodies hold sr hsr
    · exact h.clean.putSchema heff hput sr hsr

/-- Along every history of requests with names without NUL, the published snapshot answers
every query as the one rebuilt from the store does. -/
theorem sameAnswers_loadSnapshot (srv : Server) (tenant : TenantId) (reqs : List Request)
    (hnames : ∀ req ∈ reqs, req.verb.NulFree) :
    let reg := (Registry.empty tenant).runAll srv reqs
    ∃ snap, reg.store.loadSnapshot = some snap ∧ reg.snapshot.SameAnswers snap := by
  have h0 : (Registry.empty tenant).Reloadable := by
    refine ⟨Registry.agrees_empty tenant, (Registry.agrees_empty tenant).nulFree, fun hrec => ?_⟩
    rw [Registry.rows_empty] at hrec
    cases hrec
  have hinv : ((Registry.empty tenant).runAll srv reqs).Reloadable :=
    inv_of_along (along_of_forall hnames) h0 fun _ _ h hv => h.step hv
  exact hinv.agrees.sameAnswers

/-- A history that registers, references, imports and deletes. -/
def reloadHistory : List Request :=
  [registerJson "s" "\x7b\x7d", registerReferring "t" "true" "s" 1,
    plainRequest (.deleteSubject "t" false), plainRequest (.deleteSubject "t" true),
    plainRequest (.setMode (some "t") .«import» false), plainRequest (.deleteContext "ctx")]

theorem sameAnswers_reloadHistory :
    (∀ req ∈ reloadHistory, req.verb.NulFree) ∧
    ∃ snap, (plainRun reloadHistory).store.loadSnapshot = some snap ∧
      (plainRun reloadHistory).snapshot.SameAnswers snap := by
  have hnames : ∀ req ∈ reloadHistory, req.verb.NulFree := by
    intro req hreq name hname
    simp only [reloadHistory, List.mem_cons, List.not_mem_nil, or_false] at hreq
    rcases hreq with rfl | rfl | rfl | rfl | rfl | rfl <;> cases hname <;> decide
  exact ⟨hnames, sameAnswers_loadSnapshot plainServer .default reloadHistory hnames⟩

end SchemaRegistry

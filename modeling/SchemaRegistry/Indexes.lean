import SchemaRegistry.History

/-!
What the snapshot derives from the operations of the plans: the usages of each id, the sorted lists
beside them, and the mark that some config names an alias.
-/

namespace SchemaRegistry

open Std SchemaRegistry.Lib

variable {srv : Server} {reg : Registry}

/-! ### The operations of a history -/

/-- The operations of the plan a request leads to, none if it is refused. -/
def Registry.opsOf (srv : Server) (reg : Registry) (req : Request) : List Op :=
  match req.verb.decide srv (reg.view req.now req.newGuid) with
  | .ok plan => reg.store.planOps plan
  | .error _ => []

/-- The operations of the plans of a history, each planned where those before it have led. -/
def Registry.runOps (srv : Server) (reg : Registry) : List Request → List Op
  | [] => []
  | req :: reqs => reg.opsOf srv req ++ (reg.step srv req).runOps srv reqs

theorem Registry.snapshot_step (req : Request) :
    (reg.step srv req).snapshot = reg.snapshot.applyAll (reg.opsOf srv req) := by
  unfold Registry.step Verb.run Registry.opsOf
  cases req.verb.decide srv (reg.view req.now req.newGuid) with
  | error e => rfl
  | ok plan =>
    show (reg.apply plan).snapshot = _
    rw [Registry.apply, Store.commit_planTx]

theorem Registry.snapshot_runAll (reqs : List Request) :
    (reg.runAll srv reqs).snapshot = reg.snapshot.applyAll (reg.runOps srv reqs) := by
  induction reqs generalizing reg with
  | nil => rfl
  | cons req reqs ih =>
    rw [Registry.runAll, List.foldl_cons, Registry.runOps, Snapshot.applyAll, List.foldl_append]
    refine Eq.trans ih ?_
    rw [snapshot_step]
    rfl

/-! ### Sorted lists -/

namespace Snapshot

variable (s : Snapshot) (ctx : String)

theorem listVersions_sorted (subject : String) :
    (s.listVersions ctx subject).Pairwise fun a b => a.1 < b.1 :=
  (s.sorted_listVersions ctx subject).imp Std.compare_eq_lt.mp

theorem idUsages_sorted (id : UInt32) :
    (s.idUsages ctx id).Pairwise fun a b => compare a b = .lt := by
  unfold idUsages
  split
  · next u _ => exact u.sorted
  · exact .nil

theorem referencedBy_sorted (subject : String) (version : UInt32) :
    (s.referencedBy ctx subject version).Pairwise fun a b => a < b := by
  unfold referencedBy
  split
  · next ids _ => exact ids.sorted.imp fun h => Std.compare_eq_lt.mp h
  · exact .nil

end Snapshot

/-- The operations of any history, applied to an empty snapshot, leave indexes that agree with the
version rows. -/
theorem indexes_consistent (srv : Server) (tenant : TenantId) (reqs : List Request) (ctx : String) :
    let s := ({} : Snapshot).applyAll ((Registry.empty tenant).runOps srv reqs)
    (∀ id subject version, (subject, version) ∈ s.idUsages ctx id
        ↔ ∃ vr, s.getVersion ctx subject version = some vr ∧ vr.id = id)
      ∧ (∀ subject, (s.listVersions ctx subject).Pairwise fun a b => a.1 < b.1)
      ∧ (∀ id, (s.idUsages ctx id).Pairwise fun a b => compare a b = .lt)
      ∧ (∀ subject version, (s.referencedBy ctx subject version).Pairwise fun a b => a < b)
      ∧ ∀ subject ∈ s.listSubjectNames ctx, s.listVersions ctx subject ≠ [] := by
  have hsnap : ((Registry.empty tenant).runAll srv reqs).snapshot
      = ({} : Snapshot).applyAll ((Registry.empty tenant).runOps srv reqs) :=
    Registry.snapshot_runAll reqs
  have hc : (({} : Snapshot).applyAll ((Registry.empty tenant).runOps srv reqs)).Consistent :=
    hsnap ▸ consistent_runAll tenant reqs
  intro s
  refine ⟨fun id subject version => hc.mem_idUsages, s.listVersions_sorted ctx,
    s.idUsages_sorted ctx,
    s.referencedBy_sorted ctx, fun subject hsubject => ?_⟩
  obtain ⟨v, vr, hrow⟩ := hc.mem_listSubjectNames.mp hsubject
  exact List.ne_nil_of_mem (Snapshot.mem_listVersions.mpr hrow)

/-! ### The mark of aliases -/

/-- Where a config names an alias, the snapshot is marked. -/
def Snapshot.Flagged (s : Snapshot) : Prop :=
  ∀ (scope : Scope) (rec : ConfigRecord),
    s.config[scope]? = some rec → rec.isAlias = true → s.hasAliases = true

theorem Snapshot.Flagged.apply {s : Snapshot} (h : s.Flagged) (op : Op) : (s.apply op).Flagged := by
  cases op with
  | putConfig scope rec =>
    intro scope' rec' hrec halias
    simp only [Snapshot.apply, ExtTreeMap.getElem?_insert] at hrec ⊢
    split at hrec
    · cases hrec
      rw [halias, Bool.or_true]
    · rw [h scope' rec' hrec halias, Bool.true_or]
  | deleteConfig scope =>
    intro scope' rec' hrec halias
    simp only [Snapshot.apply, Bool.and_eq_true, List.any_eq_true] at hrec ⊢
    have hold : s.config[scope']? = some rec' := by
      rw [ExtTreeMap.getElem?_erase] at hrec
      split at hrec
      · cases hrec
      · exact hrec
    exact ⟨h scope' rec' hold halias,
      (scope', rec'), ExtTreeMap.mem_toList_iff_getElem?_eq_some.mpr hrec, halias⟩
  | putSchema ctx id rec index =>
    rw [Snapshot.apply]
    split <;> exact h
  | _ => exact h

theorem Snapshot.Flagged.applyAll {s : Snapshot} (h : s.Flagged) (ops : List Op) :
    (s.applyAll ops).Flagged := by
  induction ops generalizing s with
  | nil => exact h
  | cons op ops ih => exact ih (h.apply op)

theorem flagged_of_reachable (h : reg.Reachable srv) : reg.snapshot.Flagged := by
  obtain ⟨tenant, reqs, rfl⟩ := h
  have hempty : ({} : Snapshot).Flagged := fun scope rec hrec => by simp at hrec
  rw [Registry.snapshot_runAll]
  exact hempty.applyAll _

end SchemaRegistry

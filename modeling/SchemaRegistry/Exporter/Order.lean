import SchemaRegistry.Resolved
import SchemaRegistry.ReferenceTargets

/-!
The order of an export. A batch walks down from each of its versions and posts a version after
those it references, each of them once a batch. The walk stops 32 references down without an
error and then posts what it came from, though the registry lets chains of 64 be registered. What
lies deeper is at the destination in time only if an earlier version of the batch led to it.
-/

namespace SchemaRegistry.Exporter

open Lib Relation

variable (info : ExporterInfo) (clusterId : String) (r : Reader)

/-- The versions of a batch, one after another, up to the first error. -/
def exportBatch (depth : Nat) (s : Sending) (batch : List VersionKey) : Sending :=
  batch.foldl (fun s a =>
    if s.stopped then s else exportVersion info clusterId r depth a.1 a.2.1 a.2.2 s) s

/-- What is posted for a version. -/
def postAt (a : VersionKey) : Option Post :=
  (r.getVersion a.1 a.2.1 a.2.2).bind fun vr =>
    (r.getSchema a.1 vr.id).map fun rec => postOf info clusterId a.1 a.2.1 a.2.2 vr rec

/-- A version that is there, and whose references start with `:.`, start with no colon, or start
with one and are read as names of the version's context. -/
def Sendable (a : VersionKey) : Prop :=
  ∃ rec, r.recordAt a = some rec ∧ ∀ sr ∈ rec.references, startsQualified sr.subject = true
    ∨ (sr.subject.toList.head? = some ':' → (QualifiedSubject.parse sr.subject).context = a.1)

/-- Each version of a batch is sendable with all it leads to, and no further than 32 references
down from it begins what an earlier version of the batch leads to. -/
def BatchWithin : List VersionKey → List VersionKey → Prop
  | _, [] => True
  | earlier, a :: batch =>
      WithinSteps r.Leads (fun b => ∃ u ∈ earlier, ReflTransGen r.Leads u b)
        (Sendable r) exportDepth a
        ∧ BatchWithin (a :: earlier) batch

variable {info clusterId r} {under done : List VersionKey} {s : Sending} {S : VersionKey → Prop}
  {depth : Nat}

/-! ### What the walk has done -/

/-- The walk is under way without an error, and what it has finished is posted. -/
structure Posted (info : ExporterInfo) (clusterId : String) (r : Reader) (under : List VersionKey)
    (s : Sending) (done : List VersionKey) : Prop where
  walking : Walking r.Leads s.exported under done
  posts : s.posts.map some = done.reverse.map (postAt info clusterId r)
  running : s.stopped = false

/-- What sending some versions adds. -/
structure Posts (info : ExporterInfo) (clusterId : String) (r : Reader)
    (under start done : List VersionKey) (s' : Sending) (done' : List VersionKey) : Prop
    extends Posted info clusterId r under s' done' where
  old : done ⊆ done'
  reached : ∀ a ∈ start, a ∈ done'

/-- Sending one version, then others. -/
theorem Posts.cons {a : VersionKey} {start done₁ done₂ : List VersionKey} {s₁ s₂ : Sending}
    (hone : Posts info clusterId r under [a] done s₁ done₁)
    (hrest : Posts info clusterId r under start done₁ s₂ done₂) :
    Posts info clusterId r under (a :: start) done s₂ done₂ := by
  refine ⟨hrest.toPosted, List.Subset.trans hone.old hrest.old, ?_⟩
  intro b hb
  rcases List.mem_cons.mp hb with rfl | hb
  · exact hrest.old (hone.reached b (List.mem_singleton_self b))
  · exact hrest.reached b hb

/-- A version that is done adds nothing. -/
theorem Posted.stays (h : Posted info clusterId r under s done) {a : VersionKey} (ha : a ∈ done) :
    Posts info clusterId r under [a] done s done := by
  refine ⟨h, List.Subset.refl _, ?_⟩
  intro b hb
  rwa [List.mem_singleton.mp hb]

@[simp] theorem exportBatch_nil : exportBatch info clusterId r depth s [] = s := rfl

theorem exportBatch_cons (h : s.stopped = false) (a : VersionKey) (batch : List VersionKey) :
    exportBatch info clusterId r depth s (a :: batch) = exportBatch info clusterId r depth
        (exportVersion info clusterId r depth a.1 a.2.1 a.2.2 s) batch := by
  rw [exportBatch, List.foldl_cons, h]
  rfl

theorem exportBatch_posts {start : List VersionKey} (hS : ∀ b, S b → b ∈ done)
    (hstep : ∀ a ∈ start, ∀ s done, (∀ b, S b → b ∈ done) → Posted info clusterId r under s done →
      ∃ done', Posts info clusterId r under [a] done
        (exportVersion info clusterId r depth a.1 a.2.1 a.2.2 s) done')
    (h : Posted info clusterId r under s done) :
    ∃ done', Posts info clusterId r under start done
      (exportBatch info clusterId r depth s start) done' := by
  induction start generalizing s done with
  | nil => exact ⟨done, h, List.Subset.refl _, by simp⟩
  | cons a start ih =>
    obtain ⟨done₁, hone⟩ := hstep a List.mem_cons_self s done hS h
    obtain ⟨done₂, hrest⟩ := ih (fun b hb => hone.old (hS b hb))
      (fun b hb => hstep b (List.mem_cons_of_mem a hb)) hone.toPosted
    rw [exportBatch_cons h.running]
    exact ⟨done₂, hone.cons hrest⟩

/-- A version that was not taken up and can be sent: its references first, then itself. -/
theorem exportVersion_of_sendable {a : VersionKey} (hnew : a ∉ s.exported) (h : Sendable r a) :
    ∃ p, postAt info clusterId r a = some p
      ∧ exportVersion info clusterId r (depth + 1) a.1 a.2.1 a.2.2 s
        = (let s := exportBatch info clusterId r depth { s with exported := a :: s.exported }
            ((r.edges a).map Prod.snd)
          if s.stopped then s else { s with posts := s.posts ++ [p] }) := by
  obtain ⟨rec, hrec, hrefs⟩ := h
  have hedges := edges_of_recordAt hrec
  obtain ⟨vr, hrow, hbody⟩ := Option.bind_eq_some_iff.mp hrec
  have hpayload : exportPayload r a.1 a.2.1 a.2.2 = .ok (some (vr, rec)) := by
    simp only [exportPayload, hrow, hbody]
  refine ⟨postOf info clusterId a.1 a.2.1 a.2.2 vr rec, by simp [postAt, hrow, hbody], ?_⟩
  rw [exportVersion, if_neg hnew]
  simp only [hpayload]
  -- The exporter looks where the registry does.
  have hfold : rec.references.foldl (fun s sr => if s.stopped = true then s else
      exportVersion info clusterId r depth (exportTarget a.1 sr).context
        (exportTarget a.1 sr).subject sr.target s) { s with exported := a :: s.exported }
      = exportBatch info clusterId r depth { s with exported := a :: s.exported }
        ((r.edges a).map Prod.snd) := by
    rw [hedges, List.map_map, exportBatch, List.foldl_map]
    refine List.foldl_ext _ _ _ fun s sr hsr => ?_
    rw [exportTarget_eq_iff.mpr (hrefs sr hsr)]
    rfl
  rw [← hfold]

/-- The walk down from a version within the depth. -/
theorem exportVersion_posts {a : VersionKey} (hbound : WithinSteps r.Leads S (Sendable r) depth a)
    (hclosed : ∀ b c, S b → r.Leads b c → S c) (hS : ∀ b, S b → b ∈ done)
    (hunder : ∀ u ∈ under, TransGen r.Leads u a) (h : Posted info clusterId r under s done) :
    ∃ done', Posts info clusterId r under [a] done
      (exportVersion info clusterId r depth a.1 a.2.1 a.2.2 s) done' := by
  induction depth generalizing a under s done with
  | zero => exact ⟨done, h.stays (hS a hbound)⟩
  | succ depth ih =>
    by_cases hseen : a ∈ s.exported
    · have hdone := h.walking.done_of_seen hbound hclosed hS hunder hseen
      rw [exportVersion, if_pos hseen]
      exact ⟨done, h.stays hdone⟩
    · have hnot := h.walking.not_under hbound hclosed hS hunder
      have hnew : ¬ S a := fun ha => hseen ((h.walking.seen a).mpr (.inr (hS a ha)))
      obtain ⟨hsend, hnext⟩ := hbound.resolve_left hnew
      have hentered : Posted info clusterId r (a :: under)
          { s with exported := a :: s.exported } done :=
        ⟨h.walking.enter hseen, h.posts, h.running⟩
      have hstep : ∀ b ∈ (r.edges a).map Prod.snd, ∀ s done, (∀ c, S c → c ∈ done) →
          Posted info clusterId r (a :: under) s done →
          ∃ done', Posts info clusterId r (a :: under) [b] done
            (exportVersion info clusterId r depth b.1 b.2.1 b.2.2 s) done' := by
        intro b hb s done hS hposted
        obtain ⟨e, he, rfl⟩ := List.mem_map.mp hb
        have hedge : r.Leads a e.2 := ⟨e.1, he⟩
        have hunder' : ∀ u ∈ a :: under, TransGen r.Leads u e.2 := by
          intro u hu
          rcases List.mem_cons.mp hu with rfl | hu
          · exact .single hedge
          · exact (hunder u hu).tail hedge
        exact ih (hnext e.2 hedge) hS hunder' hposted
      obtain ⟨done₁, hbelow⟩ := exportBatch_posts hS hstep hentered
      obtain ⟨p, hp, hexport⟩ := exportVersion_of_sendable hseen hsend
      rw [hexport]
      simp only [hbelow.running, Bool.false_eq_true, if_false]
      refine ⟨a :: done₁, ⟨?_, ?_, rfl⟩, ?_, ?_⟩
      · refine hbelow.walking.leave hnot ?_
        rintro b ⟨name, hb⟩
        exact hbelow.reached b (List.mem_map.mpr ⟨(name, b), hb, rfl⟩)
      · simp [hbelow.posts, hp]
      · exact fun b hb => List.mem_cons_of_mem a (hbelow.old hb)
      · intro b hb
        rw [List.mem_singleton.mp hb]
        exact List.mem_cons_self

/-! ### A batch -/

theorem exportBatch_within {earlier batch : List VersionKey} (hwithin : BatchWithin r earlier batch)
    (hearlier : earlier ⊆ done) (h : Posted info clusterId r [] s done) :
    ∃ done', Posts info clusterId r [] batch done
      (exportBatch info clusterId r exportDepth s batch) done' := by
  induction batch generalizing earlier s done with
  | nil => exact ⟨done, h, List.Subset.refl _, by simp⟩
  | cons a batch ih =>
    have hclosed : ∀ b c, (∃ u ∈ earlier, ReflTransGen r.Leads u b) → r.Leads b c →
        ∃ u ∈ earlier, ReflTransGen r.Leads u c := by
      rintro b c ⟨u, hu, hreach⟩ hedge
      exact ⟨u, hu, hreach.tail hedge⟩
    have hS : ∀ b, (∃ u ∈ earlier, ReflTransGen r.Leads u b) → b ∈ done := by
      rintro b ⟨u, hu, hreach⟩
      exact h.walking.order.mem_of_reach (hearlier hu) hreach
    obtain ⟨done₁, hone⟩ := exportVersion_posts hwithin.1 hclosed hS (by simp) h
    have hearlier' : a :: earlier ⊆ done₁ :=
      List.cons_subset.mpr ⟨hone.reached a (List.mem_singleton_self a),
        List.Subset.trans hearlier hone.old⟩
    obtain ⟨done₂, hrest⟩ := ih hwithin.2 hearlier' hone.toPosted
    rw [exportBatch_cons h.running]
    exact ⟨done₂, hone.cons hrest⟩

/-- A batch within the depth is sent without an error of its own; every version of it is posted,
and each post comes after those of all the versions it leads to. -/
theorem dependencies_posted_first (info : ExporterInfo) (clusterId : String) (r : Reader)
    (batch : List VersionKey) (hwithin : BatchWithin r [] batch) :
    ∃ sent, (exportBatch info clusterId r exportDepth {} batch).posts.map some
        = sent.map (postAt info clusterId r)
      ∧ (exportBatch info clusterId r exportDepth {} batch).stopped = false
      ∧ (∀ a ∈ batch, a ∈ sent)
      ∧ ∀ before a after, sent = before ++ a :: after → ∀ b, TransGen r.Leads a b → b ∈ before := by
  have hnil : Posted info clusterId r [] {} [] := ⟨walking_nil, rfl, rfl⟩
  obtain ⟨done, hall⟩ := exportBatch_within hwithin (List.nil_subset _) hnil
  refine ⟨done.reverse, hall.posts, hall.running, ?_, ?_⟩
  · intro a ha
    exact List.mem_reverse.mpr (hall.reached a ha)
  · intro before a after hsplit b hb
    exact hall.walking.order.mem_before hsplit hb

end SchemaRegistry.Exporter

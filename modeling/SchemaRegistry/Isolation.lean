import SchemaRegistry.Lib.Memo
import SchemaRegistry.Publication

/-!
Readers beside writers. A reader pins the published snapshot and reads bodies through a
cache: it looks there, else in the store, and then fills the cache, each a step of its
own. A writer makes its batch durable first; under the publish lock it then shows the
cache every body it put or deleted, one by one, and swaps the snapshot last. A reader
has the bodies of its pin as long as no commit deletes or replaces one that it may still
read, and the cache has the bodies of the store as long as none is deleted or replaced
between a reader's read of the store and its fill.
-/

namespace SchemaRegistry

open Lib

/-! ### The machine -/

abbrev BodyCache := Memo (String × UInt32) SchemaRecord

/-- What a committed operation does to the body cache. -/
def Op.showTo (bodies : BodyCache) : Op → BodyCache
  | .putSchema ctx id rec _ => bodies.insert (ctx, id) rec
  | .deleteSchema ctx id => bodies.forget (ctx, id)
  | _ => bodies

/-- How far a call of `get_schema` has got. -/
inductive Call where
  | idle
  /-- The cache had nothing. -/
  | missed (ctx : String) (id : UInt32)
  /-- The store had a body, which is yet to be put in the cache. -/
  | fetched (ctx : String) (id : UInt32) (rec : SchemaRecord)

/-- A reader at work. -/
structure PinnedReader where
  snap : Snapshot
  /-- The store when the snapshot was pinned, to compare the answers with. -/
  pinnedStore : Store
  call : Call := .idle
  answers : List ((String × UInt32) × Option SchemaRecord) := []

/-- A container with its writers, its body cache and its readers. -/
structure Reading where
  sys : System
  bodies : BodyCache := fun _ => none
  /-- The run that holds the publish lock, and what it has yet to show the cache. -/
  publishing : Option (Nat × List Op) := none
  readers : Nat → Option PinnedReader := fun _ => none

namespace Reading

variable (srv : Server) (stripe : String → Fin 64)

inductive Event where
  /-- The next step of a writer. -/
  | writer (i : Nat)
  /-- The cache forgets a body. -/
  | evict (key : String × UInt32)
  | pin (r : Nat)
  /-- A reader asks for a body and looks in the cache. -/
  | lookup (r : Nat) (ctx : String) (id : UInt32)
  /-- After a miss it reads the store. -/
  | read (r : Nat)
  /-- What it found there it puts in the cache. -/
  | fill (r : Nat)
  | release (r : Nat)

def init (tenant : TenantId) (reqs : List Request) : Reading := { sys := .init tenant reqs }

def setReader (s : Reading) (r : Nat) (p : Option PinnedReader) : Reading :=
  { s with readers := fun i => if i = r then p else s.readers i }

/-- A committed run takes the publish lock, shows its operations to the cache and publishes. -/
def publishStep (s : Reading) (i : Nat) : Reading :=
  match s.publishing with
  | none =>
      match s.sys.pending.find? fun p => p.run == i with
      | none => s
      | some p => { s with publishing := some (i, p.ops) }
  | some (j, ops) =>
      if j = i then
        match ops with
        | op :: rest =>
            { s with bodies := op.showTo s.bodies, publishing := some (i, rest) }
        | [] => { s with sys := s.sys.step srv stripe i, publishing := none }
      else s

def writerStep (s : Reading) (i : Nat) : Reading :=
  match s.sys.runs[i]? with
  | none => s
  | some run =>
      match run.phase with
      | .committed => s.publishStep srv stripe i
      | _ => { s with sys := s.sys.step srv stripe i }

def step (s : Reading) : Event → Reading
  | .writer i => s.writerStep srv stripe i
  | .evict key => { s with bodies := s.bodies.forget key }
  | .pin r =>
      match s.readers r with
      | none => s.setReader r (some { snap := s.sys.snapshot, pinnedStore := s.sys.store })
      | some _ => s
  | .lookup r ctx id =>
      match s.readers r with
      | some p =>
          match p.call with
          | .idle =>
              match s.bodies (ctx, id) with
              | some rec =>
                  s.setReader r (some { p with answers := ((ctx, id), some rec) :: p.answers })
              | none => s.setReader r (some { p with call := .missed ctx id })
          | _ => s
      | none => s
  | .read r =>
      match s.readers r with
      | some p =>
          match p.call with
          | .missed ctx id =>
              match s.sys.store.getSchema ctx id with
              | some rec => s.setReader r (some { p with call := .fetched ctx id rec })
              | none => s.setReader r (some { p with
                  call := .idle, answers := ((ctx, id), none) :: p.answers })
          | _ => s
      | none => s
  | .fill r =>
      match s.readers r with
      | some p =>
          match p.call with
          | .fetched ctx id rec =>
              { s with bodies := s.bodies.insert (ctx, id) rec }.setReader r (some { p with
                  call := .idle, answers := ((ctx, id), some rec) :: p.answers })
          | _ => s
      | none => s
  | .release r =>
      match s.readers r with
      | some p =>
          match p.call with
          | .idle => s.setReader r none
          | _ => s
      | none => s

end Reading

/-! ### What should hold -/

/-- A version of the snapshot has the id. -/
def Snapshot.UsesId (snap : Snapshot) (ctx : String) (id : UInt32) : Prop :=
  ∃ subject version vr, snap.getVersion ctx subject version = some vr ∧ vr.id = id

namespace Reading

/-- Every answer about an id that the pinned snapshot uses is the body of the pin. -/
def Isolated (s : Reading) : Prop :=
  ∀ r p, s.readers r = some p → ∀ ctx id answer, ((ctx, id), answer) ∈ p.answers →
    p.snap.UsesId ctx id → answer = p.pinnedStore.getSchema ctx id

/-- All writers have finished and no reader is in the middle of a call. -/
def Quiescent (s : Reading) : Prop :=
  s.sys.Finished ∧ ∀ r p, s.readers r = some p → p.call = .idle

/-- Every body in the cache is the one in the store. -/
def CacheMatches (s : Reading) : Prop :=
  ∀ ctx id rec, s.bodies (ctx, id) = some rec → s.sys.store.getSchema ctx id = some rec

/-- A reader may still read the body of an id: its snapshot uses it, or it has fetched it. -/
def Busy (s : Reading) (ctx : String) (id : UInt32) : Prop :=
  ∃ r p, s.readers r = some p ∧ (p.snap.UsesId ctx id ∨ ∃ rec, p.call = .fetched ctx id rec)

/-- The condition on what happens next. A commit leaves the bodies alone that a reader may
still read; a snapshot is pinned only when no commit that is yet to be published deletes a
body it uses, or puts another than is cached. -/
def Event.Undisturbed (s : Reading) : Event → Prop
  | .writer i => ∀ run plan, s.sys.runs[i]? = some run → run.phase = .planned plan →
      ∀ ctx id, s.Busy ctx id → .deleteSchema ctx id ∉ plan.writes ∧
        ∀ rec index, .putSchema ctx id rec index ∈ plan.writes →
          s.sys.store.getSchema ctx id = some rec
  | .pin _ => ∀ p ∈ s.sys.pending, ∀ ctx id, s.sys.snapshot.UsesId ctx id →
      .deleteSchema ctx id ∉ p.plan.writes ∧
        ∀ rec index, .putSchema ctx id rec index ∈ p.plan.writes →
          ∀ old, s.bodies (ctx, id) = some old → old = rec
  | _ => True

end Reading

/-! ### Operations on bodies -/

/-- What an operation leaves under a body key, if it is about that key. -/
def Op.touchBody : Op → String × UInt32 → Option (Option SchemaRecord)
  | .putSchema ctx id rec _, k => if (ctx, id) = k then some (some rec) else none
  | .deleteSchema ctx id, k => if (ctx, id) = k then some none else none
  | _, _ => none

theorem Op.showTo_eq (bodies : BodyCache) (op : Op) :
    op.showTo bodies = write Op.touchBody bodies op := by
  funext k
  cases op with
  | putSchema ctx id rec index =>
    by_cases hk : k = (ctx, id)
    · simp [showTo, Memo.insert, write, touchBody, hk]
    · simp [showTo, Memo.insert, write, touchBody, hk, Ne.symm hk]
  | deleteSchema ctx id =>
    by_cases hk : k = (ctx, id)
    · simp [showTo, Memo.forget, write, touchBody, hk]
    · simp [showTo, Memo.forget, write, touchBody, hk, Ne.symm hk]
  | _ => rfl

/-- Writes and their operations do the same to bodies. -/
theorem touch_body_eq (w : Write) (k : String × UInt32) :
    w.touch (.body k.1 k.2) = w.op.bind fun op => op.touchBody k := by
  cases w <;> simp [Write.touch, Write.op, Op.touchBody, Prod.ext_iff]

/-- What a plan's writes leave under a body key, its operations leave. -/
theorem after_body_eq (ρ : Rows) (st : Store) (plan : Plan Unit) (k : String × UInt32) :
    ρ.after plan.writes (.body k.1 k.2)
      = writeAll Op.touchBody (fun k => ρ (.body k.1 k.2)) (st.planOps plan) k := by
  have hops : ∀ ws : List Write, ∀ ρ : Rows, ρ.after ws (.body k.1 k.2)
      = writeAll Op.touchBody (fun k => ρ (.body k.1 k.2)) (ws.filterMap Write.op) k := by
    intro ws
    induction ws with
    | nil => exact fun _ => rfl
    | cons w ws ih =>
      intro ρ
      refine (ih (write Write.touch ρ w)).trans ?_
      have hw := touch_body_eq w
      cases hop : w.op with
      | none =>
        rw [List.filterMap_cons_none hop]
        refine writeAll_congr ?_
        simp [write, hw, hop]
      | some op =>
        rw [List.filterMap_cons_some hop, writeAll_cons]
        refine writeAll_congr ?_
        simp [write, hw, hop]
  rw [hops, Store.planOps, writeAll_append]
  split
  · rfl
  · rfl

/-- An operation on a body is a write of the plan. -/
theorem write_of_touchBody {st : Store} {plan : Plan Unit} {op : Op} (hop : op ∈ st.planOps plan)
    {k : String × UInt32} {x : Option SchemaRecord} (hx : op.touchBody k = some x) :
    ∃ w ∈ plan.writes, w.touch (.body k.1 k.2) = some x := by
  rcases List.mem_append.mp hop with hop | hop
  · obtain ⟨w, hw, hop⟩ := List.mem_filterMap.mp hop
    exact ⟨w, hw, by rw [touch_body_eq, hop]; exact hx⟩
  · split at hop
    · cases hop
    · obtain rfl := List.mem_singleton.mp hop
      cases hx

/-- The writes that touch a body. -/
theorem touch_body_cases {w : Write} {ctx : String} {id : UInt32} {x : Option SchemaRecord}
    (h : w.touch (.body ctx id) = some x) :
    w = .deleteSchema ctx id ∧ x = none ∨
      ∃ rec index, w = .putSchema ctx id rec index ∧ x = some rec := by
  cases w with
  | putSchema ctx id rec index =>
    simp only [Write.touch] at h
    split at h
    · next hk =>
        cases h
        obtain ⟨rfl, rfl⟩ := hk
        exact .inr ⟨rec, index, rfl, rfl⟩
    · cases h
  | deleteSchema ctx id =>
    simp only [Write.touch] at h
    split at h
    · next hk =>
        cases h
        obtain ⟨rfl, rfl⟩ := hk
        exact .inl ⟨rfl, rfl⟩
    · cases h
  | _ => cases h

/-- The puts of one plan under one id agree. -/
def Plan.PutsAgree (plan : Plan Unit) : Prop :=
  ∀ ctx id rec rec' index index', .putSchema ctx id rec index ∈ plan.writes →
    .putSchema ctx id rec' index' ∈ plan.writes → rec = rec'

theorem putsAgree_of_gatedPlan {srv : Server} {verb : Verb} {view : ReadView} {plan : Plan Unit}
    (h : verb.gatedPlan srv view = .ok plan) : plan.PutsAgree := by
  intro ctx id rec rec' index index' hw hw'
  obtain ⟨m, x, hx, -, hrec, subject, req, normalize, hverb, hm⟩ :=
    (effect_of_gatedPlan h).putSchema hw
  obtain ⟨m', x', hx', -, hrec', subject', req', normalize', hverb', hm'⟩ :=
    (effect_of_gatedPlan h).putSchema hw'
  cases hverb.symm.trans hverb'
  cases hm.symm.trans hm'
  cases hx.symm.trans hx'
  rw [hrec, hrec']

/-! ### The invariant -/

namespace Reading

variable {srv : Server} {stripe : String → Fin 64} {s : Reading} {i r : Nat}

/-- What a batch has yet to show the cache. -/
def remaining (s : Reading) (b : Pending) : List Op :=
  match s.publishing with
  | some (i, rest) => if i = b.run then rest else b.ops
  | none => b.ops

/-- The body of an id a reader's snapshot uses: the store has that of the pin, the cache no
other, and no batch that is yet to be published puts another. -/
structure Kept (s : Reading) (p : PinnedReader) (k : String × UInt32) : Prop where
  stored : s.sys.store.getSchema k.1 k.2 = p.pinnedStore.getSchema k.1 k.2
  cached : ∀ rec, s.bodies k = some rec → s.sys.store.getSchema k.1 k.2 = some rec
  puts : ∀ b ∈ s.sys.pending, ∀ rec index, .putSchema k.1 k.2 rec index ∈ b.plan.writes →
    s.sys.store.getSchema k.1 k.2 = some rec

/-- What holds of a reader at work. -/
structure Reads (s : Reading) (p : PinnedReader) : Prop where
  fetched : ∀ ctx id rec, p.call = .fetched ctx id rec → s.sys.store.getSchema ctx id = some rec
  used : ∀ k, p.snap.UsesId k.1 k.2 → s.Kept p k
  answers : ∀ ctx id answer, ((ctx, id), answer) ∈ p.answers → p.snap.UsesId ctx id →
    answer = p.pinnedStore.getSchema ctx id

/-- The writers as they are, and a cache that still has no other body. -/
theorem Reads.recache {s' : Reading} {p : PinnedReader} (h : s.Reads p) (hsys : s'.sys = s.sys)
    (hcached : ∀ k, s.Kept p k → ∀ rec, s'.bodies k = some rec →
      s.sys.store.getSchema k.1 k.2 = some rec) : s'.Reads p where
  fetched := hsys ▸ h.fetched
  used k hk := by
    have hkept := h.used k hk
    exact ⟨hsys ▸ hkept.stored, hsys ▸ hcached k hkept, hsys ▸ hkept.puts⟩
  answers := h.answers

structure Sound (srv : Server) (stripe : String → Fin 64) (s : Reading) : Prop where
  sys : s.sys.Sound srv stripe
  puts : ∀ {i : Nat} {run : Run} {plan : Plan Unit}, s.sys.runs[i]? = some run →
    s.sys.UnderWay i run plan → plan.PutsAgree
  /-- The store has what a batch that is yet to be published leaves. -/
  settled : ∀ b ∈ s.sys.pending, ∃ old : BodyCache, ∀ k, (∃ op ∈ b.ops, op.touchBody k ≠ none) →
    s.sys.store.getSchema k.1 k.2 = writeAll Op.touchBody old b.ops k
  publishing : ∀ i rest, s.publishing = some (i, rest) →
    ∃ b ∈ s.sys.pending, b.run = i ∧ ∃ shown, b.ops = shown ++ rest
  /-- A cached body is the stored one, or is about to be overwritten. -/
  cache : ∀ k rec, s.bodies k = some rec → s.sys.store.getSchema k.1 k.2 = some rec ∨
    ∃ b ∈ s.sys.pending, ∃ op ∈ s.remaining b, op.touchBody k ≠ none
  readers : ∀ r p, s.readers r = some p → s.Reads p

/-- A batch's operations are writes of its plan. -/
theorem Sound.write_of_op (h : s.Sound srv stripe) {b : Pending} (hb : b ∈ s.sys.pending) {op : Op}
    (hop : op ∈ b.ops) {k : String × UInt32} {x : Option SchemaRecord}
    (hx : op.touchBody k = some x) : ∃ w ∈ b.plan.writes, w.touch (.body k.1 k.2) = some x := by
  obtain ⟨st, hops⟩ := h.sys.ops b hb
  rw [hops] at hop
  exact write_of_touchBody hop hx

theorem Sound.mem_ops_of_remaining (h : s.Sound srv stripe) {b : Pending} (hb : b ∈ s.sys.pending)
    {op : Op} (hop : op ∈ s.remaining b) : op ∈ b.ops := by
  unfold remaining at hop
  split at hop
  · next i rest hpub =>
      split at hop
      · next hi =>
          obtain ⟨b', hb', hrun, shown, hops⟩ := h.publishing i rest hpub
          obtain rfl : b' = b :=
            List.inj_on_of_nodup_map h.sys.queued.nodup hb' hb (hrun.trans hi)
          rw [hops]
          exact List.mem_append_right _ hop
      · exact hop
  · exact hop

/-! ### Steps of writers -/

/-- A step that changes neither the store nor what is yet to be published. -/
theorem Sound.quiet (h : s.Sound srv stripe) {sys' : System} (hsound : sys'.Sound srv stripe)
    (hputs : ∀ {i : Nat} {run : Run} {plan : Plan Unit}, sys'.runs[i]? = some run →
      sys'.UnderWay i run plan → plan.PutsAgree)
    (hstore : sys'.store = s.sys.store) (hpending : sys'.pending = s.sys.pending) :
    Sound srv stripe { s with sys := sys' } where
  sys := hsound
  puts := hputs
  settled b hb := by
    rw [hpending] at hb
    rw [hstore]
    exact h.settled b hb
  publishing i rest hpub := by
    rw [hpending]
    exact h.publishing i rest hpub
  cache k rec hk := by
    rw [hstore, hpending]
    exact h.cache k rec hk
  readers r p hp := by
    obtain ⟨hfetched, hused, hanswers⟩ := h.readers r p hp
    refine ⟨?_, fun k hk => ⟨?_, ?_, ?_⟩, hanswers⟩ <;> dsimp only <;> rw [hstore]
    · exact hfetched
    · exact (hused k hk).stored
    · exact (hused k hk).cached
    · rw [hpending]
      exact (hused k hk).puts

/-- A commit leaves a body alone that it neither deletes nor replaces. -/
theorem getSchema_afterPlan_of_keeps {st : Store} {plan : Plan Unit} {ctx : String} {id : UInt32}
    (hdelete : .deleteSchema ctx id ∉ plan.writes)
    (hput : ∀ rec index, .putSchema ctx id rec index ∈ plan.writes →
      st.getSchema ctx id = some rec) :
    (st.afterPlan plan).getSchema ctx id = st.getSchema ctx id := by
  refine (Store.row_afterPlan st (fun h => h.elim) :
    (st.afterPlan plan).row (.body ctx id) = _).trans ?_
  rcases writeAll_cases Write.touch st.row plan.writes (.body ctx id) with ⟨hsame, -⟩ | ⟨w, hw, hx⟩
  · exact hsame
  · rcases touch_body_cases hx with ⟨rfl, -⟩ | ⟨rec, index, rfl, hrec⟩
    · exact (hdelete hw).elim
    · exact hrec.trans (hput rec index hw).symm

/-- A commit leaves the bodies alone that its plan does not touch. -/
theorem getSchema_afterPlan_of_untouched {st : Store} {plan : Plan Unit} {k : String × UInt32}
    (h : ∀ w ∈ plan.writes, w.touch (.body k.1 k.2) = none) :
    (st.afterPlan plan).getSchema k.1 k.2 = st.getSchema k.1 k.2 :=
  (Store.row_afterPlan st (fun h => h.elim) :
    (st.afterPlan plan).row (.body k.1 k.2) = _).trans (writeAll_of_untouched h)

theorem Sound.commit (h : s.Sound srv stripe) {run : Run} {plan : Plan Unit}
    (hrun : s.sys.runs[i]? = some run) (hphase : run.phase = .planned plan)
    (hsound : (s.sys.commit i plan).Sound srv stripe)
    (hputs : ∀ {j : Nat} {run : Run} {plan' : Plan Unit}, (s.sys.commit i plan).runs[j]?
      = some run →
      (s.sys.commit i plan).UnderWay j run plan' → plan'.PutsAgree)
    (hkeeps : ∀ ctx id, s.Busy ctx id → .deleteSchema ctx id ∉ plan.writes ∧
      ∀ rec index, .putSchema ctx id rec index ∈ plan.writes →
        s.sys.store.getSchema ctx id = some rec) :
    Sound srv stripe { s with sys := s.sys.commit i plan } := by
  have hfresh : ∀ b ∈ s.sys.pending, b.run ≠ i := by
    rintro b hb rfl
    obtain ⟨run', hrun', hphase'⟩ := h.sys.queued.run b hb
    rw [hrun, Option.some.injEq] at hrun'
    rw [← hrun', hphase] at hphase'
    cases hphase'
  have hfits := h.sys.fits hrun (.inl hphase)
  -- Other batches that wait own other rows.
  have hother : ∀ b ∈ s.sys.pending, ∀ k, (∃ op ∈ b.ops, op.touchBody k ≠ none) →
      (s.sys.store.afterPlan plan).getSchema k.1 k.2 = s.sys.store.getSchema k.1 k.2 := by
    rintro b hb k ⟨op, hop, htouch⟩
    obtain ⟨x, hx⟩ := Option.ne_none_iff_exists'.mp htouch
    obtain ⟨w, hw, hwx⟩ := h.write_of_op hb hop hx
    obtain ⟨run', hrun', hplan', hfits'⟩ := h.sys.pending_run hb
    have hapart := h.sys.apart hrun (.inl hphase) hrun' hplan' (hfresh b hb).symm
    refine getSchema_afterPlan_of_untouched fun w' hw' => Write.touch_eq_none fun hk' => ?_
    have hk : RowKey.body k.1 k.2 ∈ w.keys := by
      by_contra hk
      rw [Write.touch_eq_none hk] at hwx
      cases hwx
    rcases hfits'.owned w hw _ hk with hown | hedge
    · rcases hfits.owned w' hw' _ hk' with hown' | hedge
      · exact not_owns_of_not_excludes hapart hown' hown
      · exact hedge
    · exact hedge
  rw [System.commit_eq] at *
  refine ⟨hsound, hputs, fun b hb => ?_, fun j rest hpub => ?_, fun k rec hk => ?_,
    fun r p hp => ?_⟩
  · rcases List.mem_append.mp hb with hb | hb
    · obtain ⟨old, hold⟩ := h.settled b hb
      exact ⟨old, fun k hk => (hother b hb k hk).trans (hold k hk)⟩
    · obtain rfl := List.mem_singleton.mp hb
      refine ⟨fun k => s.sys.store.row (.body k.1 k.2), fun k _ => ?_⟩
      refine (Store.row_afterPlan s.sys.store (fun h => h.elim) :
        (s.sys.store.afterPlan plan).row (.body k.1 k.2) = _).trans ?_
      exact after_body_eq s.sys.store.row s.sys.store plan k
  · obtain ⟨b, hb, hbrun, hshown⟩ := h.publishing j rest hpub
    exact ⟨b, List.mem_append_left _ hb, hbrun, hshown⟩
  · rcases h.cache k rec hk with hstored | ⟨b, hb, op, hop, htouch⟩
    · by_cases hun : ∀ op ∈ s.sys.store.planOps plan, op.touchBody k = none
      · refine .inl (Eq.trans ?_ hstored)
        refine (Store.row_afterPlan s.sys.store (fun h => h.elim) :
          (s.sys.store.afterPlan plan).row (.body k.1 k.2) = _).trans ?_
        rw [after_body_eq s.sys.store.row s.sys.store plan k, writeAll_of_untouched hun]
        rfl
      · push Not at hun
        obtain ⟨op, hop, htouch⟩ := hun
        refine .inr ⟨_, List.mem_append_right _ (List.mem_singleton_self _), op, ?_, htouch⟩
        unfold remaining
        dsimp only
        split
        · next j rest hpub =>
            obtain ⟨b, hb, hbrun, -⟩ := h.publishing j rest hpub
            rw [if_neg (hbrun ▸ hfresh b hb)]
            exact hop
        · exact hop
    · exact .inr ⟨b, List.mem_append_left _ hb, op, hop, htouch⟩
  · obtain ⟨hfetched, hused, hanswers⟩ := h.readers r p hp
    refine ⟨fun ctx id rec hcall => ?_, fun k hk => ?_, hanswers⟩
    · obtain ⟨hdelete, hput⟩ := hkeeps ctx id ⟨r, p, hp, .inr ⟨rec, hcall⟩⟩
      have hsame : (s.sys.store.afterPlan plan).getSchema ctx id = s.sys.store.getSchema ctx id :=
        getSchema_afterPlan_of_keeps hdelete hput
      exact hsame.trans (hfetched ctx id rec hcall)
    · obtain ⟨hdelete, hput⟩ := hkeeps k.1 k.2 ⟨r, p, hp, .inl hk⟩
      have hsame := getSchema_afterPlan_of_keeps hdelete hput
      refine ⟨hsame.trans (hused k hk).stored, fun rec hrec =>
        hsame.trans ((hused k hk).cached rec hrec), fun b hb rec index hw => ?_⟩
      rcases List.mem_append.mp hb with hb | hb
      · exact hsame.trans ((hused k hk).puts b hb rec index hw)
      · obtain rfl := List.mem_singleton.mp hb
        exact hsame.trans (hput rec index hw)

/-- Taking the publish lock. -/
theorem Sound.takeLock (h : s.Sound srv stripe) {b : Pending}
    (hb : s.sys.pending.find? (fun p => p.run == i) = some b) (hfree : s.publishing = none) :
    Sound srv stripe { s with publishing := some (i, b.ops) } := by
  have hmem := List.mem_of_find?_eq_some hb
  have hrun : b.run = i := (h.sys.queued.split hb).1
  have hremaining : ∀ b' ∈ s.sys.pending,
      remaining { s with publishing := some (i, b.ops) } b' = s.remaining b' := by
    intro b' hb'
    simp only [remaining, hfree]
    split
    · next hi =>
        rw [List.inj_on_of_nodup_map h.sys.queued.nodup hmem hb' (hrun.trans hi)]
    · rfl
  refine ⟨h.sys, h.puts, h.settled, fun j rest hpub => ?_, fun k rec hk => ?_, fun r p hp => ?_⟩
  · cases hpub
    exact ⟨b, hmem, hrun, [], rfl⟩
  · rcases h.cache k rec hk with hstored | ⟨b', hb', op, hop, htouch⟩
    · exact .inl hstored
    · exact .inr ⟨b', hb', op, (hremaining b' hb').symm ▸ hop, htouch⟩
  · exact (h.readers r p hp).recache rfl fun k hk => hk.cached

/-- Showing an operation to the cache. -/
theorem Sound.show (h : s.Sound srv stripe) {op : Op} {rest : List Op}
    (hpub : s.publishing = some (i, op :: rest)) :
    Sound srv stripe { s with bodies := op.showTo s.bodies, publishing := some (i, rest) } := by
  obtain ⟨b, hb, hrun, shown, hops⟩ := h.publishing i _ hpub
  have hop : op ∈ b.ops := by
    rw [hops]
    exact List.mem_append_right _ List.mem_cons_self
  rw [Op.showTo_eq]
  refine ⟨h.sys, h.puts, h.settled, fun j rest' hpub' => ?_, fun k rec hk => ?_, fun r p hp => ?_⟩
  · cases hpub'
    exact ⟨b, hb, hrun, shown ++ [op], by rw [hops, List.append_assoc]; rfl⟩
  · replace hk : write Op.touchBody s.bodies op k = some rec := hk
    cases htouch : op.touchBody k with
    | none =>
      rw [write_of_untouched htouch] at hk
      rcases h.cache k rec hk with hstored | ⟨b', hb', op', hop', htouch'⟩
      · exact .inl hstored
      · refine .inr ⟨b', hb', op', ?_, htouch'⟩
        simp only [remaining, hpub] at hop' ⊢
        split at hop'
        · next hi =>
            rw [if_pos hi]
            rcases List.mem_cons.mp hop' with rfl | hop'
            · exact (htouch' htouch).elim
            · exact hop'
        · next hi =>
            rw [if_neg hi]
            exact hop'
    | some x =>
      rw [write_of_touch htouch] at hk
      by_cases hrest : ∀ op' ∈ rest, op'.touchBody k = none
      · obtain ⟨old, hold⟩ := h.settled b hb
        refine .inl ((hold k ⟨op, hop, by rw [htouch]; nofun⟩).trans (Eq.trans ?_ hk))
        rw [hops, writeAll_append, writeAll_cons, writeAll_of_untouched hrest,
          write_of_touch htouch]
      · push Not at hrest
        obtain ⟨op', hop', htouch'⟩ := hrest
        refine .inr ⟨b, hb, op', ?_, htouch'⟩
        simp only [remaining, hrun, if_true]
        exact hop'
  · refine (h.readers r p hp).recache rfl fun k hkept rec hrec => ?_
    replace hrec : write Op.touchBody s.bodies op k = some rec := hrec
    cases htouch : op.touchBody k with
    | none =>
      rw [write_of_untouched htouch] at hrec
      exact hkept.cached rec hrec
    | some x =>
      rw [write_of_touch htouch] at hrec
      obtain ⟨w, hw, hx⟩ := h.write_of_op hb hop htouch
      rcases touch_body_cases hx with ⟨-, hnone⟩ | ⟨rec', index, rfl, hsome⟩
      · rw [hnone] at hrec
        cases hrec
      · rw [hsome, Option.some.injEq] at hrec
        rw [← hrec]
        exact hkept.puts b hb rec' index hw

/-- Swapping the snapshot, once the cache has seen all. -/
theorem Sound.publish (h : s.Sound srv stripe) {run : Run} {b : Pending}
    (hrun : s.sys.runs[i]? = some run) (hphase : run.phase = .committed)
    (hb : s.sys.pending.find? (fun p => p.run == i) = some b)
    (hpub : s.publishing = some (i, []))
    (hputs : ∀ {j : Nat} {run : Run} {plan' : Plan Unit}, (s.sys.publish i b).runs[j]? = some run →
      (s.sys.publish i b).UnderWay j run plan' → plan'.PutsAgree) :
    Sound srv stripe { s with sys := s.sys.publish i b, publishing := none } := by
  have hsub : ∀ b' ∈ (s.sys.publish i b).pending, b' ∈ s.sys.pending ∧ b'.run ≠ i := by
    intro b' hb'
    obtain ⟨hmem, hne⟩ := List.mem_filter.mp hb'
    exact ⟨hmem, by simpa using hne⟩
  refine ⟨h.sys.step (.publish run hrun hphase b hb),
    hputs, fun b' hb' => ?_, fun j rest hpub' => ?_,
    fun k rec hk => ?_, fun r p hp => ?_⟩
  · exact h.settled b' (hsub b' hb').1
  · cases hpub'
  · rcases h.cache k rec hk with hstored | ⟨b', hb', op, hop, htouch⟩
    · exact .inl hstored
    · simp only [remaining, hpub] at hop
      split at hop
      · cases hop
      · next hi =>
          refine .inr ⟨b', List.mem_filter.mpr ⟨hb', by simpa using Ne.symm hi⟩, op, ?_, htouch⟩
          simpa [remaining] using hop
  · obtain ⟨hfetched, hused, hanswers⟩ := h.readers r p hp
    exact ⟨hfetched, fun k hk => ⟨(hused k hk).stored, (hused k hk).cached,
      fun b' hb' => (hused k hk).puts b' (hsub b' hb').1⟩, hanswers⟩

theorem Sound.writerStep (h : s.Sound srv stripe) (hok : (Event.writer i).Undisturbed s) :
    Sound srv stripe (s.writerStep srv stripe i) := by
  unfold Reading.writerStep
  split
  · exact h
  · next run hrun =>
      have hsteps := s.sys.steps_step srv stripe i
      have hsound := h.sys.step hsteps
      have hputs : ∀ {j : Nat} {run : Run} {plan : Plan Unit},
          (s.sys.step srv stripe i).runs[j]? = some run →
          (s.sys.step srv stripe i).UnderWay j run plan → plan.PutsAgree := by
        intro j run' plan hj hplan
        obtain ⟨run, hrun, -, hold | ⟨-, hmade⟩⟩ := System.underWay_of_step hsteps hj hplan
        · exact h.puts hrun hold
        · exact putsAgree_of_gatedPlan hmade.made
      split
      · next hphase =>
          unfold publishStep
          split
          · next hfree =>
              split
              · exact h
              · next b hb => exact h.takeLock hb hfree
          · next j ops hpub =>
              split
              · next hij =>
                  subst hij
                  split
                  · exact h.show hpub
                  · obtain ⟨b, hb⟩ : ∃ b, s.sys.pending.find? (fun p => p.run == j) = some b := by
                      obtain ⟨b, hb, hbrun⟩ := h.sys.queued.batch hrun hphase
                      exact Option.isSome_iff_exists.mp
                        (List.find?_isSome.mpr ⟨b, hb, by simpa using hbrun⟩)
                    have hstep : s.sys.step srv stripe j = s.sys.publish j b := by
                      simp only [System.step, hrun, hphase, hb]
                    rw [hstep] at hputs ⊢
                    exact h.publish hrun hphase hb hpub hputs
              · exact h
      · next hphase =>
          generalize s.sys.step srv stripe i = sys' at hsteps hsound hputs
          cases hsteps with
          | idle => exact h
          | refuse => exact h.quiet hsound hputs rfl rfl
          | lock => exact h.quiet hsound hputs rfl rfl
          | plan => exact h.quiet hsound hputs rfl rfl
          | commit run' hrun' plan hplanned =>
            exact h.commit hrun' hplanned hsound hputs (hok run' plan hrun' hplanned)
          | publish run' hrun' hcommitted =>
            rw [hrun, Option.some.injEq] at hrun'
            exact (hphase (hrun' ▸ hcommitted)).elim

/-! ### Steps of readers -/

theorem Sound.setReader (h : s.Sound srv stripe) {new : Option PinnedReader}
    (hnew : ∀ p, new = some p → s.Reads p) : Sound srv stripe (s.setReader r new) where
  sys := h.sys
  puts := h.puts
  settled := h.settled
  publishing := h.publishing
  cache := h.cache
  readers r' p hp := by
    have hreads : s.Reads p := by
      simp only [Reading.setReader] at hp
      split at hp
      · exact hnew p hp
      · exact h.readers r' p hp
    exact hreads.recache rfl fun k hk => hk.cached

/-- A cache that has no more than before, and no other than the store. -/
theorem Sound.recache (h : s.Sound srv stripe) {bodies : BodyCache}
    (hbodies : ∀ k rec, bodies k = some rec →
      s.bodies k = some rec ∨ s.sys.store.getSchema k.1 k.2 = some rec) :
    Sound srv stripe { s with bodies } where
  sys := h.sys
  puts := h.puts
  settled := h.settled
  publishing := h.publishing
  cache k rec hk := by
    rcases hbodies k rec hk with hold | hstored
    · exact h.cache k rec hold
    · exact .inl hstored
  readers r p hp := by
    refine (h.readers r p hp).recache rfl fun k hkept rec hrec => ?_
    rcases hbodies k rec hrec with hold | hstored
    · exact hkept.cached rec hold
    · exact hstored

/-- A snapshot that is pinned undisturbed. -/
theorem Sound.pin (h : s.Sound srv stripe) (hok : (Event.pin r).Undisturbed s) :
    s.Reads { snap := s.sys.snapshot, pinnedStore := s.sys.store } := by
  refine ⟨nofun, fun k hk => ⟨rfl, fun rec hrec => ?_, fun b hb rec index hw => ?_⟩, nofun⟩
  · rcases h.cache k rec hrec with hstored | ⟨b, hb, op, hop, htouch⟩
    · exact hstored
    · -- What is about to be overwritten is about to be put again.
      obtain ⟨old, hold⟩ := h.settled b hb
      have hop := h.mem_ops_of_remaining hb hop
      refine (hold k ⟨op, hop, htouch⟩).trans ?_
      rcases writeAll_cases Op.touchBody old b.ops k with ⟨-, hun⟩ | ⟨op', hop', hx⟩
      · exact (htouch (hun op hop)).elim
      · obtain ⟨w, hw, hwx⟩ := h.write_of_op hb hop' hx
        obtain ⟨hdelete, hput⟩ := hok b hb k.1 k.2 hk
        rcases touch_body_cases hwx with ⟨rfl, -⟩ | ⟨rec', index, rfl, hrec'⟩
        · exact (hdelete hw).elim
        · rw [hrec', hput rec' index hw rec hrec]
  · obtain ⟨old, hold⟩ := h.settled b hb
    obtain ⟨st, hops⟩ := h.sys.ops b hb
    have hop : Op.putSchema k.1 k.2 rec index ∈ b.ops := by
      rw [hops]
      exact List.mem_append_left _ (List.mem_filterMap.mpr ⟨_, hw, rfl⟩)
    refine (hold k ⟨_, hop, by simp [Op.touchBody]⟩).trans ?_
    rcases writeAll_cases Op.touchBody old b.ops k with ⟨-, hun⟩ | ⟨op', hop', hx⟩
    · simpa [Op.touchBody] using hun _ hop
    · obtain ⟨w, hw', hwx⟩ := h.write_of_op hb hop' hx
      rcases touch_body_cases hwx with ⟨rfl, -⟩ | ⟨rec', index', rfl, hrec'⟩
      · exact ((hok b hb k.1 k.2 hk).1 hw').elim
      · obtain ⟨run, hrun, hplan, -⟩ := h.sys.pending_run hb
        rw [hrec', h.puts hrun hplan k.1 k.2 rec rec' index index' hw hw']

/-- An answer that is what the store has. -/
theorem Reads.answer {p : PinnedReader} (h : s.Reads p) {ctx : String} {id : UInt32}
    {answer : Option SchemaRecord}
    (hanswer : p.snap.UsesId ctx id → s.sys.store.getSchema ctx id = answer) :
    s.Reads { p with call := .idle, answers := ((ctx, id), answer) :: p.answers } := by
  refine ⟨nofun, fun k hk => ⟨(h.used k hk).stored, (h.used k hk).cached, (h.used k hk).puts⟩,
    fun ctx' id' answer' hmem hused => ?_⟩
  rcases List.mem_cons.mp hmem with heq | hmem
  · cases heq
    exact (hanswer hused).symm.trans (h.used (ctx, id) hused).stored
  · exact h.answers ctx' id' answer' hmem hused

theorem Reads.call {p : PinnedReader} (h : s.Reads p) {call : Call}
    (hcall : ∀ ctx id rec, call = .fetched ctx id rec →
      s.sys.store.getSchema ctx id = some rec) : s.Reads { p with call } :=
  ⟨hcall, fun k hk => ⟨(h.used k hk).stored, (h.used k hk).cached, (h.used k hk).puts⟩, h.answers⟩

theorem Sound.step (h : s.Sound srv stripe) {e : Event} (hok : e.Undisturbed s) :
    Sound srv stripe (s.step srv stripe e) := by
  cases e with
  | writer i => exact h.writerStep hok
  | evict key =>
    refine h.recache fun k rec hk => .inl ?_
    simp only [Memo.forget] at hk
    split at hk
    · cases hk
    · exact hk
  | pin r =>
    unfold Reading.step
    dsimp only
    split
    · refine h.setReader fun p hp => ?_
      cases hp
      exact h.pin hok
    · exact h
  | lookup r ctx id =>
    unfold Reading.step
    dsimp only
    split
    · next p hp =>
        have hreads := h.readers r p hp
        split
        · next hidle =>
            split
            · next rec hrec =>
                refine h.setReader fun p' hp' => ?_
                cases hp'
                have := hreads.answer fun hused => (hreads.used (ctx, id) hused).cached rec hrec
                rwa [← hidle] at this
            · refine h.setReader fun p' hp' => ?_
              cases hp'
              exact hreads.call nofun
        · exact h
    · exact h
  | read r =>
    unfold Reading.step
    dsimp only
    split
    · next p hp =>
        have hreads := h.readers r p hp
        split
        · next ctx id hmissed =>
            split
            · next rec hrec =>
                refine h.setReader fun p' hp' => ?_
                cases hp'
                refine hreads.call fun ctx' id' rec' hcall => ?_
                cases hcall
                exact hrec
            · next hnone =>
                refine h.setReader fun p' hp' => ?_
                cases hp'
                exact hreads.answer fun _ => hnone
        · exact h
    · exact h
  | fill r =>
    unfold Reading.step
    dsimp only
    split
    · next p hp =>
        have hreads := h.readers r p hp
        split
        · next ctx id rec hfetched =>
            have hstored := hreads.fetched ctx id rec hfetched
            have hfilled : Sound srv stripe { s with bodies := s.bodies.insert (ctx, id) rec } := by
              refine h.recache fun k rec' hk => ?_
              simp only [Memo.insert] at hk
              split at hk
              · next heq =>
                  cases hk
                  subst heq
                  exact .inr hstored
              · exact .inl hk
            refine hfilled.setReader fun p' hp' => ?_
            cases hp'
            exact (hfilled.readers r p hp).answer fun _ => hstored
        · exact h
    · exact h
  | release r =>
    unfold Reading.step
    dsimp only
    split
    · split
      · exact h.setReader nofun
      · exact h
    · exact h

theorem sound_init (tenant : TenantId) (reqs : List Request) :
    (init tenant reqs).Sound srv stripe where
  sys := System.sound_init tenant reqs
  puts hrun hplan := (System.not_underWay_init hrun hplan).elim
  settled := nofun
  publishing := nofun
  cache := nofun
  readers := nofun

theorem Sound.isolated (h : s.Sound srv stripe) : s.Isolated :=
  fun r p hp => (h.readers r p hp).answers

/-- When all writers are done nothing is about to be overwritten. -/
theorem Sound.cacheMatches (h : s.Sound srv stripe) (hdone : s.sys.Finished) : s.CacheMatches := by
  intro ctx id rec hrec
  rcases h.cache (ctx, id) rec hrec with hstored | ⟨b, hb, -⟩
  · exact hstored
  · obtain ⟨run, hrun, hphase⟩ := h.sys.queued.run b hb
    rcases hdone run (List.mem_of_getElem? hrun) with hfinished | hfinished <;>
      rw [hphase] at hfinished <;> cases hfinished

end Reading

/-! ### A delete beside a reader -/

namespace Reading

theorem readers_writerStep (srv : Server) (stripe : String → Fin 64) (s : Reading) (i : Nat) :
    (s.writerStep srv stripe i).readers = s.readers := by
  unfold writerStep
  split
  · rfl
  · split
    · unfold publishStep
      split
      · split <;> rfl
      · split
        · split <;> rfl
        · rfl
    · rfl

/-- Only pinning makes a reader. -/
theorem readers_step_eq_none {srv : Server} {stripe : String → Fin 64} {s : Reading} {r : Nat}
    (h : s.readers r = none) {e : Event} (he : e ≠ .pin r) :
    (s.step srv stripe e).readers r = none := by
  have hset : ∀ {s : Reading} {r' : Nat} {p : Option PinnedReader}, s.readers r = none → r ≠ r' →
      (s.setReader r' p).readers r = none := by
    intro s r' p hs hr
    simp only [setReader, if_neg hr, hs]
  have hne : ∀ {r' : Nat} {p : PinnedReader}, s.readers r' = some p → r ≠ r' := by
    rintro r' p hp rfl
    rw [h] at hp
    cases hp
  cases e with
  | writer i =>
    unfold Reading.step
    dsimp only
    rw [readers_writerStep]
    exact h
  | evict => exact h
  | pin r' =>
    unfold Reading.step
    dsimp only
    split
    · exact hset h fun heq => he (heq ▸ rfl)
    · exact h
  | lookup r' | read r' | fill r' | release r' =>
    unfold Reading.step
    dsimp only
    split
    · next p hp =>
        repeat' split
        all_goals first | exact h | exact hset h (hne hp)
    · exact h

theorem readers_foldl_eq_none {srv : Server} {stripe : String → Fin 64} {s : Reading} {r : Nat}
    {events : List Event} (h : s.readers r = none) (he : ∀ e ∈ events, e ≠ .pin r) :
    (events.foldl (step srv stripe) s).readers r = none := by
  induction events generalizing s with
  | nil => exact h
  | cons e events ih =>
    obtain ⟨hfirst, hrest⟩ := List.forall_mem_cons.mp he
    exact ih (readers_step_eq_none h hfirst) hrest

end Reading

instance (call : Call) : Decidable (call = .idle) :=
  match call with
  | .idle => isTrue rfl
  | .missed .. | .fetched .. => isFalse nofun

/-- A schema is registered, hidden and removed. -/
def removedRequests : List Request :=
  [registerText "s" "\"string\"", plainRequest (.deleteSubject "s" false),
    plainRequest (.deleteSubject "s" true)]

/-- All steps of a run. -/
def allSteps (i : Nat) : List Reading.Event := List.replicate 10 (.writer i)

/-- The removal comes between the pin and the first read. -/
def removedBeforeRead : List Reading.Event :=
  allSteps 0 ++ allSteps 1 ++ [.pin 0] ++ allSteps 2 ++ [.lookup 0 "." 1, .read 0]

/-- The removal comes between the read of the store and the fill of the cache. -/
def removedBeforeFill : List Reading.Event :=
  allSteps 0 ++ allSteps 1 ++ [.evict (".", 1), .pin 0, .lookup 0 "." 1, .read 0] ++ allSteps 2
    ++ [.fill 0]

def afterRemoval (events : List Reading.Event) : Reading :=
  events.foldl (Reading.step plainServer plainStripe) (.init .default removedRequests)

namespace Reading

/-- A run about to commit deletes no body and puts none but that of `k`. -/
def onlyPuts (s : Reading) (i : Nat) (k : String × UInt32) : Bool :=
  match s.sys.runs[i]? with
  | some ⟨_, .planned plan⟩ => plan.writes.all fun
      | .deleteSchema .. => false
      | .putSchema ctx id .. => (ctx, id) == k
      | _ => true
  | _ => true

theorem undisturbed_of_onlyPuts {s : Reading} {i : Nat} {k : String × UInt32}
    (h : s.onlyPuts i k = true) (hk : ¬ s.Busy k.1 k.2) : (Event.writer i).Undisturbed s := by
  rintro ⟨req, phase⟩ plan hrun rfl ctx id hbusy
  rw [onlyPuts, hrun] at h
  refine ⟨fun hdelete => absurd (List.all_eq_true.mp h _ hdelete) Bool.false_ne_true,
    fun rec index hput => ?_⟩
  obtain rfl : (ctx, id) = k := beq_iff_eq.mp (List.all_eq_true.mp h _ hput)
  exact absurd hbusy hk

theorem along_onlyPuts {srv : Server} {stripe : String → Fin 64} {s : Reading} {i n : Nat}
    {k : String × UInt32} (hk : ¬ s.Busy k.1 k.2)
    (h : ∀ m < n, ((List.replicate m (Event.writer i)).foldl (step srv stripe) s).onlyPuts i k) :
    Along (step srv stripe) Event.Undisturbed s (List.replicate n (.writer i)) := by
  induction n generalizing s with
  | zero => trivial
  | succ n ih =>
    refine ⟨undisturbed_of_onlyPuts (h 0 n.succ_pos) hk, ih ?_ fun m hm => ?_⟩
    · rintro ⟨r, p, hp, hbusy⟩
      exact hk ⟨r, p, by rwa [step, readers_writerStep] at hp, hbusy⟩
    · exact h (m + 1) (Nat.succ_lt_succ hm)

end Reading

def twoSchemas : List Request := [registerText "s" "\"string\"", registerText "t" "\"int\""]

/-- The first is registered and a reader pins the snapshot; the second is registered, and the
reader looks the first up, from the cache and, once it is forgotten there, from the store. -/
def readTwice : List Reading.Event :=
  allSteps 0 ++ .pin 0 :: (allSteps 1
    ++ [.lookup 0 "." 1, .evict (".", 1), .lookup 0 "." 1, .read 0, .fill 0])

end SchemaRegistry

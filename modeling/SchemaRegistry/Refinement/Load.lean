import SchemaRegistry.Refinement.Store

/-!
Loading a snapshot. Table by table, each stored row sets its own row of the snapshot
and no other, so what is loaded holds the store's rows (`loadSnapshot_spec`). A
container whose published snapshot agrees with its store (`Registry.Agrees`) keeps
agreeing when a plan is applied, and answers as its reloaded snapshot would.
-/

namespace SchemaRegistry

open Std SchemaRegistry.Lib

/-! ### Setting one row of a snapshot -/

/-- On the keys in `dom`, `snap'` is `snap` with one row set. -/
structure Sets (dom : RowKey → Prop) (snap : Snapshot) (k : RowKey) (v : RowVal k)
    (snap' : Snapshot) : Prop where
  row : ∀ k', dom k' → snap'.row k' = Function.update snap.row k v k'
  consistent : snap.Consistent → snap'.Consistent

variable {dom : RowKey → Prop} {snap : Snapshot}

theorem sets_applyWrite {w : Write} {k : RowKey} {v : RowVal k} (hw : w.touch k = some v)
    (hne : ∀ k', dom k' → k' ≠ k → w.touch k' = none) (hdom : ∀ k', dom k' → k'.indexed)
    (hhint : snap.HintOk w) : Sets dom snap k v (snap.applyWrite w) where
  row k' hk' := by
    rw [Snapshot.row_applyWrite snap w (hdom k' hk')]
    rcases eq_or_ne k' k with rfl | h
    · rw [Function.update_self, write_of_touch hw]
    · rw [Function.update_of_ne h, write_of_untouched (hne k' hk' h)]
  consistent h := h.applyWrite hhint

/-! ### Scanning -/

namespace Store

theorem mem_scanPrefix (s : Store) {c : Cf} {start k : Bytes} {x : Cell c} :
    (k, x) ∈ s.scanPrefix c start ↔ s.get? c k = some x ∧ start <+: k := by
  simp only [scanPrefix, List.mem_map, Prod.exists, Prod.mk.injEq]
  constructor
  · rintro ⟨key, cell, hmem, rfl, rfl⟩
    obtain ⟨hget, rest, rfl⟩ := mem_scanFrom.mp hmem
    have hdrop : (s.key start ++ rest).drop s.keyPrefix.length = start ++ rest := by
      simp [key]
    rw [hdrop]
    refine ⟨?_, List.prefix_append ..⟩
    rw [get?, PhysicalStore.get?, key, ← List.append_assoc]
    exact hget
  · rintro ⟨hget, rest, rfl⟩
    refine ⟨s.key (start ++ rest), x, mem_scanFrom.mpr ⟨hget, ?_⟩, by simp [key], rfl⟩
    rw [key, key, ← List.append_assoc]
    exact List.prefix_append ..

end Store

/-- The keys of a container's rows are faithful: they differ when their parts do, they decode to
their parts, they order the versions of a subject, and a scan for a subject finds its rows only. -/
theorem keys_faithful {ctx ctx' subject subject' : String} (hc : NulFree ctx)
    (hs : NulFree subject) (hc' : NulFree ctx') (hs' : NulFree subject') {scope scope' : Scope}
    (h : scope.NulFree) (h' : scope'.NulFree) (version version' id id' : UInt32)
    (fp fp' : String) (s : Store) (c : Cf) :
    ((versionKey ctx subject version = versionKey ctx' subject' version'
        ↔ ctx = ctx' ∧ subject = subject' ∧ version = version') ∧
      (refbyKey ctx subject version id = refbyKey ctx' subject' version' id'
        ↔ ctx = ctx' ∧ subject = subject' ∧ version = version' ∧ id = id') ∧
      (fpKey ctx fp = fpKey ctx' fp' ↔ ctx = ctx' ∧ fp = fp') ∧
      (schemaKey ctx id = schemaKey ctx' id' ↔ ctx = ctx' ∧ id = id') ∧
      (scope.key = scope'.key ↔ scope = scope')) ∧
    (splitRow (versionKey ctx subject version) = some (ctx, subject, version, []) ∧
      splitRow (refbyKey ctx subject version id) = some (ctx, subject, version, be32 id) ∧
      splitCtx (fpKey ctx fp) = some (ctx, utf8 fp) ∧ fromUtf8Lossy (utf8 fp) = fp ∧
      splitCtx (schemaKey ctx id) = some (ctx, be32 id) ∧ beU32 (be32 id) = some id ∧
      Scope.fromKey scope.key = some scope) ∧
    compare (versionKey ctx subject version) (versionKey ctx subject version')
      = compare version.toNat version'.toNat ∧
    ∀ p ∈ s.scanPrefix c (subjectPrefix ctx subject), ∀ parts, splitRow p.1 = some parts →
      parts.1 = ctx ∧ parts.2.1 = subject := by
  refine ⟨⟨versionKey_inj hc hs hc' hs', refbyKey_inj hc hs hc' hs', fpKey_inj hc hc',
    schemaKey_inj, Scope.key_inj h h'⟩, ⟨?_, ?_, splitCtx_append hc _, fromUtf8Lossy_utf8 fp,
    splitCtx_append hc _, beU32_be32 id, Scope.fromKey_key h⟩, compare_versionKey, ?_⟩
  · rw [versionKey_eq, splitRow_append hc hs]
  · rw [refbyKey_eq, splitRow_append hc hs]
  · intro p hp parts hparts
    exact splitRow_of_prefix hc hs (s.mem_scanPrefix.mp hp).2 hparts

/-- Version 256, whose key holds zeros beside the separators, is found and comes after version
1. -/
theorem keys_faithful_zeros :
    let row : VersionRecord := ⟨1, false, 0⟩
    let s : Store := (⟨.default, default⟩ : Store).write
      [.put .versions (TenantId.default.keyPrefix ++ versionKey "." "a" 256) row]
    (versionKey "." "a" 256, row) ∈ s.scanPrefix .versions (subjectPrefix "." "a") ∧
      splitRow (versionKey "." "a" 256) = some (".", "a", 256, []) ∧
      compare (versionKey "." "a" 256) (versionKey "." "a" 1) = .gt := by
  intro row s
  have hdot : NulFree "." := by decide
  have ha : NulFree "a" := by decide
  have h := keys_faithful hdot ha hdot ha (show Scope.NulFree .global from trivial)
    (show Scope.NulFree (.subject "." "a") from ⟨hdot, ha⟩) 256 1 1 2 "x" "y" s .versions
  refine ⟨s.mem_scanPrefix.mpr ⟨?_, List.prefix_append ..⟩, h.2.1.1, h.2.2.1⟩
  exact (PhysicalStore.get?_put_self _ _ _ _ _).trans (if_pos rfl)

/-! ### Loading one table -/

/-- The value of a stored row, as a value under its key. -/
def RowKey.decodeAt (k : RowKey) {c : Cf} (h : k.cf = c) (x : Cell c) : RowVal k :=
  k.decode (some (h ▸ x))

/-- A row of a table: one the snapshot holds, set by `load`, or one that `load` passes over. -/
structure LoadsRows (c : Cf) (load : Snapshot → Bytes × Cell c → Option Snapshot)
    (dom : RowKey → Prop) : Prop where
  row : ∀ (k : RowKey) (h : k.cf = c) (x : Cell c) snap, k.NulFree → k.decodeAt h x ≠ Rows.empty k →
    ∃ snap', load snap (k.bytes, x) = some snap' ∧ Sets dom snap k (k.decodeAt h x) snap'
  logSeq : ∀ (h : .«meta» = c) (x : Bytes) snap, load snap (logSeqKey, h ▸ x) = some snap
  log : c ≠ .log

open Classical in
/-- What a stored row sets in a snapshot. -/
noncomputable def placeTouch (c : Cf) (p : Bytes × Cell c) (k : RowKey) : Option (RowVal k) :=
  if h : k.cf = c ∧ k.bytes = p.1 ∧ k.NulFree then some (k.decodeAt h.1 p.2) else none

theorem placeTouch_eq_some {c : Cf} {p : Bytes × Cell c} {k : RowKey} {v : RowVal k} :
    placeTouch c p k = some v ↔
      ∃ h : k.cf = c, k.bytes = p.1 ∧ k.NulFree ∧ k.decodeAt h p.2 = v := by
  simp only [placeTouch, Option.dite_none_right_eq_some, Option.some.injEq]
  constructor
  · rintro ⟨⟨h, hb, hk⟩, hv⟩
    exact ⟨h, hb, hk, hv⟩
  · rintro ⟨h, hb, hk, hv⟩
    exact ⟨⟨h, hb, hk⟩, hv⟩

theorem placeTouch_eq_none {c : Cf} {p : Bytes × Cell c} {k : RowKey} :
    placeTouch c p k = none ↔ ¬ (k.cf = c ∧ k.bytes = p.1 ∧ k.NulFree) := by
  simp [placeTouch]

/-- A placed row is a row of the table, the sequence number, or a log event. -/
theorem Placed.inv {c : Cf} {b : Bytes} {x : Cell c} (h : Placed c b x) :
    (∃ k : RowKey, k.NulFree ∧ ∃ e : k.cf = c, k.bytes = b ∧ k.decodeAt e x ≠ Rows.empty k) ∨
    (∃ (e : .«meta» = c) (y : Bytes), b = logSeqKey ∧ x = e ▸ y) ∨ c = .log := by
  cases h with
  | row hk hx => exact .inl ⟨_, hk, rfl, rfl, hx⟩
  | logSeq x => exact .inr (.inl ⟨rfl, x, rfl, rfl⟩)
  | log => exact .inr (.inr rfl)

theorem LoadsRows.load_one {c : Cf} {load : Snapshot → Bytes × Cell c → Option Snapshot}
    (hload : LoadsRows c load dom) {p : Bytes × Cell c} (hp : Placed c p.1 p.2) (snap : Snapshot) :
    ∃ snap', load snap p = some snap' ∧ (snap.Consistent → snap'.Consistent) ∧
      ∀ k, dom k → snap'.row k = write (placeTouch c) snap.row p k := by
  obtain ⟨b, x⟩ := p
  rcases hp.inv with ⟨k₀, hk₀, e, rfl, hx⟩ | ⟨rfl, y, rfl, rfl⟩ | hlog
  · obtain ⟨snap', hsome, hsets⟩ := hload.row k₀ e x snap hk₀ hx
    refine ⟨snap', hsome, hsets.consistent, fun k hk => ?_⟩
    rw [hsets.row k hk]
    rcases eq_or_ne k k₀ with rfl | hne
    · rw [Function.update_self, write_of_touch (placeTouch_eq_some.mpr ⟨e, rfl, hk₀, rfl⟩)]
    · rw [Function.update_of_ne hne, write_of_untouched (placeTouch_eq_none.mpr ?_)]
      rintro ⟨hcf, hbytes, hnul⟩
      exact hne (RowKey.eq_of_place (fun _ => ⟨hnul, hk₀⟩) (hcf.trans e.symm) hbytes)
  · refine ⟨snap, hload.logSeq rfl x snap, id, fun k _ => ?_⟩
    rw [write_of_untouched (placeTouch_eq_none.mpr ?_)]
    rintro ⟨hcf, hbytes, -⟩
    exact Store.place_ne_logSeq k hcf hbytes
  · exact (hload.log hlog).elim

theorem LoadsRows.load_all {c : Cf} {load : Snapshot → Bytes × Cell c → Option Snapshot}
    (hload : LoadsRows c load dom) {ps : List (Bytes × Cell c)}
    (hps : ∀ p ∈ ps, Placed c p.1 p.2) (snap : Snapshot) :
    ∃ snap', ps.foldlM load snap = some snap' ∧ (snap.Consistent → snap'.Consistent) ∧
      ∀ k, dom k → snap'.row k = writeAll (placeTouch c) snap.row ps k := by
  induction ps generalizing snap with
  | nil => exact ⟨snap, rfl, id, fun _ _ => rfl⟩
  | cons p ps ih =>
    obtain ⟨snap₁, h₁, hc₁, hr₁⟩ := hload.load_one (hps p List.mem_cons_self) snap
    obtain ⟨snap₂, h₂, hc₂, hr₂⟩ := ih (fun q hq => hps q (List.mem_cons_of_mem p hq)) snap₁
    refine ⟨snap₂, by rw [List.foldlM_cons, h₁]; exact h₂, hc₂ ∘ hc₁, fun k hk => ?_⟩
    rw [hr₂ k hk]
    exact writeAll_congr (hr₁ k hk)

/-- The snapshot holds the tables in `cs` of a store and nothing of the others. -/
structure Holds (s : Store) (dom : RowKey → Prop) (cs : List Cf) (snap : Snapshot) : Prop where
  consistent : snap.Consistent
  row : ∀ k, dom k → k.cf ∈ cs → k.NulFree → snap.row k = s.row k
  rest : ∀ k, dom k → ¬ (k.cf ∈ cs ∧ k.NulFree) → snap.row k = Rows.empty k

theorem LoadsRows.load_table {c : Cf} {load : Snapshot → Bytes × Cell c → Option Snapshot}
    (hload : LoadsRows c load dom) {s : Store} (hs : s.WellKeyed) {cs : List Cf}
    (h : Holds s dom cs snap) (hc : c ∉ cs) :
    ∃ snap', (s.scanPrefix c []).foldlM load snap = some snap' ∧ Holds s dom (c :: cs) snap' := by
  have hps : ∀ p ∈ s.scanPrefix c [], s.get? c p.1 = some p.2 := fun p hp =>
    (s.mem_scanPrefix.mp hp).1
  obtain ⟨snap', hsome, hcons, hrow⟩ := hload.load_all (fun p hp => hs c p.1 p.2 (hps p hp)) snap
  -- A key of another table, or with a name that does not decode, is touched by no row.
  have hout : ∀ k, dom k → ¬ (k.cf = c ∧ k.NulFree) → snap'.row k = snap.row k := fun k hk hn => by
    rw [hrow k hk]
    exact writeAll_of_untouched fun p _ => placeTouch_eq_none.mpr fun e => hn ⟨e.1, e.2.2⟩
  refine ⟨snap', hsome, hcons h.consistent, fun k hk hcf hnul => ?_, fun k hk hn => ?_⟩
  · rcases List.mem_cons.mp hcf with rfl | hcf
    · rw [hrow k hk]
      cases hget : s.get? k.cf k.bytes with
      | none =>
        have hempty : s.row k = Rows.empty k := by
          rw [Store.row, hget]
          cases k <;> rfl
        rw [hempty, ← h.rest k hk fun e => hc e.1]
        refine writeAll_of_untouched fun p hp => placeTouch_eq_none.mpr ?_
        rintro ⟨-, hbytes, -⟩
        rw [hbytes, hps p hp] at hget
        cases hget
      | some x =>
        have hx : s.row k = k.decodeAt rfl x := by
          rw [Store.row, hget]
          rfl
        rw [hx]
        refine writeAll_of_agree ⟨(k.bytes, x), s.mem_scanPrefix.mpr ⟨hget, List.nil_prefix⟩,
          placeTouch_eq_some.mpr ⟨rfl, rfl, hnul, rfl⟩⟩ fun p hp y hy => ?_
        obtain ⟨-, hbytes, -, rfl⟩ := placeTouch_eq_some.mp hy
        have : p.2 = x := Option.some.inj ((hps p hp).symm.trans (hbytes ▸ hget))
        rw [this]
    · have hne : k.cf ≠ c := fun e => hc (e ▸ hcf)
      rw [hout k hk fun e => hne e.1, h.row k hk hcf hnul]
  · rw [hout k hk fun e => hn ⟨List.mem_cons.mpr (.inl e.1), e.2⟩]
    exact h.rest k hk fun e => hn ⟨List.mem_cons_of_mem c e.1, e.2⟩

/-! ### The six tables -/

/-- The keys loaded before the known contexts are read. -/
def RowKey.early : RowKey → Prop
  | .body .. => False
  | .exporter _ => False
  | .known _ => False
  | _ => True

theorem RowKey.early.indexed {k : RowKey} (h : k.early) : k.indexed := by
  cases k <;> simp_all [RowKey.early, RowKey.indexed]

/-- Loading a row is a write that touches the row's key and, among the keys in `dom`, no other. -/
theorem loads_of_write {k : RowKey} {w : Write} {v : RowVal k} {r : Option Snapshot}
    (hdom : ∀ k', dom k' → k'.indexed) (hr : r = some (snap.applyWrite w))
    (hself : w.touch k = some v) (hkeys : ∀ k', dom k' → k' ∈ w.keys → k' = k)
    (hhint : snap.HintOk w) : ∃ snap', r = some snap' ∧ Sets dom snap k v snap' :=
  ⟨_, hr, sets_applyWrite hself
    (fun k' hk' hne => Write.touch_eq_none fun hmem => hne (hkeys k' hk' hmem)) hdom hhint⟩

theorem loadsRows_versions : LoadsRows .versions Store.loadVersion RowKey.early where
  row k h x snap hk _ := by
    cases k with
    | version ctx subject v =>
      refine loads_of_write (fun _ => RowKey.early.indexed)
        (w := .putVersion ctx subject v x) ?_ (by simp [Write.touch, RowKey.decodeAt,
          RowKey.decode]) (fun k' hk' hmem => ?_) trivial
      · simp only [Store.loadVersion, RowKey.bytes, versionKey_eq, splitCtx_append hk.1,
          splitSubjectVersion_append hk.2, Option.bind_eq_bind, Option.bind_some]
        rfl
      · rcases List.mem_cons.mp hmem with rfl | hmem
        · rfl
        · obtain rfl := List.mem_singleton.mp hmem
          exact hk'.elim
    | _ => cases h
  logSeq h := nomatch h
  log := by simp

theorem loadsRows_fingerprints : LoadsRows .fingerprints Store.loadFingerprint RowKey.early where
  row k h x snap hk hx := by
    cases k with
    | fingerprint ctx fp =>
      obtain ⟨id, hid⟩ := Option.ne_none_iff_exists'.mp hx
      have hbe : beU32 x = some id := hid
      -- Only the fingerprint of the record matters to the index.
      refine loads_of_write (fun _ => RowKey.early.indexed)
        (w := .putSchema ctx id ⟨.avro, "", [], none, none, fp, "", ""⟩ true) ?_ (by
          rw [hid]; simp [Write.touch]) (fun k' hk' hmem => ?_) trivial
      · simp only [Store.loadFingerprint, RowKey.bytes, fpKey, splitCtx_append hk,
          Option.bind_eq_bind, Option.bind_some, hbe,
          fromUtf8Lossy_utf8]
        rfl
      · rcases List.mem_cons.mp hmem with rfl | hmem
        · exact hk'.elim
        · exact List.mem_singleton.mp hmem
    | _ => cases h
  logSeq h := nomatch h
  log := by simp

theorem loadsRows_refby : LoadsRows .refby Store.loadRefby RowKey.early where
  row k h x snap hk _ := by
    cases k with
    | refby ctx subject v id =>
      refine loads_of_write (fun _ => RowKey.early.indexed)
        (w := .putRefby ctx subject v id) ?_ (by simp [Write.touch, RowKey.decodeAt,
          RowKey.decode]) (fun k' _ => List.mem_singleton.mp) trivial
      have hid : beU32 (be32 id) = some id := by simp
      simp only [Store.loadRefby, RowKey.bytes, refbyKey_eq, splitCtx_append hk.1,
        splitSubjectVersion_append hk.2, Option.bind_eq_bind, Option.bind_some, hid]
      rfl
    | _ => cases h
  logSeq h := nomatch h
  log := by simp

theorem loadsRows_config : LoadsRows .config Store.loadConfig RowKey.early where
  row k h x snap hk _ := by
    cases k with
    | config scope =>
      refine loads_of_write (fun _ => RowKey.early.indexed)
        (w := .putConfig scope x) ?_ (by simp [Write.touch, RowKey.decodeAt,
          RowKey.decode]) (fun k' _ => List.mem_singleton.mp) trivial
      simp only [Store.loadConfig, RowKey.bytes, Scope.fromKey_key hk]
      rfl
    | _ => cases h
  logSeq h := nomatch h
  log := by simp

theorem loadsRows_mode : LoadsRows .mode Store.loadMode RowKey.early where
  row k h x snap hk _ := by
    cases k with
    | mode scope =>
      refine loads_of_write (fun _ => RowKey.early.indexed)
        (w := .putMode scope x) ?_ (by simp [Write.touch, RowKey.decodeAt,
          RowKey.decode]) (fun k' _ => List.mem_singleton.mp) trivial
      simp only [Store.loadMode, RowKey.bytes, Scope.fromKey_key hk]
      rfl
    | _ => cases h
  logSeq h := nomatch h
  log := by simp

theorem loadMeta_ctxKey (ctx : String) (x : Bytes) (snap : Snapshot) :
    Store.loadMeta snap (ctxKey ctx, x)
      = some { snap with knownContexts := snap.knownContexts.insert ctx } := by
  simp [Store.loadMeta, ctxKey, stripPrefix_append]

theorem loadMeta_nextIdKey (ctx : String) (x : Bytes) (snap : Snapshot) :
    Store.loadMeta snap (nextIdKey ctx, x)
      = (beU32 x).map fun next => snap.apply (.setNextId ctx next) := by
  simp [Store.loadMeta, nextIdKey, stripPrefix_append, stripPrefix_ctx_next]

theorem loadMeta_logSeqKey (x : Bytes) (snap : Snapshot) :
    Store.loadMeta snap (logSeqKey, x) = some snap := by
  have h1 : Store.stripPrefix "ctx/" (fromUtf8Lossy logSeqKey) = none := by decide
  have h2 : Store.stripPrefix "next_id/" (fromUtf8Lossy logSeqKey) = none := by decide
  simp [Store.loadMeta, h1, h2]

theorem loadsRows_meta : LoadsRows .«meta» Store.loadMeta RowKey.indexed where
  row k h x snap hk hx := by
    cases k with
    | known ctx =>
      refine ⟨_, loadMeta_ctxKey ctx x snap, fun k' hk' => ?_, id⟩
      rcases eq_or_ne k' (.known ctx) with rfl | hne
      · simp [Snapshot.row, RowKey.decodeAt, RowKey.decode]
      · rw [Function.update_of_ne hne]
        cases k' with
        | known ctx' =>
          have : ctx ≠ ctx' := fun e => hne (by rw [e])
          simp [Snapshot.row, ExtTreeSet.contains_insert, this]
        | _ => rfl
    | nextId ctx =>
      obtain ⟨next, hnext⟩ := Option.ne_none_iff_exists'.mp hx
      have hbe : beU32 x = some next := hnext
      refine loads_of_write (fun _ => id) (w := .setNextId ctx next) ?_ (by
          rw [hnext]; simp [Write.touch]) (fun k' _ => List.mem_singleton.mp) trivial
      rw [RowKey.bytes, loadMeta_nextIdKey, hbe]
      rfl
    | _ => cases h
  logSeq h x snap := loadMeta_logSeqKey x snap
  log := by simp

theorem RowKey.indexed.early_or_known {k : RowKey} (h : k.indexed) :
    k.early ∨ ∃ ctx, k = .known ctx := by
  cases k <;> simp_all [RowKey.early, RowKey.indexed]

theorem row_resetKnown {k : RowKey} (h : k.early) :
    Snapshot.row { snap with knownContexts := ∅ } k = snap.row k := by
  cases k with
  | known => exact h.elim
  | _ => rfl

/-- Reading the known contexts starts from none; the other rows stay. -/
theorem Holds.resetKnown {s : Store} {cs : List Cf} (h : Holds s RowKey.early cs snap)
    (hc : .«meta» ∉ cs) : Holds s RowKey.indexed cs { snap with knownContexts := ∅ } where
  consistent := h.consistent
  row k hk hcf hnul := by
    rcases hk.early_or_known with hk | ⟨ctx, rfl⟩
    · rw [row_resetKnown hk, h.row k hk hcf hnul]
    · exact (hc hcf).elim
  rest k hk hn := by
    rcases hk.early_or_known with hk | ⟨ctx, rfl⟩
    · rw [row_resetKnown hk, h.rest k hk hn]
    · simp [Snapshot.row, Rows.empty]

/-- The snapshot of a store: every row in a name without NUL is the store's, and there are
no others. -/
theorem loadSnapshot_spec {s : Store} (hs : s.WellKeyed) :
    ∃ snap, s.loadSnapshot = some snap ∧ snap.Consistent ∧ snap.logSeq = s.logSeq ∧
      (∀ k, k.indexed → k.NulFree → snap.row k = s.row k) ∧
      ∀ k, k.indexed → ¬ k.NulFree → snap.row k = Rows.empty k := by
  have h₀ : Holds s RowKey.early [] {} :=
    ⟨Snapshot.consistent_new, fun _ _ hcf => absurd hcf List.not_mem_nil,
      fun k _ _ => Snapshot.row_new k⟩
  obtain ⟨s₁, e₁, h₁⟩ := loadsRows_versions.load_table hs h₀ (by simp)
  obtain ⟨s₂, e₂, h₂⟩ := loadsRows_fingerprints.load_table hs h₁ (by simp)
  obtain ⟨s₃, e₃, h₃⟩ := loadsRows_refby.load_table hs h₂ (by simp)
  obtain ⟨s₄, e₄, h₄⟩ := loadsRows_config.load_table hs h₃ (by simp)
  obtain ⟨s₅, e₅, h₅⟩ := loadsRows_mode.load_table hs h₄ (by simp)
  obtain ⟨s₆, e₆, h₆⟩ := loadsRows_meta.load_table hs (h₅.resetKnown (by simp)) (by simp)
  refine ⟨{ s₆ with logSeq := s.logSeq }, ?_, h₆.consistent, rfl, fun k hk hnul => ?_,
    fun k hk hnul => ?_⟩
  · simp only [Store.loadSnapshot, e₁, e₂, e₃, e₄, e₅, e₆, Option.bind_eq_bind, Option.bind_some]
  · refine h₆.row k hk ?_ hnul
    cases k <;> simp_all [RowKey.indexed]
  · exact h₆.rest k hk fun e => hnul e.2

/-! ### The published snapshot and the store -/

/-- The published snapshot says what the store says. -/
structure Registry.Agrees (reg : Registry) : Prop where
  wellKeyed : reg.store.WellKeyed
  consistent : reg.snapshot.Consistent
  row : ∀ k, k.indexed → k.NulFree → reg.snapshot.row k = reg.store.row k
  row_nul : ∀ k, k.indexed → ¬ k.NulFree → reg.snapshot.row k = Rows.empty k
  logSeq : reg.snapshot.logSeq = reg.store.logSeq

namespace Registry

variable {reg : Registry}

theorem Agrees.sameAnswers (h : reg.Agrees) :
    ∃ snap, reg.store.loadSnapshot = some snap ∧ reg.snapshot.SameAnswers snap := by
  obtain ⟨snap, hload, hcons, hseq, hrow, hnul⟩ := loadSnapshot_spec h.wellKeyed
  refine ⟨snap, hload, Snapshot.sameAnswers_of_rows h.consistent hcons (fun k hk => ?_)
    (h.logSeq.trans hseq.symm)⟩
  by_cases hk' : k.NulFree
  · rw [h.row k hk hk', hrow k hk hk']
  · rw [h.row_nul k hk hk', hnul k hk hk']

theorem agrees_empty (tenant : TenantId) : (Registry.empty tenant).Agrees where
  wellKeyed c k x hx := by simp [empty, Store.get?] at hx
  consistent := Snapshot.consistent_new
  row k _ _ := by
    refine (Snapshot.row_new k).trans ?_
    cases k <;> simp [empty, Store.row, Store.get?, RowKey.decode, Rows.empty]
  row_nul k _ _ := Snapshot.row_new k
  logSeq := by simp [empty, Store.logSeq, Store.get?]

variable {α : Type} {plan : Plan α}

theorem store_apply (reg : Registry) (plan : Plan α) :
    (reg.apply plan).store = reg.store.afterPlan plan := by
  rw [Registry.apply, Store.commit_planTx]

/-- The published snapshot after a plan: its writes' operations and the sequence number. -/
theorem snapshot_apply (reg : Registry) (plan : Plan α) :
    (reg.apply plan).snapshot = { reg.snapshot.applyWrites plan.writes with
      logSeq := if plan.events.isEmpty then reg.snapshot.logSeq
        else nextSeq reg.store.logSeq plan.events } := by
  rw [Registry.apply, Store.commit_planTx, Store.planOps, Snapshot.applyWrites_eq]
  have hseq := Snapshot.logSeq_applyWrites reg.snapshot plan.writes
  rw [Snapshot.applyWrites_eq] at hseq
  cases plan.events.isEmpty with
  | true => simp [← hseq]
  | false =>
    simp only [Bool.false_eq_true, if_false]
    rw [Snapshot.applyAll, List.foldl_append]
    rfl

theorem row_snapshot_apply (reg : Registry) (plan : Plan α) {k : RowKey} (hk : k.indexed) :
    (reg.apply plan).snapshot.row k = reg.snapshot.row.after plan.writes k := by
  rw [snapshot_apply, ← Snapshot.row_applyWrites _ _ hk]
  cases k <;> rfl

/-- A plan keeps the snapshot in step with the store. -/
theorem Agrees.apply (h : reg.Agrees) (hnul : ∀ w ∈ plan.writes, w.NulFree)
    (hhint : Along Snapshot.applyWrite Snapshot.HintOk reg.snapshot plan.writes) :
    (reg.apply plan).Agrees where
  wellKeyed := by
    rw [store_apply]
    exact h.wellKeyed.afterPlan hnul
  consistent := by
    rw [snapshot_apply]
    exact h.consistent.applyWrites hhint
  row k hk hk' := by
    rw [row_snapshot_apply reg plan hk, store_apply, Store.row_afterPlan _ fun _ => ⟨hnul, hk'⟩]
    exact writeAll_congr (h.row k hk hk')
  row_nul k hk hk' := by
    rw [row_snapshot_apply reg plan hk, ← h.row_nul k hk hk']
    exact writeAll_of_untouched fun w hw => Write.touch_eq_none fun hmem =>
      hk' (Write.nulFree_of_mem_keys (hnul w hw) hmem)
  logSeq := by
    rw [snapshot_apply, store_apply, Store.logSeq_afterPlan]
    cases hev : plan.events with
    | nil => simp [nextSeq, h.logSeq]
    | cons ev evs => simp

end Registry

end SchemaRegistry

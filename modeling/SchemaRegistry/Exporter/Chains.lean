import SchemaRegistry.Exporter.Order
import SchemaRegistry.Backup.Importing

/-!
Long chains of references. In IMPORT mode a chain of any length up to the registry's limit can
be registered, link by link. The exporter follows 32 of its references down from where a batch
starts.
-/

namespace SchemaRegistry.Exporter

open Lib Relation

/-! ### A registration in IMPORT mode -/

section Import

variable {srv : Server} {reg : Registry} {m : RegisterSchema} {raw : String}
  {body : RegisterSchemaRequest} {c : Canon srv.fmt.Inner}

/-- A registration with a number and an id that are free is stored as it was sent. -/
theorem step_import (now : Int) (guid : String)
    (hm : RegisterSchema.new raw body false = .ok m) (hs : reg.Sound srv.fmt)
    (hmode : modeFor reg.reader (.subject m.subject) = .«import»)
    (hnormalize : normalizeInScope srv reg.reader m.subject = false)
    (hc : canonicalize srv reg.reader m.subject m.draft false false = .ok (some c))
    (hversion : 0 < m.draft.version) (hid : 0 ≤ m.draft.id)
    (hnew : ¬ Backup.IsLive reg m.subject m.draft.version.toUInt32)
    (hbody : reg.reader.getSchema m.subject.context m.draft.id.toUInt32 = none) :
    ∃ plan, m.plan srv (reg.view now guid) = .ok plan
      ∧ reg.step srv ⟨.register raw body false, now, guid⟩ = reg.apply plan
      ∧ plan.writes = (RegisterSchema.replaced reg.reader m.subject m.draft.version.toUInt32
          m.draft.id.toUInt32).1 ++ RegisterSchema.added srv (reg.view now guid) m.subject
          m.draft.version.toUInt32 m.draft.id.toUInt32 c := by
  have hasked : m.normalize srv (reg.view now guid) = false := by
    rw [RegisterSchema.new] at hm
    split at hm
    · cases hm
      exact hnormalize
    · cases hm
  have hnot : decide (m.draft.id < 0) = false := decide_eq_false (Int32.not_lt.mpr hid)
  obtain ⟨plan, hplan, hwrites⟩ := @Backup.plan_import srv (reg.view now guid) m c hmode
    (by rw [hnot, hasked]; exact hc) hversion hid (by rw [Registry.view_reader, hbody]; simp)
  refine ⟨plan, hplan, ?_, hwrites⟩
  have hfast : (m.mutation srv).fastPath (reg.view now guid) = .ok none := by
    obtain ⟨fast, hfast, hlive⟩ := Backup.fastPath_ends hs hc hversion
    change registerFastPath srv reg.reader m.subject m.draft (m.normalize srv _) = .ok none
    rw [hasked, hfast]
    cases fast with
    | none => rfl
    | some out => exact absurd (hlive rfl) hnew
  have hgate : modegateCheck (m.mutation srv).intent (modeFor reg.reader (m.mutation srv).target)
      (m.mutation srv).target.scopeName = .ok () := by
    have hintent : (m.mutation srv).intent = .«import» := if_pos hid
    rw [hintent]
    change modegateCheck .«import» (modeFor reg.reader (.subject m.subject)) _ = .ok ()
    rw [hmode]
    rfl
  have hrun : (Verb.register raw body false).run srv reg now guid
      = .ok (plan.output, reg.apply plan) := by
    have hmutation : (Verb.register raw body false).mutation srv = .ok (m.mutation srv) := by
      rw [Verb.mutation, hm]
      rfl
    rw [run_of_gate hmutation hfast hgate]
    change m.plan srv (reg.view now guid) >>= _ = _
    rw [hplan]
    rfl
  rw [Registry.step, hrun]

end Import

/-! ### A chain of registrations -/

def linkName (i : Nat) : String := String.ofList (List.replicate (i + 1) 's')

/-- The version of a link. -/
def link (i : Nat) : VersionKey := (".", linkName i, 1)

/-- Each link references the one before it. -/
def linkReferences : Nat → List SchemaReference
  | 0 => []
  | i + 1 => [⟨linkName i, linkName i, 1⟩]

def linkBody (i : Nat) : RegisterSchemaRequest where
  schema := some "\x7b\x7d"
  schemaType := some "JSON"
  references := some ((linkReferences i).map RefIn.ofReference)
  version := some 1
  id := some (UInt32.ofNat (i + 1)).toInt32

/-- In IMPORT mode, the links of a chain one after another. -/
def chainHistory (n : Nat) : List Request :=
  plainRequest (.setMode none .«import» true)
    :: (List.range n).map fun i => plainRequest (.register (linkName i) (linkBody i) false)

theorem linkName_inj {i j : Nat} (h : linkName i = linkName j) : i = j := by
  have hlength := congrArg (fun s => s.toList.length) h
  simpa [linkName] using hlength

theorem linkName_ne_empty (i : Nat) : linkName i ≠ "" := by
  intro h
  have hlist := congrArg String.toList h
  simp [linkName, List.replicate_succ] at hlist

theorem parse_linkName (i : Nat) : QualifiedSubject.parse (linkName i) = ⟨".", linkName i⟩ := by
  refine parse_of_plainSubject ⟨?_, ?_⟩ <;>
    simp [linkName, List.replicate_succ]

theorem isValidSubject_linkName (i : Nat) : isValidSubject (linkName i) = true := by
  have hreserved : ∀ reserved : String, reserved.toList.head? = some '_' →
      (linkName i != reserved) = true := by
    rintro reserved hhead
    refine bne_iff_ne.mpr fun h => ?_
    rw [← h] at hhead
    simp [linkName, List.replicate_succ] at hhead
  rw [isValidSubject, parse_linkName, hreserved "__GLOBAL" rfl, hreserved "__EMPTY" rfl]
  simp only [linkName, String.toList_ofList, Bool.and_true, Bool.not_eq_eq_eq_not, Bool.not_true,
    List.any_eq_false]
  intro c hc
  rw [List.eq_of_mem_replicate hc]
  decide

theorem refKey_linkReferences {i : Nat} {sr : SchemaReference} (h : sr ∈ linkReferences (i + 1)) :
    sr.name = linkName i ∧ refKey "." sr = link i := by
  obtain rfl := List.mem_singleton.mp h
  refine ⟨rfl, ?_⟩
  have htarget : refTarget "." ⟨linkName i, linkName i, 1⟩ = ⟨".", linkName i⟩ := by
    rw [refTarget, parse_linkName]
    simp
  rw [refKey, htarget]
  rfl

/-- The chain up to a link is stored, and nothing else. -/
structure Chain (n : Nat) (reg : Registry) : Prop where
  sound : reg.Sound plainFormats
  settings : reg.settings = Settings.empty.setMode .global (some .«import»)
  row : ∀ i, reg.rows (.version "." (linkName i) 1)
    = if i < n then some ⟨UInt32.ofNat (i + 1), false, 0⟩ else none
  body : ∀ i < n, ∃ rec, reg.rows (.body "." (UInt32.ofNat (i + 1))) = some rec
    ∧ rec.references = linkReferences i
  fresh : ∀ i < 2 ^ 31, n ≤ i → reg.rows (.body "." (UInt32.ofNat (i + 1))) = none

section Chain

variable {n i : Nat} {reg : Registry}

theorem Chain.recordAt (h : Chain n reg) (hi : i < n) :
    ∃ rec, reg.reader.recordAt (link i) = some rec ∧ rec.references = linkReferences i := by
  obtain ⟨rec, hrec, hrefs⟩ := h.body i hi
  have hrow := (h.row i).trans (if_pos hi)
  exact ⟨rec, Option.bind_eq_some_iff.mpr ⟨_, hrow, hrec⟩, hrefs⟩

theorem Chain.edges_zero (h : Chain n reg) (hn : 0 < n) : reg.reader.edges (link 0) = [] := by
  obtain ⟨rec, hrec, hrefs⟩ := h.recordAt hn
  rw [edges_of_recordAt hrec, hrefs]
  rfl

theorem Chain.edges_succ (h : Chain n reg) (hi : i + 1 < n) :
    reg.reader.edges (link (i + 1)) = [(linkName i, link i)] := by
  obtain ⟨rec, hrec, hrefs⟩ := h.recordAt hi
  have hmem : (⟨linkName i, linkName i, 1⟩ : SchemaReference) ∈ linkReferences (i + 1) :=
    List.mem_singleton_self _
  have hkey := (refKey_linkReferences hmem).2
  rw [edges_of_recordAt hrec, hrefs]
  exact congrArg (fun k => [(linkName i, k)]) hkey

theorem Chain.within (h : Chain n reg) (hi : i < n) {levels : Nat} (hlevels : i < levels) :
    reg.reader.Within levels (link i) := by
  obtain ⟨levels, rfl⟩ :=
    Nat.exists_eq_add_one_of_ne_zero (Nat.ne_of_gt (Nat.zero_lt_of_lt hlevels))
  induction i generalizing levels with
  | zero =>
    obtain ⟨rec, hrec, -⟩ := h.recordAt hi
    exact Reader.within_leaf (Option.isSome_iff_exists.mpr ⟨rec, hrec⟩) (h.edges_zero hi) levels
  | succ i ih =>
    obtain ⟨rec, hrec, -⟩ := h.recordAt hi
    refine .inr ⟨Option.isSome_iff_exists.mpr ⟨rec, hrec⟩, ?_⟩
    rintro b ⟨name, hb⟩
    rw [h.edges_succ hi, List.mem_singleton] at hb
    cases hb
    obtain ⟨levels, rfl⟩ := Nat.exists_eq_add_one_of_ne_zero (n := levels) (by omega)
    exact ih (by omega) levels (by omega)

theorem Chain.modeFor (h : Chain n reg) (i : Nat) :
    modeFor reg.reader (.subject ⟨".", linkName i⟩) = .«import» := by
  have hscope := scopeFor_of_ne (q := ⟨".", linkName i⟩) (linkName_ne_empty i)
  simp only [SchemaRegistry.modeFor, modeInScope, globalModeIn, hscope, Registry.getMode_reader,
    h.settings, Settings.mode_setMode_self]
  rw [Settings.mode_setMode_of_ne (by simp)]
  rfl

theorem Chain.normalizeInScope (h : Chain n reg) (i : Nat) :
    normalizeInScope plainServer reg.reader ⟨".", linkName i⟩ = false := by
  have hscope := scopeFor_of_ne (q := ⟨".", linkName i⟩) (linkName_ne_empty i)
  simp only [SchemaRegistry.normalizeInScope, configInScope, hscope, Registry.getConfig_reader,
    h.settings, Settings.config_setMode]
  rfl

theorem Chain.selects (h : Chain n reg) (hi : i < n) :
    Selects reg.reader "." (refersTo (linkName i) (linkName i))
      (refersToFound (linkName i) (linkName i)) := by
  refine selects_refersTo ?_ ?_
  · rw [refTarget, parse_linkName]
    simp
  · have hrow : reg.reader.getVersion "." (linkName i) 1
        = some ⟨UInt32.ofNat (i + 1), false, 0⟩ := (h.row i).trans (if_pos hi)
    rw [Backup.getExact_of_row (q := ⟨".", linkName i⟩) hrow (.inl rfl)]
    rfl

/-- The next link is accepted as it is, as long as the chain is not too deep. -/
theorem Chain.canonicalize (h : Chain n reg) (hn : n ≤ maxLevels) :
    ∃ c, canonicalize plainServer reg.reader ⟨".", linkName n⟩ (.ofRequest (linkBody n)) false false
      = .ok (some c) ∧ c.refs = linkReferences n := by
  have hfound : ∃ found, List.Forall₂ (Selects reg.reader ".")
      ((linkReferences n).map RefIn.ofReference) found
      ∧ (∀ f ∈ found, reg.reader.Within maxLevels f.edge.2)
      ∧ found.map (·.concrete) = linkReferences n := by
    cases n with
    | zero => exact ⟨[], .nil, by simp, rfl⟩
    | succ i =>
      refine ⟨[refersToFound (linkName i) (linkName i)], .cons (h.selects i.lt_succ_self) .nil,
        ?_, rfl⟩
      intro f hf
      rw [List.mem_singleton.mp hf]
      exact h.within i.lt_succ_self hn
  obtain ⟨found, hselects, hwithin, hrefs⟩ := hfound
  obtain ⟨acc, es, hresolved, -⟩ := resolveReferences_gathers hselects hwithin
  have hschema : ((Draft.ofRequest (linkBody n)).schema.filter fun s => !isBlank s)
      = some "\x7b\x7d" := by
    change (some "\x7b\x7d").filter (fun s => !isBlank s) = some "\x7b\x7d"
    decide
  have hdraft : (Draft.ofRequest (linkBody n)).refs
      = (linkReferences n).map RefIn.ofReference := rfl
  rw [SchemaRegistry.canonicalize, hschema]
  dsimp only
  rw [hdraft, hresolved]
  exact ⟨_, rfl, hrefs⟩

theorem toNat_ofNat_link (hi : i < 2 ^ 31) : (UInt32.ofNat (i + 1)).toNat = i + 1 :=
  UInt32.toNat_ofNat_of_lt' (Nat.lt_of_le_of_lt hi (by decide))

theorem ofNat_link_inj {j : Nat} (hi : i < 2 ^ 31) (hj : j < 2 ^ 31)
    (h : UInt32.ofNat (i + 1) = UInt32.ofNat (j + 1)) : i = j := by
  have hnat := congrArg UInt32.toNat h
  rw [toNat_ofNat_link hi, toNat_ofNat_link hj] at hnat
  omega

/-- The links after the next one is stored. -/
theorem row_register_link {id : UInt32} {c : Canon plainServer.fmt.Inner} (j : Nat) :
    reg.rows.after ((RegisterSchema.replaced reg.reader ⟨".", linkName n⟩ 1 id).1
      ++ RegisterSchema.added plainServer (reg.view 0 "guid") ⟨".", linkName n⟩ 1 id c)
      (.version "." (linkName j) 1)
    = if j = n then some ⟨id, false, 0⟩ else reg.rows (.version "." (linkName j) 1) := by
  rcases version_register plainServer (reg.view 0 "guid") ⟨".", linkName n⟩ 1 id c reg.rows "."
    (linkName j) 1 with ⟨⟨hq, -⟩, hown⟩ | ⟨hne, ⟨⟨-, vr, -, -, -, hlt⟩, -⟩ | ⟨-, hold⟩⟩
  · rw [if_pos (linkName_inj (QualifiedSubject.mk.inj hq).2).symm]
    exact hown
  · exact absurd hlt (by decide)
  · rw [if_neg fun hj => hne ⟨by rw [hj], rfl⟩]
    exact hold

theorem Chain.body_register (h : Chain n reg) {id : UInt32} {c : Canon plainServer.fmt.Inner}
    (i : UInt32) :
    reg.rows.after ((RegisterSchema.replaced reg.reader ⟨".", linkName n⟩ 1 id).1
      ++ RegisterSchema.added plainServer (reg.view 0 "guid") ⟨".", linkName n⟩ 1 id c)
      (.body "." i)
    = if i = id then some (RegisterSchema.bodyFor plainServer (reg.view 0 "guid") "." id c)
      else reg.rows (.body "." i) := by
  rcases SchemaRegistry.body_register plainServer (reg.view 0 "guid") ⟨".", linkName n⟩ 1 id c
    reg.rows "." i with ⟨⟨-, hi⟩, hown⟩ | ⟨hne, ⟨⟨vr, hmem, -⟩, -⟩ | ⟨-, hold⟩⟩
  · rw [if_pos hi]
    exact hown
  · -- There is no version under the number yet.
    have hrow := Registry.mem_listVersions.mp hmem
    cases hrow.symm.trans ((h.row n).trans (if_neg (Nat.lt_irrefl n)))
  · rw [if_neg fun hi => hne ⟨rfl, hi⟩]
    exact hold

/-- The registration of the next link. -/
theorem Chain.step (h : Chain n reg) (hn : n ≤ maxLevels) :
    Chain (n + 1)
      (reg.step plainServer (plainRequest (.register (linkName n) (linkBody n) false))) := by
  have hsmall : n < 2 ^ 31 := Nat.lt_of_le_of_lt hn (by decide)
  have hnew : RegisterSchema.new (linkName n) (linkBody n) false
      = .ok ⟨⟨".", linkName n⟩, .ofRequest (linkBody n), false⟩ := by
    rw [RegisterSchema.new, if_pos (isValidSubject_linkName n), parse_linkName]
  have hid : 0 ≤ (Draft.ofRequest (linkBody n)).id := by
    refine toInt32_nonneg ?_
    rw [toNat_ofNat_link hsmall]
    exact Nat.lt_of_le_of_lt (Nat.succ_le_succ hn) (by decide)
  have hid32 : (Draft.ofRequest (linkBody n)).id.toUInt32 = UInt32.ofNat (n + 1) :=
    UInt32.toUInt32_toInt32 _
  have hgone : ¬ Backup.IsLive reg ⟨".", linkName n⟩ 1 := by
    rintro ⟨vr, hrow, -⟩
    cases hrow.symm.trans ((h.row n).trans (if_neg (Nat.lt_irrefl n)))
  obtain ⟨c, hc, hrefs⟩ := h.canonicalize hn
  have hversion : (0 : Int32) < 1 := by decide
  obtain ⟨plan, hplan, hstep, hwrites⟩ := step_import 0 "guid" hnew h.sound (h.modeFor n)
    (h.normalizeInScope n) hc hversion hid hgone
    (by rw [hid32]; exact h.fresh n hsmall (Nat.le_refl n))
  have hrows := Registry.rows_apply reg plan
  have hone : (Draft.ofRequest (linkBody n)).version.toUInt32 = 1 := rfl
  dsimp only at hwrites
  rw [hwrites, hid32, hone] at hrows
  rw [plainRequest, hstep]
  refine ⟨h.sound.apply (effect_register hnew hplan), ?_, ?_, ?_, ?_⟩
  · rw [settings_of_spares (Registry.rows_apply reg plan) (sparesSettings_register hplan),
      h.settings]
  · intro j
    rw [hrows, row_register_link, h.row]
    by_cases hj : j = n
    · rw [if_pos hj, if_pos (by omega), hj]
    · rw [if_neg hj]
      exact if_congr (by omega) rfl rfl
  · intro j hj
    rw [hrows, h.body_register]
    rcases Nat.lt_succ_iff_lt_or_eq.mp hj with hj | rfl
    · have hne : j ≠ n := Nat.ne_of_lt hj
      rw [if_neg fun heq => hne (ofNat_link_inj (Nat.lt_trans hj hsmall) hsmall heq)]
      exact h.body j hj
    · rw [if_pos rfl]
      refine ⟨_, rfl, ?_⟩
      rw [RegisterSchema.bodyFor, Registry.view_reader]
      have hfree : reg.reader.getSchema "." (UInt32.ofNat (j + 1)) = none :=
        h.fresh j hsmall (Nat.le_refl j)
      rw [hfree]
      exact hrefs
  · intro j hj hlt
    have hne : n ≠ j := Nat.ne_of_lt hlt
    rw [hrows, h.body_register, if_neg fun heq => hne (ofNat_link_inj hj hsmall heq).symm]
    exact h.fresh j hj (Nat.le_of_lt hlt)

/-- IMPORT mode in a container that holds nothing. -/
theorem chain_zero : Chain 0
    ((Registry.empty .default).step plainServer (plainRequest (.setMode none .«import» true))) := by
  have hsound : ((Registry.empty .default).step plainServer
      (plainRequest (.setMode none .«import» true))).Sound plainServer.fmt :=
    (Registry.sound_empty plainServer.fmt .default).step
  have hrun := @run_setMode_force plainServer (Registry.empty .default) 0 "guid" none .«import»
  rw [plainRequest, step_of_run hrun] at hsound ⊢
  have hrows := Registry.rows_apply (Registry.empty .default)
    { writes := [.putMode (scopeNamed none) .«import»], output := () : Plan Unit }
  rw [Registry.rows_empty] at hrows
  refine ⟨hsound, ?_, ?_, by simp, ?_⟩
  · rw [settings_apply_putMode, Registry.settings_empty]
    rfl
  · intro i
    rw [hrows]
    rfl
  · intro i _ _
    rw [hrows]
    rfl

/-- Every chain within the registry's limit can be registered. -/
theorem chain_chainHistory (hn : n ≤ maxLevels + 1) : Chain n (plainRun (chainHistory n)) := by
  induction n with
  | zero => exact chain_zero
  | succ n ih =>
    have hlast : chainHistory (n + 1) = chainHistory n
        ++ [plainRequest (.register (linkName n) (linkBody n) false)] := by
      simp [chainHistory, List.range_succ]
    rw [hlast, plainRun, Registry.runAll, List.foldl_append]
    exact (ih (Nat.le_of_succ_le hn)).step (Nat.le_of_succ_le_succ hn)

/-! ### Its export -/

variable {info : ExporterInfo} {clusterId : String}

theorem Chain.sendable (h : Chain n reg) (hi : i < n) : Sendable reg.reader (link i) := by
  obtain ⟨rec, hrec, hrefs⟩ := h.recordAt hi
  refine ⟨rec, hrec, ?_⟩
  intro sr hsr
  rw [hrefs] at hsr
  cases i with
  | zero => cases hsr
  | succ i =>
    rw [List.mem_singleton.mp hsr]
    refine .inr fun hcolon => ?_
    simp [linkName, List.replicate_succ] at hcolon

theorem link_inj {j : Nat} (h : link i = link j) : i = j :=
  linkName_inj (congrArg (fun a => a.2.1) h)

/-- The links after one, oldest first. -/
def linksAfter (i count : Nat) : List VersionKey := (List.range count).map fun j => link (i + 1 + j)

/-- From a link with more before it than the depth, only the links within the depth are posted. -/
theorem Chain.posts (h : Chain n reg) {depth : Nat} (hi : i + depth < n) {s : Sending}
    (hrunning : s.stopped = false) (hnew : ∀ j ≤ i + depth, link j ∉ s.exported) :
    (exportBatch info clusterId reg.reader depth s [link (i + depth)]).posts.map some
        = s.posts.map some ++ (linksAfter i depth).map (postAt info clusterId reg.reader)
      ∧ (exportBatch info clusterId reg.reader depth s [link (i + depth)]).stopped = false := by
  induction depth generalizing s with
  | zero =>
    rw [exportBatch_cons hrunning]
    exact ⟨by simp [exportVersion, linksAfter], hrunning⟩
  | succ depth ih =>
    obtain ⟨p, hp, hexport⟩ := @exportVersion_of_sendable info clusterId reg.reader s depth
      (link (i + (depth + 1))) (hnew _ (Nat.le_refl _)) (h.sendable hi)
    have hbelow : ∀ j ≤ i + depth, link j ∉ link (i + (depth + 1)) :: s.exported := by
      intro j hj hmem
      rcases List.mem_cons.mp hmem with heq | hmem
      · have hsame := link_inj heq
        omega
      · exact hnew j (by omega) hmem
    obtain ⟨hposts, hstopped⟩ := @ih (by omega)
      { s with exported := link (i + (depth + 1)) :: s.exported } hrunning hbelow
    have hedges : (reg.reader.edges (link (i + (depth + 1)))).map Prod.snd = [link (i + depth)] :=
      congrArg (List.map Prod.snd) (h.edges_succ hi)
    rw [exportBatch_cons hrunning, hexport, hedges]
    simp only [hstopped, Bool.false_eq_true, if_false]
    refine ⟨?_, rfl⟩
    have hlinks : linksAfter i (depth + 1) = linksAfter i depth ++ [link (i + (depth + 1))] := by
      simp [linksAfter, List.range_succ, Nat.add_comm, Nat.add_left_comm]
    simp [hposts, hlinks, hp]

/-- What is posted for a version has as many references as the version. -/
theorem length_references_postAt (info : ExporterInfo) (clusterId : String) (r : Reader)
    (a : VersionKey) :
    (postAt info clusterId r a).map (·.references.length)
      = (r.recordAt a).map (·.references.length) := by
  rw [postAt, Reader.recordAt, Option.map_bind, Option.map_bind]
  congr 1
  funext vr
  rw [Function.comp_apply, Option.map_map, Function.comp_apply]
  congr 1
  funext rec
  simp [postOf]

theorem exists_leads {r : Reader} {a : VersionKey}
    (h : (r.recordAt a).map (·.references.length) = some 1) : ∃ b, r.Leads a b := by
  obtain ⟨rec, hrec, hlength⟩ := Option.map_eq_some_iff.mp h
  obtain ⟨sr, hsr⟩ := List.length_eq_one_iff.mp hlength
  refine ⟨refKey a.1 sr, sr.name, ?_⟩
  rw [edges_of_recordAt hrec, hsr]
  exact List.mem_singleton_self _

/-- The registry takes a chain of 34, and a batch that begins at its end posts the second link
though nothing posts the first. -/
theorem deep_chain_posted_early :
    ∃ reg, reg = plainRun (chainHistory 34)
      ∧ reg.reader.Within maxLevels (link 33) ∧ ∀ info clusterId, ¬ ∃ sent,
        (exportBatch info clusterId reg.reader exportDepth {} [link 33]).posts.map some
          = sent.map (postAt info clusterId reg.reader)
        ∧ ∀ before a after, sent = before ++ a :: after → ∀ b, TransGen reg.reader.Leads a b →
          b ∈ before := by
  have h := chain_chainHistory (n := 34) (by decide)
  refine ⟨_, rfl, h.within (by decide) (by decide), ?_⟩
  rintro info clusterId ⟨sent, hposts, horder⟩
  generalize plainRun (chainHistory 34) = reg at h hposts horder
  obtain ⟨hlinks, -⟩ := @Chain.posts 34 0 reg info clusterId h exportDepth (by decide) {} rfl
    (by simp)
  have hsent : sent.map (postAt info clusterId reg.reader)
      = (link 1 :: linksAfter 1 32).map (postAt info clusterId reg.reader) :=
    hposts.symm.trans hlinks
  -- The first post has a reference, and nothing was posted before it.
  cases sent with
  | nil => cases hsent
  | cons a sent =>
    obtain ⟨rec, hrec, hrefs⟩ := h.recordAt (i := 1) (by decide)
    have hfirst : (reg.reader.recordAt a).map (·.references.length) = some 1 := by
      rw [← length_references_postAt info clusterId,
        (List.cons.inj hsent).1, length_references_postAt, hrec, Option.map_some, hrefs]
      rfl
    obtain ⟨b, hb⟩ := exists_leads hfirst
    cases horder [] a sent rfl b (.single hb)

/-- Link by link, a chain of any length is within the depth. -/
theorem Chain.batchWithin (h : Chain n reg) {k count : Nat} {earlier : List VersionKey}
    (hcount : k + count ≤ n) (hearlier : ∀ j, j + 1 = k → link j ∈ earlier) :
    BatchWithin reg.reader earlier ((List.range' k count).map link) := by
  induction count generalizing k earlier with
  | zero => trivial
  | succ count ih =>
    rw [List.range'_succ, List.map_cons]
    refine ⟨.inr ⟨h.sendable (by omega), ?_⟩, ih (by omega) ?_⟩
    · rintro b ⟨name, hb⟩
      cases k with
      | zero =>
        rw [h.edges_zero (by omega)] at hb
        cases hb
      | succ k =>
        rw [h.edges_succ (by omega), List.mem_singleton] at hb
        cases hb
        exact .inl ⟨link k, hearlier k rfl, .refl⟩
    · intro j hj
      cases hj
      exact List.mem_cons_self

/-- A chain of 64 that is sent from its first link on. -/
theorem dependencies_posted_first_chain :
    ∃ reg, reg = plainRun (chainHistory 64)
      ∧ ∀ info clusterId, ∃ sent,
        (exportBatch info clusterId reg.reader exportDepth {}
          ((List.range' 0 64).map link)).posts.map some = sent.map
            (postAt info clusterId reg.reader)
        ∧ ∀ before a after, sent = before ++ a :: after → ∀ b, TransGen reg.reader.Leads a b →
          b ∈ before := by
  refine ⟨_, rfl, fun info clusterId => ?_⟩
  have h := chain_chainHistory (n := 64) (by decide)
  obtain ⟨sent, hposts, -, -, horder⟩ := dependencies_posted_first info clusterId _
    ((List.range' 0 64).map link) (h.batchWithin (by decide) (by simp))
  exact ⟨sent, hposts, horder⟩

end Chain

end SchemaRegistry.Exporter

import SchemaRegistry.Lib.Lists
import SchemaRegistry.ContextNames
import SchemaRegistry.Registry.Listings
import SchemaRegistry.Lib.Upsert

/-!
Names as they are printed and read back. A name in another context is printed with that context
and always reads back; a name in the default context is printed bare, and reads back unless it
starts like a qualified one. Such a name can be registered, by writing the default context in
front of it. Where nobody does, no two subjects are printed alike and the listing of what uses an
id finds the row of every name it prints.
-/

namespace SchemaRegistry

open Lib

variable {srv : Server} {reg : Registry}

/-! ### Reading back -/

/-- A subject of the default context that is not taken for a qualified name. -/
def PlainSubject (cs : List Char) : Prop := ¬ [':', '.'] <+: cs ∧ ¬ [':', '*', ':'] <+: cs

instance (cs : List Char) : Decidable (PlainSubject cs) := inferInstanceAs (Decidable (_ ∧ _))

/-- A raw name that does not write the default context in front of a qualified name. -/
def PlainRaw (raw : String) : Prop :=
  ¬ [':', '.', ':', ':', '.'] <+: raw.toList ∧ ¬ [':', '.', ':', ':', '*', ':'] <+: raw.toList

instance (raw : String) : Decidable (PlainRaw raw) := inferInstanceAs (Decidable (_ ∧ _))

/-- The shapes of a raw name, and what each is read as. -/
inductive Reads (raw : String) : QualifiedSubject → Prop
  | within {before after : List Char} (hbefore : ':' ∉ before)
      (hraw : raw.toList = ':' :: '.' :: (before ++ ':' :: after)) :
      Reads raw ⟨String.ofList ('.' :: before), String.ofList after⟩
  | contextOnly {rest : List Char} (hrest : ':' ∉ rest) (hraw : raw.toList = ':' :: '.' :: rest) :
      Reads raw ⟨String.ofList ('.' :: rest), ""⟩
  | wildcard {rest : List Char} (hraw : raw.toList = ':' :: '*' :: ':' :: rest) :
      Reads raw ⟨wildcardContext, String.ofList rest⟩
  | bare (hraw : PlainSubject raw.toList) : Reads raw ⟨defaultContext, raw⟩

theorem reads_parse (raw : String) : Reads raw (QualifiedSubject.parse raw) := by
  unfold QualifiedSubject.parse
  split
  · next rest hraw =>
      by_cases hcolon : ':' ∈ rest
      · obtain ⟨before, after, rfl, hbefore⟩ := List.eq_append_cons_of_mem hcolon
        rw [splitOnce_append hbefore]
        simp only [normalizeParsed_dot]
        exact .within hbefore hraw
      · rw [splitOnce_eq_none hcolon]
        simp only [normalizeParsed_dot]
        exact .contextOnly hcolon hraw
  · next rest hraw => exact .wildcard hraw
  · next hdot hstar =>
      refine .bare ⟨?_, ?_⟩
      · rintro ⟨rest, hrest⟩
        exact hdot rest hrest.symm
      · rintro ⟨rest, hrest⟩
        exact hstar rest hrest.symm

theorem parse_of_plainSubject {raw : String} (h : PlainSubject raw.toList) :
    QualifiedSubject.parse raw = ⟨defaultContext, raw⟩ := by
  unfold QualifiedSubject.parse
  split
  · next hraw => exact absurd (by simp [hraw]) h.1
  · next hraw => exact absurd (by simp [hraw]) h.2
  · rfl

/-- A bare name reads back exactly when it does not start like a qualified one. -/
theorem parse_eq_default_iff {raw : String} :
    QualifiedSubject.parse raw = ⟨defaultContext, raw⟩ ↔ PlainSubject raw.toList := by
  refine ⟨fun h => ?_, parse_of_plainSubject⟩
  have hreads := reads_parse raw
  rw [h] at hreads
  generalize hq : (⟨defaultContext, raw⟩ : QualifiedSubject) = q at hreads
  cases hreads with
  | @within before after _ hraw =>
    -- The subject of a qualified name is shorter than the name.
    rw [(QualifiedSubject.mk.inj hq).2, String.toList_ofList] at hraw
    have hlength := congrArg List.length hraw
    simp only [List.length_cons, List.length_append] at hlength
    omega
  | contextOnly _ hraw =>
    rw [(QualifiedSubject.mk.inj hq).2] at hraw
    cases hraw
  | wildcard _ => exact absurd (QualifiedSubject.mk.inj hq).1 (by decide)
  | bare hraw => exact hraw

/-- What follows `:.` decides whether a name is plain. -/
theorem plainRaw_dot {raw : String} {rest : List Char} (h : raw.toList = ':' :: '.' :: rest) :
    PlainRaw raw ↔ ∀ after, rest = ':' :: after → PlainSubject after := by
  unfold PlainRaw PlainSubject
  rw [h]
  cases rest with
  | nil => simp
  | cons c rest => simp [List.cons_prefix_cons, eq_comm, ← forall_and]

theorem plainRaw_of_not_dot {raw : String} (h : ¬ [':', '.'] <+: raw.toList) : PlainRaw raw := by
  have hshort : ∀ more, ¬ [':', '.'] ++ more <+: raw.toList :=
    fun more hmore => h ((List.prefix_append _ more).trans hmore)
  exact ⟨hshort [':', ':', '.'], hshort [':', ':', '*', ':']⟩

theorem ofList_dot_ne {c : Char} {cs : List Char} :
    String.ofList ('.' :: c :: cs) ≠ defaultContext := by
  intro h
  have hlist := congrArg String.toList h
  rw [String.toList_ofList] at hlist
  cases hlist

/-- A printed name reads back exactly when the default context was not written in front of a
qualified name. -/
theorem parse_qualified_iff (raw : String) :
    QualifiedSubject.parse (QualifiedSubject.parse raw).qualified = QualifiedSubject.parse raw
      ↔ PlainRaw raw := by
  have hname := contextName_parse raw
  have hreads := reads_parse raw
  generalize QualifiedSubject.parse raw = q at hname hreads
  -- In another context the name always reads back.
  have hother : q.context ≠ defaultContext → QualifiedSubject.parse q.qualified = q :=
    fun hne => parse_qualify hname hne
  cases hreads with
  | @within before after hbefore hraw =>
    rw [plainRaw_dot hraw]
    cases before with
    | nil =>
      have hshown : (QualifiedSubject.mk (String.ofList ['.']) (String.ofList after)).qualified
          = String.ofList after := rfl
      rw [hshown]
      refine parse_eq_default_iff.trans ?_
      simp
    | cons c before =>
      refine iff_of_true (hother ofList_dot_ne) fun rest hrest => ?_
      obtain rfl : c = ':' := (List.cons.inj hrest).1
      exact absurd List.mem_cons_self hbefore
  | @contextOnly rest hrest hraw =>
    rw [plainRaw_dot hraw]
    have hplain : ∀ after, rest = ':' :: after → PlainSubject after := by
      rintro after rfl
      exact absurd List.mem_cons_self hrest
    refine iff_of_true ?_ hplain
    cases rest with
    | nil => decide
    | cons c rest => exact hother ofList_dot_ne
  | wildcard hraw =>
    have hne : wildcardContext ≠ defaultContext := by decide
    refine iff_of_true (hother hne) (plainRaw_of_not_dot ?_)
    simp [hraw]
  | bare hraw => exact iff_of_true (parse_of_plainSubject hraw) (plainRaw_of_not_dot hraw.1)

/-! ### What uses an id -/

/-- What is noted once some uses were seen. -/
structure Noted (seen : List (String × UInt32)) (uses : List SubjectUse) : Prop where
  nodup : (uses.map SubjectUse.subject).Nodup
  used : ∀ e ∈ uses, (e.subject, e.latest) ∈ seen
  newest : ∀ e ∈ uses, ∀ v, (e.subject, v) ∈ seen → v ≤ e.latest
  all : ∀ p ∈ seen, p.1 ∈ uses.map SubjectUse.subject

theorem map_subject_noteUse (subject : String) (v : UInt32) (ts : Int) (uses : List SubjectUse) :
    (noteUse subject v ts uses).map SubjectUse.subject
      = addKeys (uses.map SubjectUse.subject) [subject] := by
  induction uses with
  | nil => rfl
  | cons e uses ih =>
    unfold noteUse
    split
    · next h => simp [addKeys, h]
    · next h =>
        rw [List.map_cons, ih, List.map_cons]
        by_cases hmem : subject ∈ uses.map SubjectUse.subject <;>
          simp [addKeys, hmem, Ne.symm h]

/-- A use noted is one noted before of another subject, the one before with this version, or the
first of its subject. -/
theorem mem_noteUse {subject : String} {v : UInt32} {ts : Int} {uses : List SubjectUse}
    (hnodup : (uses.map SubjectUse.subject).Nodup) {e : SubjectUse}
    (h : e ∈ noteUse subject v ts uses) :
    (e ∈ uses ∧ e.subject ≠ subject)
      ∨ e.subject = subject ∧ ((∃ old ∈ uses, old.subject = subject ∧ e.latest = max old.latest v)
        ∨ subject ∉ uses.map SubjectUse.subject ∧ e.latest = v) := by
  induction uses with
  | nil =>
    obtain rfl := List.mem_singleton.mp h
    exact .inr ⟨rfl, .inr ⟨List.not_mem_nil, rfl⟩⟩
  | cons x uses ih =>
    obtain ⟨hx, hnodup⟩ := List.nodup_cons.mp hnodup
    unfold noteUse at h
    split at h
    · next hsame =>
        obtain rfl | h := List.mem_cons.mp h
        · exact .inr ⟨hsame, .inl ⟨x, List.mem_cons_self, hsame, rfl⟩⟩
        · refine .inl ⟨List.mem_cons_of_mem x h, fun he => hx ?_⟩
          rw [hsame, ← he]
          exact List.mem_map_of_mem h
    · next hother =>
        obtain rfl | h := List.mem_cons.mp h
        · exact .inl ⟨List.mem_cons_self, hother⟩
        · obtain ⟨h, hne⟩ | ⟨hsame, ⟨old, hold, hlatest⟩ | ⟨hnew, hlatest⟩⟩ := ih hnodup h
          · exact .inl ⟨List.mem_cons_of_mem x h, hne⟩
          · exact .inr ⟨hsame, .inl ⟨old, List.mem_cons_of_mem x hold, hlatest⟩⟩
          · refine .inr ⟨hsame, .inr ⟨?_, hlatest⟩⟩
            rw [List.map_cons, List.mem_cons]
            rintro (h | h)
            · exact hother h.symm
            · exact hnew h

theorem Noted.noteUse {seen : List (String × UInt32)} {uses : List SubjectUse} (h : Noted seen uses)
    (subject : String) (v : UInt32) (ts : Int) :
    Noted (seen ++ [(subject, v)]) (noteUse subject v ts uses) := by
  refine ⟨?_, fun e he => ?_, fun e he v' hv' => ?_, fun p hp => ?_⟩
  · rw [map_subject_noteUse]
    exact nodup_addKeys h.nodup
  · rw [List.mem_append, List.mem_singleton]
    obtain ⟨he, -⟩ | ⟨rfl, ⟨old, hold, hsame, hlatest⟩ | ⟨-, hlatest⟩⟩ := mem_noteUse h.nodup he
    · exact .inl (h.used e he)
    · rw [hlatest, ← hsame]
      obtain hmax | hmax := Std.max_eq_or (a := old.latest) (b := v)
      · rw [hmax]
        exact .inl (h.used old hold)
      · exact .inr (by rw [hmax])
    · exact .inr (by rw [hlatest])
  · rw [List.mem_append, List.mem_singleton] at hv'
    obtain ⟨he, hne⟩ | ⟨rfl, ⟨old, hold, hsame, hlatest⟩ | ⟨hnew, hlatest⟩⟩ :=
      mem_noteUse h.nodup he
    · obtain hv' | hv' := hv'
      · exact h.newest e he v' hv'
      · exact absurd (Prod.mk.inj hv').1 hne
    · rw [hlatest]
      obtain hv' | hv' := hv'
      · exact UInt32.le_trans (h.newest old hold v' (hsame ▸ hv')) Std.left_le_max
      · rw [(Prod.mk.inj hv').2]
        exact Std.right_le_max
    · obtain hv' | hv' := hv'
      · exact absurd (h.all _ hv') hnew
      · rw [hlatest, (Prod.mk.inj hv').2]
        exact UInt32.le_refl v
  · rw [map_subject_noteUse, mem_addKeys]
    obtain hp | hp := List.mem_append.mp hp
    · exact .inl (h.all p hp)
    · obtain rfl := List.mem_singleton.mp hp
      exact .inr List.mem_cons_self

/-- Every use of an id is noted under its subject, with the newest version. -/
theorem noted_usesOf {r : Reader} {ctx : String} {id : UInt32}
    (hrows : ∀ p ∈ r.idUsages ctx id, ∃ vr, r.getVersion ctx p.1 p.2 = some vr) :
    Noted (r.idUsages ctx id) (usesOf r ctx id) := by
  have hfold : ∀ (more seen : List (String × UInt32)) (uses : List SubjectUse), Noted seen uses →
      (∀ p ∈ more, ∃ vr, r.getVersion ctx p.1 p.2 = some vr) →
      Noted (seen ++ more) (more.foldl (addUse r ctx) uses) := by
    intro more
    induction more with
    | nil =>
      intro seen uses h _
      rwa [List.append_nil]
    | cons p more ih =>
      intro seen uses h hmore
      obtain ⟨⟨vr, hvr⟩, hmore⟩ := List.forall_mem_cons.mp hmore
      have hnext := ih (seen ++ [p]) _ (h.noteUse p.1 p.2 vr.ts) hmore
      rw [List.append_assoc, List.singleton_append] at hnext
      rw [List.foldl_cons, addUse, hvr]
      exact hnext
  have hnil : Noted [] [] := ⟨List.nodup_nil, by simp, by simp, by simp⟩
  exact hfold (r.idUsages ctx id) [] [] hnil hrows

/-! ### Listing them -/

/-- Whether the newest use of a subject is shown. -/
def SubjectUse.shown (r : Reader) (ctx : String) (deleted : Bool) (e : SubjectUse) : Bool :=
  deleted || (r.getVersion ctx e.subject e.latest).any (!·.deleted)

section Listing

variable {r : Reader} {ctx : String} {seen : List (String × UInt32)} {uses : List SubjectUse}

theorem find?_of_mem (hnodup : (uses.map SubjectUse.subject).Nodup) {e : SubjectUse}
    (he : e ∈ uses) :
    uses.find? (fun x => x.subject == e.subject) = some e := by
  induction uses with
  | nil => cases he
  | cons x uses ih =>
    obtain ⟨hx, hnodup⟩ := List.nodup_cons.mp hnodup
    obtain rfl | he := List.mem_cons.mp he
    · simp
    · rw [List.find?_cons_of_neg, ih hnodup he]
      rw [beq_iff_eq]
      intro hsame
      rw [hsame] at hx
      exact hx (List.mem_map_of_mem he)

/-- Where names read back, the line of a subject shows its newest use. -/
theorem listedUse_qualify (hnodup : (uses.map SubjectUse.subject).Nodup) {e : SubjectUse}
    (he : e ∈ uses) (hback : QualifiedSubject.parse (qualify ctx e.subject) = ⟨ctx, e.subject⟩)
    (deleted : Bool) : listedUse r ctx uses deleted (qualify ctx e.subject)
      = some (if e.shown r ctx deleted then some ⟨qualify ctx e.subject, e.latest⟩ else none) := by
  simp only [listedUse, hback, find?_of_mem hnodup he, Option.map_some]
  rfl

theorem subject_of_listedUse {deleted : Bool} {name : String} {sv : SubjectVersion}
    (h : listedUse r ctx uses deleted name = some (some sv)) : sv.subject = name := by
  obtain ⟨e, -, he⟩ := Option.map_eq_some_iff.mp h
  split at he
  · cases he
    rfl
  · cases he

/-- Where names read back, there is one line for each subject and nothing else. -/
theorem lines_of_readBack (hnodup : (uses.map SubjectUse.subject).Nodup)
    (hback : ∀ e ∈ uses, QualifiedSubject.parse (qualify ctx e.subject) = ⟨ctx, e.subject⟩)
    (deleted : Bool) :
    ∃ lines, (chmOrder javaHash (uses.map fun e => qualify ctx e.subject)).mapM
        (listedUse r ctx uses deleted) = some lines
      ∧ ((lines.filterMap fun line => line).map SubjectVersion.subject).Nodup
      ∧ ∀ sv, sv ∈ lines.filterMap (fun line => line)
        ↔ ∃ e ∈ uses, e.shown r ctx deleted = true ∧ sv = ⟨qualify ctx e.subject, e.latest⟩ := by
  have hnames : ∀ name ∈ chmOrder javaHash (uses.map fun e => qualify ctx e.subject),
      ∃ e ∈ uses, qualify ctx e.subject = name :=
    fun name hname => List.mem_map.mp (mem_chmOrder.mp hname)
  have hline : ∀ name ∈ chmOrder javaHash (uses.map fun e => qualify ctx e.subject),
      listedUse r ctx uses deleted name = some ((listedUse r ctx uses deleted name).getD none) := by
    intro name hname
    obtain ⟨e, he, rfl⟩ := hnames name hname
    rw [listedUse_qualify hnodup he (hback e he)]
    rfl
  refine ⟨_, mapM_eq_some_map hline, ?_, fun sv => ?_⟩
  · rw [List.filterMap_map]
    refine (map_filterMap_sublist (fun name sv hsv => ?_) _).nodup (nodup_chmOrder _)
    cases hlisted : listedUse r ctx uses deleted name with
    | none => simp [hlisted] at hsv
    | some line =>
      rw [Function.comp_apply, hlisted, Option.getD_some] at hsv
      exact subject_of_listedUse (hlisted.trans (congrArg some hsv))
  simp only [List.mem_filterMap, List.mem_map, mem_chmOrder]
  constructor
  · rintro ⟨_, ⟨_, ⟨e, he, rfl⟩, rfl⟩, hsv⟩
    rw [listedUse_qualify hnodup he (hback e he), Option.getD_some,
      Option.ite_none_right_eq_some] at hsv
    exact ⟨e, he, hsv.1, (Option.some.inj hsv.2).symm⟩
  · rintro ⟨e, he, hshown, rfl⟩
    refine ⟨_, ⟨_, ⟨e, he, rfl⟩, rfl⟩, ?_⟩
    rw [listedUse_qualify hnodup he (hback e he), Option.getD_some, if_pos hshown]

end Listing

/-- Every subject of a context reads back as it is printed. -/
def Rows.ReadBack (ρ : Rows) : Prop :=
  ∀ ctx subject v vr, ρ (.version ctx subject v) = some vr →
    QualifiedSubject.parse (qualify ctx subject) = ⟨ctx, subject⟩

/-- A line that shows a subject of the context that uses the id, under its printed name and with
the newest version that does. -/
def NewestUse (reg : Registry) (id : UInt32) (ctx : String) (deleted : Bool) (sv : SubjectVersion) :
    Prop :=
  ∃ subject vr, sv.subject = qualify ctx subject
    ∧ reg.rows (.version ctx subject sv.version) = some vr ∧ vr.id = id
    ∧ (∀ v vr', reg.rows (.version ctx subject v) = some vr' → vr'.id = id → v ≤ sv.version)
    ∧ (deleted = true ∨ vr.deleted = false)

/-- The listing of an id has these lines and no other. -/
def ListsUses (reg : Registry) (id : UInt32) (ctx : String) (deleted : Bool)
    (out : List SubjectVersion) : Prop :=
  ∀ sv, sv ∈ out ↔ NewestUse reg id ctx deleted sv

/-- The newest uses of an id, by their rows. -/
theorem exists_use_iff {uses : List SubjectUse} {ctx : String} {id : UInt32} {deleted : Bool}
    (hc : reg.snapshot.Consistent) (hnoted : Noted (reg.reader.idUsages ctx id) uses)
    (sv : SubjectVersion) :
    (∃ e ∈ uses, e.shown reg.reader ctx deleted = true ∧ sv = ⟨qualify ctx e.subject, e.latest⟩)
      ↔ NewestUse reg id ctx deleted sv := by
  constructor
  · rintro ⟨e, he, hshown, rfl⟩
    obtain ⟨vr, hrow, hid⟩ := (Registry.mem_idUsages hc).mp (hnoted.used e he)
    refine ⟨e.subject, vr, rfl, hrow, hid, fun v vr' hrow' hid' => ?_, ?_⟩
    · exact hnoted.newest e he v ((Registry.mem_idUsages hc).mpr ⟨vr', hrow', hid'⟩)
    · have hread : reg.reader.getVersion ctx e.subject e.latest = some vr := hrow
      simpa [SubjectUse.shown, hread] using hshown
  · rintro ⟨subject, vr, hname, hrow, hid, hnewest, hlive⟩
    have hused := (Registry.mem_idUsages hc (p := (subject, sv.version))).mpr ⟨vr, hrow, hid⟩
    obtain ⟨e, he, rfl⟩ := List.mem_map.mp (hnoted.all _ hused)
    have hsame : e.latest = sv.version := by
      obtain ⟨vr', hrow', hid'⟩ := (Registry.mem_idUsages hc).mp (hnoted.used e he)
      exact UInt32.le_antisymm (hnewest e.latest vr' hrow' hid') (hnoted.newest e he _ hused)
    have hread : reg.reader.getVersion ctx e.subject sv.version = some vr := hrow
    refine ⟨e, he, ?_, ?_⟩
    · simpa [SubjectUse.shown, hsame, hread] using hlive
    · rw [hsame, ← hname]

/-- The listing of an id that is found in a context. -/
theorem idVersions_of_located (hc : reg.snapshot.Consistent) (hback : reg.rows.ReadBack) {id : Int}
    (hid : 0 < id ∧ id < 2 ^ 32) {hint : Option String} {ctx : String} {body : SchemaRecord}
    (hlocated : locateId reg.reader (UInt32.ofNat id.toNat) hint = .ok (ctx, body))
    (deleted : Bool) :
    ∃ out, idVersions reg.reader id hint deleted = some (.ok out)
      ∧ (out.map SubjectVersion.subject).Nodup
      ∧ ListsUses reg (UInt32.ofNat id.toNat) ctx deleted out := by
  have hrows : ∀ p ∈ reg.reader.idUsages ctx (UInt32.ofNat id.toNat),
      ∃ vr, reg.reader.getVersion ctx p.1 p.2 = some vr := by
    intro p hp
    obtain ⟨vr, hrow, -⟩ := (Registry.mem_idUsages hc).mp hp
    exact ⟨vr, hrow⟩
  have hnoted := noted_usesOf hrows
  have hperm := List.perm_insertionSort SubjectUse.Before
    (usesOf reg.reader ctx (UInt32.ofNat id.toNat))
  have hsorted : Noted (reg.reader.idUsages ctx (UInt32.ofNat id.toNat))
      ((usesOf reg.reader ctx (UInt32.ofNat id.toNat)).insertionSort SubjectUse.Before) :=
    ⟨(hperm.map _).nodup_iff.mpr hnoted.nodup,
      fun e he => hnoted.used e (hperm.mem_iff.mp he),
      fun e he => hnoted.newest e (hperm.mem_iff.mp he),
      fun p hp => (hperm.map _).mem_iff.mpr (hnoted.all p hp)⟩
  obtain ⟨lines, hlines, hnodup, hmem⟩ := lines_of_readBack (r := reg.reader) hsorted.nodup
    (fun e he => by
      obtain ⟨vr, hrow, -⟩ := (Registry.mem_idUsages hc).mp (hsorted.used e he)
      exact hback ctx e.subject e.latest vr hrow) deleted
  refine ⟨_, ?_, hnodup, fun sv => (hmem sv).trans (exists_use_iff hc hsorted sv)⟩
  simp only [idVersions, if_pos hid, hlocated, hlines]
  rfl

theorem idVersions_lists (hc : reg.snapshot.Consistent) (hback : reg.rows.ReadBack) (id : Int)
    (hint : Option String) (deleted : Bool) :
    idVersions reg.reader id hint deleted = some (.error .schemaNotFound)
      ∨ ∃ ctx out, idVersions reg.reader id hint deleted = some (.ok out)
        ∧ ListsUses reg (UInt32.ofNat id.toNat) ctx deleted out := by
  by_cases hid : 0 < id ∧ id < 2 ^ 32
  · cases hlocated : locateId reg.reader (UInt32.ofNat id.toNat) hint with
    | error e =>
      refine .inl ?_
      simp only [idVersions, if_pos hid, hlocated]
    | ok place =>
      obtain ⟨out, hout, -, hlists⟩ := idVersions_of_located hc hback hid hlocated deleted
      exact .inr ⟨place.1, out, hout, hlists⟩
  · exact .inl (if_neg hid)

/-- In any state that is reached and whose names read back, an id that is found in a context is
listed with one line for each subject of it whose newest use is shown, and no other. -/
theorem idVersions_exact (hreach : reg.Reachable srv) (hback : reg.rows.ReadBack) {id : Int}
    (hid : 0 < id ∧ id < 2 ^ 32) {hint : Option String} {ctx : String} {body : SchemaRecord}
    (hlocated : locateId reg.reader (UInt32.ofNat id.toNat) hint = .ok (ctx, body))
    (deleted : Bool) :
    ∃ out, idVersions reg.reader id hint deleted = some (.ok out)
      ∧ (out.map SubjectVersion.subject).Nodup
      ∧ ListsUses reg (UInt32.ofNat id.toNat) ctx deleted out := by
  obtain ⟨tenant, reqs, rfl⟩ := hreach
  exact idVersions_of_located (consistent_runAll tenant reqs) hback hid hlocated deleted

/-! ### Runs -/

/-- A registration, if the request is one, does not write the default context in front of a
qualified name. -/
def Request.NamesPlainly (req : Request) : Prop :=
  ∀ raw body normalize, req.verb = .register raw body normalize → PlainRaw raw

theorem Rows.ReadBack.step {req : Request} (h : reg.rows.ReadBack) (hplain : req.NamesPlainly) :
    (reg.step srv req).rows.ReadBack := by
  intro ctx subject v vr hrow
  obtain ⟨old, hold⟩ | ⟨raw, body, normalize, hverb, -, hraw⟩ := Registry.version_step hrow
  · exact h ctx subject v old hold
  · have hback := (parse_qualified_iff raw).mpr (hplain raw body normalize hverb)
    rwa [hraw] at hback

theorem readBack_runAll (srv : Server) (tenant : TenantId) {reqs : List Request}
    (hplain : ∀ req ∈ reqs, req.NamesPlainly) :
    ((Registry.empty tenant).runAll srv reqs).rows.ReadBack := by
  have hstep : ∀ (reg : Registry) (req : Request), reg.rows.ReadBack → req.NamesPlainly →
      (reg.step srv req).rows.ReadBack := fun _ _ h hreq => h.step hreq
  refine inv_of_along (along_of_forall hplain) ?_ hstep
  intro ctx subject v vr hrow
  rw [Registry.rows_empty] at hrow
  cases hrow

/-- Subjects that read back are printed differently. -/
theorem Rows.ReadBack.eq_of_qualify (h : reg.rows.ReadBack) {ctx ctx' subject subject' : String}
    {v v' : UInt32} {vr vr' : VersionRecord} (hrow : reg.rows (.version ctx subject v) = some vr)
    (hrow' : reg.rows (.version ctx' subject' v') = some vr')
    (hsame : qualify ctx subject = qualify ctx' subject') : ctx = ctx' ∧ subject = subject' := by
  have hback := h ctx subject v vr hrow
  rw [hsame, h ctx' subject' v' vr' hrow'] at hback
  exact ⟨(QualifiedSubject.mk.inj hback).1.symm, (QualifiedSubject.mk.inj hback).2.symm⟩

/-- A raw name reads back as it is printed exactly when it does not write the default context in
front of a qualified name. Where every registration names its subject so, no two subjects are
printed alike, and the listing of what uses an id finds a row for every name. -/
theorem names_read_back (srv : Server) (tenant : TenantId) {reqs : List Request}
    (hplain : ∀ req ∈ reqs, req.NamesPlainly) :
    (∀ raw, QualifiedSubject.parse (QualifiedSubject.parse raw).qualified
        = QualifiedSubject.parse raw ↔ PlainRaw raw)
      ∧ (∀ ctx subject v vr ctx' subject' v' vr',
        ((Registry.empty tenant).runAll srv reqs).rows (.version ctx subject v) = some vr →
        ((Registry.empty tenant).runAll srv reqs).rows (.version ctx' subject' v') = some vr' →
        qualify ctx subject = qualify ctx' subject' → ctx = ctx' ∧ subject = subject')
      ∧ ∀ id hint deleted,
        idVersions ((Registry.empty tenant).runAll srv reqs).reader id hint deleted
            = some (.error .schemaNotFound)
          ∨ ∃ ctx out, idVersions ((Registry.empty tenant).runAll srv reqs).reader id hint deleted
                = some (.ok out)
              ∧ ListsUses ((Registry.empty tenant).runAll srv reqs) (UInt32.ofNat id.toNat) ctx
                deleted out := by
  have hback := readBack_runAll srv tenant hplain
  refine ⟨parse_qualified_iff, ?_, ?_⟩
  · intro ctx subject v vr ctx' subject' v' vr' hrow hrow' hsame
    exact hback.eq_of_qualify hrow hrow' hsame
  · intro id hint deleted
    exact idVersions_lists (consistent_runAll tenant reqs) hback id hint deleted

/-- A subject of the default context that is called like one of another context. -/
def shadowHistory : List Request :=
  [registerText ":.::.eu:orders" "\"int\"", registerText ":.eu:orders" "\"long\""]

/-- The name is accepted, prints as another subject's, and the listing of its id panics. -/
theorem printed_like_another :
    isValidSubject ":.::.eu:orders" = true
      ∧ QualifiedSubject.parse (QualifiedSubject.parse ":.::.eu:orders").qualified
        ≠ QualifiedSubject.parse ":.::.eu:orders"
      ∧ ∃ reg, reg = plainRun shadowHistory
        ∧ (reg.rows (.version "." ":.eu:orders" 1)).isSome = true
        ∧ (reg.rows (.version ".eu" "orders" 1)).isSome = true
        ∧ qualify "." ":.eu:orders" = qualify ".eu" "orders"
        ∧ (idVersions reg.reader 1 none false).isNone = true := by
  refine ⟨by decide, by decide, _, rfl, ?_⟩
  decide

/-- A subject of the same name in two contexts. -/
def sameNameHistory : List Request :=
  [registerText "orders" "\"int\"", registerText ":.eu:orders" "\"long\""]

theorem sameNameHistory_plain : ∀ req ∈ sameNameHistory, req.NamesPlainly := by
  intro req hreq raw body normalize hverb
  simp only [sameNameHistory, List.mem_cons, List.not_mem_nil, or_false] at hreq
  obtain rfl | rfl := hreq
  · cases hverb
    decide
  · cases hverb
    decide

theorem names_read_back_sameName :
    (∀ req ∈ sameNameHistory, req.NamesPlainly)
      ∧ ∀ id hint deleted, (idVersions (plainRun
        sameNameHistory).reader id hint deleted).isSome = true := by
  refine ⟨sameNameHistory_plain, fun id hint deleted => ?_⟩
  obtain h | ⟨ctx, out, h, -⟩ :=
    (names_read_back plainServer .default sameNameHistory_plain).2.2 id hint deleted
  · rw [h]
    rfl
  · rw [h]
    rfl

theorem idVersions_exact_sameName :
    ∃ reg out, reg = plainRun sameNameHistory
      ∧ idVersions reg.reader 1 (some ":.eu:") false = some (.ok out)
      ∧ ListsUses reg 1 ".eu" false out := by
  have hfound : ∃ body, locateId (plainRun sameNameHistory).reader 1 (some ":.eu:")
        = .ok (".eu", body) := ⟨_, rfl⟩
  obtain ⟨body, hlocated⟩ := hfound
  obtain ⟨out, hout, -, hlists⟩ := idVersions_exact ⟨.default, sameNameHistory, rfl⟩
    (readBack_runAll plainServer .default sameNameHistory_plain)
    (by decide : (0 : Int) < 1 ∧ (1 : Int) < 2 ^ 32) hlocated false
  exact ⟨_, out, rfl, hout, hlists⟩

end SchemaRegistry

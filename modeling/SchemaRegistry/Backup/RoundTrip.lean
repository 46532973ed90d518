import SchemaRegistry.Backup.Ndjson
import SchemaRegistry.Lib.Except

/-!
What is read from a text, written out and read again is the same. A dump that was read is in a shape
(`Shaped`) that its own records lead to: grouping, sorting and defaults have nothing left to do.
-/

namespace SchemaRegistry

/-! ### Printed values are lines -/

namespace Json

theorem newline_not_mem_escapeChar (c : Char) : '\n' ∉ escapeChar c := by
  have hdigit : ∀ n < 16, '\n' ≠ "0123456789abcdef".toList.getD n '0' := by decide
  have hhex : ∀ n, '\n' ≠ hexDigit n := fun n => hdigit (n % 16) (Nat.mod_lt n (by decide))
  unfold escapeChar
  split_ifs with _ _ _ _ hnl <;> simp [hhex]
  rintro rfl
  exact hnl rfl

theorem newline_not_mem_renderString (s : String) : '\n' ∉ (renderString s).toList := by
  rw [renderString_toList]
  simp [newline_not_mem_escapeChar]

theorem newline_not_mem_renderNumber (n : JsonNumber) : '\n' ∉ (renderNumber n).toList := by
  intro h
  have hchar := isNumberChar_renderNumber n _ h
  exact absurd hchar (by decide)

mutual

theorem newline_not_mem_chars : ∀ v : Json, '\n' ∉ chars v
  | .null | .bool true | .bool false => by simp [chars]
  | .number n => by simpa [chars] using newline_not_mem_renderNumber n
  | .string s => by simpa [chars] using newline_not_mem_renderString s
  | .array [] => by simp [chars, charsArray]
  | .array (v :: vs) => by
      simp [chars, charsArray, newline_not_mem_chars v, newline_not_mem_charsElems vs]
  | .object [] => by simp [chars, charsObject]
  | .object ((name, v) :: rest) => by
      simp [chars, charsObject, newline_not_mem_renderString, newline_not_mem_chars v,
        newline_not_mem_charsMembers rest]

theorem newline_not_mem_charsElems : ∀ vs : List Json, '\n' ∉ charsElems vs
  | [] => by simp [charsElems]
  | v :: vs => by simp [charsElems, newline_not_mem_chars v, newline_not_mem_charsElems vs]

theorem newline_not_mem_charsMembers : ∀ members : JsonMap, '\n' ∉ charsMembers members
  | [] => by simp [charsMembers]
  | (name, v) :: rest => by
      simp [charsMembers, newline_not_mem_renderString, newline_not_mem_chars v,
        newline_not_mem_charsMembers rest]

end

theorem newline_not_mem_render (v : Json) : '\n' ∉ (render v).toList := by
  rw [render_toList]
  exact newline_not_mem_chars v

/-- An object is printed between braces. -/
theorem exists_render_object (members : JsonMap) :
    ∃ l, (render (.object members)).toList = '\x7b' :: (l ++ ['\x7d']) :=
  ⟨_, by rw [render, String.toList_append, String.toList_append]; rfl⟩

theorem exists_object_of_get? {v x : Json} {name : String} (h : v.get? name = some x) :
    ∃ members, v = .object members := by
  cases v with
  | object members => exact ⟨members, rfl⟩
  | null | bool | number | string | array => cases h

end Json

namespace Backup

open Std SchemaRegistry.Lib

theorem trimText_render_object (members : JsonMap) :
    trimText (Json.object members).render = (Json.object members).render := by
  obtain ⟨l, hl⟩ := Json.exists_render_object members
  have hopen : isWhitespace '\x7b' = false := by decide
  have hclose : isWhitespace '\x7d' = false := by decide
  rw [trimText, hl, List.dropWhile_cons_of_neg (by simp [hopen]), List.reverse_cons,
    List.reverse_append, List.reverse_singleton, List.singleton_append, List.cons_append,
    List.dropWhile_cons_of_neg (by simp [hclose]), ← String.toList_inj, String.toList_ofList, hl]
  simp

/-- Texts without a line feed, each ended by one, are split into themselves. -/
theorem splitOn_ended {ls : List (List Char)} (h : ∀ l ∈ ls, '\n' ∉ l) :
    (ls.flatMap (· ++ ['\n'])).splitOn '\n' = ls ++ [[]] := by
  have htext : ls.flatMap (· ++ ['\n']) = ['\n'].intercalate (ls ++ [[]]) := by
    induction ls with
    | nil => rfl
    | cons l ls ih =>
      rw [List.flatMap_cons, ih fun l' hl' => h l' (List.mem_cons_of_mem _ hl')]
      cases ls <;> simp [List.intercalate, List.intersperse]
  rw [htext]
  refine List.splitOn_intercalate _ ?_ (by simp)
  intro l hl
  rcases List.mem_append.mp hl with hl | hl
  · exact h l hl
  · simp [List.mem_singleton.mp hl]

theorem lines_writtenLines {vs : List Json} (h : ∀ v ∈ vs, ∃ members, v = .object members) :
    lines (TextDump.writtenLines vs) = vs.map Json.render := by
  have htext : (TextDump.writtenLines vs).toList
      = (vs.map fun v => v.render.toList).flatMap (· ++ ['\n']) := by
    rw [TextDump.writtenLines, String.toList_join]
    simp [List.flatMap_map]
  have hsplit : (TextDump.writtenLines vs).toList.splitOn '\n'
      = vs.map (fun v => v.render.toList) ++ [[]] := by
    rw [htext]
    refine splitOn_ended fun l hl => ?_
    obtain ⟨v, -, rfl⟩ := List.mem_map.mp hl
    exact v.newline_not_mem_render
  rw [lines, hsplit]
  simp only [List.dropLast_concat, List.getLast?_concat, List.map_append, List.map_map]
  simp only [Option.filter, ne_eq, not_true_eq_false, decide_false, Bool.false_eq_true, if_false,
    Option.toList_none, List.map_nil, List.append_nil]
  refine List.map_congr_left fun v hv => ?_
  obtain ⟨members, rfl⟩ := h v hv
  obtain ⟨l, hl⟩ := Json.exists_render_object members
  have hlast : (Json.object members).render.toList.getLast? ≠ some '\r' := by
    rw [hl, ← List.cons_append, List.getLast?_concat]
    decide
  rw [Function.comp_apply, Function.comp_apply, if_neg hlast, String.ofList_toList]

namespace TextDump

/-! ### Reading what was written -/

section Serde

variable {fromStr : String → Except String Json}

/-- The record that is written for one that was read. -/
def rewritten (v : Json) : Json :=
  match recordType v with
  | "config" => configRecord (recordSubject v, (v.get? "config").getD (.object []))
  | "mode" =>
      match (v.get? "mode").bind Json.asStr with
      | some m => modeRecord (recordSubject v, m)
      | none => v
  | "exporter" => exporterRecord (exporterEntry v)
  | _ => v

/-- Printed and read, the record that is written for a value of the text is the same: all that is
asked of `serde_json`. -/
def ReadsBack (fromStr : String → Except String Json) (text : String) : Prop :=
  ∀ line ∈ lines text, ∀ v, fromStr (trimText line) = .ok v →
    fromStr (rewritten v).render = .ok (rewritten v)

theorem foldlM_noteLine {vs : List Json}
    (h : ∀ v ∈ vs, fromStr v.render = .ok v ∧ ∃ members, v = .object members) (d : TextDump)
    (n : Nat) :
    ((vs.map Json.render).zipIdx n).foldlM (noteLine fromStr) d = .ok (vs.foldl noteRecord d) := by
  induction vs generalizing d n with
  | nil => rfl
  | cons v vs ih =>
    obtain ⟨⟨hback, members, rfl⟩, hvs⟩ := List.forall_mem_cons.mp h
    obtain ⟨l, hl⟩ := Json.exists_render_object members
    have hne : (Json.object members).render.isEmpty = false := by
      rw [Bool.eq_false_iff, ne_eq, String.isEmpty_iff, ← String.toList_eq_nil_iff, hl]
      exact List.cons_ne_nil _ _
    have hline : noteLine fromStr d ((Json.object members).render, n)
        = .ok (d.noteRecord (.object members)) := by
      simp only [noteLine, trimText_render_object, hne, hback]
      rfl
    rw [List.map_cons, List.zipIdx_cons, List.foldlM_cons, hline]
    exact ih hvs _ _

theorem parse_writtenLines {vs : List Json}
    (h : ∀ v ∈ vs, fromStr v.render = .ok v ∧ ∃ members, v = .object members) :
    parse fromStr (writtenLines vs) = .ok (vs.foldl noteRecord {}).finish := by
  rw [parse, lines_writtenLines fun v hv => (h v hv).2]
  have hfold := foldlM_noteLine h {} 0
  rw [hfold]
  rfl

end Serde

/-! ### The shape of a dump that was read -/

/-- `P` holds of every record that is written. -/
structure Shaped (P : Json → Prop) (d : TextDump) : Prop where
  header : ∀ v, d.header = some v → P v ∧ recordType v = "registry"
  configs : ∀ p ∈ d.configs, P (configRecord p)
  modes : ∀ p ∈ d.modes, P (modeRecord p)
  exporters : ∀ e ∈ d.exporters, P (exporterRecord e) ∧ ∃ v, e = exporterEntry v
  order : d.subjectOrder.Nodup
  listed : ∀ s, s ∈ d.subjectOrder ↔ s ∈ d.subjects
  rows : ∀ s vs, d.subjects[s]? = some vs → vs ≠ [] ∧ ∀ v ∈ vs, P v
    ∧ recordType v = "schema" ∧ recordSubject v = some s

variable {P : Json → Prop}

theorem shaped_empty : Shaped P {} where
  header := nofun
  configs := by simp
  modes := by simp
  exporters := by simp
  order := List.nodup_nil
  listed s := by simp
  rows s vs h := by simp at h

theorem Shaped.noteSchema {d : TextDump} (h : d.Shaped P) {v : Json} {s : String} (hv : P v)
    (htype : recordType v = "schema") (hs : recordSubject v = some s) :
    (d.noteSchema s v).Shaped P where
  header := h.header
  configs := h.configs
  modes := h.modes
  exporters := h.exporters
  order := by
    simp only [TextDump.noteSchema]
    split
    · exact h.order
    · next hnew =>
        refine List.nodup_append.mpr ⟨h.order, List.nodup_singleton s, ?_⟩
        rintro a ha b hb rfl
        exact hnew ((h.listed a).mp ha |> fun hin => List.mem_singleton.mp hb ▸ hin)
  listed s' := by
    simp only [TextDump.noteSchema, ExtTreeMap.mem_insert, LawfulEqOrd.compare_eq_iff_eq]
    split
    · next hold =>
        rw [h.listed]
        refine ⟨.inr, ?_⟩
        rintro (rfl | h)
        · exact hold
        · exact h
    · rw [List.mem_append, List.mem_singleton, h.listed, or_comm, eq_comm]
  rows s' vs hvs := by
    simp only [TextDump.noteSchema, ExtTreeMap.getElem?_insert,
      LawfulEqOrd.compare_eq_iff_eq] at hvs
    split at hvs
    · next heq =>
        subst heq
        cases hvs
        refine ⟨by simp, fun w hw => ?_⟩
        rcases List.mem_append.mp hw with hw | hw
        · cases hold : d.subjects[s]? with
          | none => simp [ExtTreeMap.getD_eq_getD_getElem?, hold] at hw
          | some old =>
            rw [ExtTreeMap.getD_eq_getD_getElem?, hold, Option.getD_some] at hw
            exact (h.rows s old hold).2 w hw
        · rw [List.mem_singleton.mp hw]
          exact ⟨hv, htype, hs⟩
    · exact h.rows s' vs hvs

theorem Shaped.noteRecord {d : TextDump} (h : d.Shaped P) {v : Json} (hv : P (rewritten v)) :
    (d.noteRecord v).Shaped P := by
  unfold TextDump.noteRecord
  split
  · next htype =>
      simp only [rewritten, htype] at hv
      refine { h with header := fun v' hv' => ?_ }
      cases hv'
      exact ⟨hv, htype⟩
  · next htype =>
      simp only [rewritten, htype] at hv
      refine { h with configs := List.forall_mem_append.mpr ⟨h.configs, ?_⟩ }
      exact List.forall_mem_singleton.mpr hv
  · next htype =>
      split
      · next m hm =>
          simp only [rewritten, htype, hm] at hv
          refine { h with modes := List.forall_mem_append.mpr ⟨h.modes, ?_⟩ }
          exact List.forall_mem_singleton.mpr hv
      · exact h
  · next htype =>
      simp only [rewritten, htype] at hv
      split
      · next s hs => exact h.noteSchema hv htype hs
      · exact h
  · next htype =>
      simp only [rewritten, htype] at hv
      refine { h with exporters := List.forall_mem_append.mpr ⟨h.exporters, ?_⟩ }
      exact List.forall_mem_singleton.mpr ⟨hv, v, rfl⟩
  · exact h

/-- The versions of each subject are in order. -/
def Sorted (d : TextDump) : Prop :=
  ∀ (s : String) (vs : List Json), d.subjects[s]? = some vs →
    vs.Pairwise fun a b => versionKey a ≤ versionKey b

theorem sorted_finish (d : TextDump) : d.finish.Sorted := by
  intro s vs hvs
  rw [finish, ExtTreeMap.getElem?_map] at hvs
  obtain ⟨old, -, rfl⟩ := Option.map_eq_some_iff.mp hvs
  exact List.pairwise_insertionSort _ old

theorem Shaped.finish {d : TextDump} (h : d.Shaped P) : d.finish.Shaped P := by
  refine { h with listed := fun s => ?_, rows := fun s vs hvs => ?_ }
  · refine (h.listed s).trans ?_
    rw [TextDump.finish]
    simp
  · rw [TextDump.finish, ExtTreeMap.getElem?_map] at hvs
    obtain ⟨old, hold, rfl⟩ := Option.map_eq_some_iff.mp hvs
    obtain ⟨hne, hrows⟩ := h.rows s old hold
    have hperm := List.perm_insertionSort (fun a b : Json => versionKey a ≤ versionKey b) old
    refine ⟨fun hnil => hne ?_, fun v hv => hrows v (hperm.mem_iff.mp hv)⟩
    exact List.Perm.eq_nil (hnil ▸ hperm.symm)

theorem shaped_of_parse {fromStr : String → Except String Json} {text : String}
    (hserde : ReadsBack fromStr text) {d : TextDump} (h : parse fromStr text = .ok d) :
    d.Shaped (fun v => fromStr v.render = .ok v) ∧ d.Sorted := by
  obtain ⟨read, hread, hd⟩ := bind_eq_ok.mp h
  cases hd
  have hline : ∀ p ∈ (lines text).zipIdx, ∀ d d' : TextDump,
      d.Shaped (fun v => fromStr v.render = .ok v) → noteLine fromStr d p = .ok d' →
      d'.Shaped fun v => fromStr v.render = .ok v := by
    intro p hp d d' hd hline
    unfold noteLine at hline
    dsimp only at hline
    split at hline
    · cases hline
      exact hd
    · split at hline
      · cases hline
      · next v hv =>
          cases hline
          exact hd.noteRecord (hserde p.1 (List.fst_mem_of_mem_zipIdx hp) v hv)
  exact ⟨(foldlM_inv hline shaped_empty hread).finish, sorted_finish read⟩

/-! ### Its records lead to it -/

theorem foldl_configRecord (cs : List (Option String × Json)) (d : TextDump) :
    (cs.map configRecord).foldl noteRecord d = { d with configs := d.configs ++ cs } := by
  induction cs generalizing d with
  | nil => simp
  | cons p cs ih =>
    obtain ⟨s | s, c⟩ := p <;>
    · rw [List.map_cons, List.foldl_cons, ih]
      simp [noteRecord, configRecord, recordType, recordSubject, subjectMember, Json.get?,
        Json.asStr, List.lookup_cons]

theorem foldl_modeRecord (ms : List (Option String × String)) (d : TextDump) :
    (ms.map modeRecord).foldl noteRecord d = { d with modes := d.modes ++ ms } := by
  induction ms generalizing d with
  | nil => simp
  | cons p ms ih =>
    obtain ⟨s | s, m⟩ := p <;>
    · rw [List.map_cons, List.foldl_cons, ih]
      simp [noteRecord, modeRecord, recordType, recordSubject, subjectMember, Json.get?,
        Json.asStr, List.lookup_cons]

theorem asU64_lt {v : Json} {n : Nat} (h : v.asU64 = some n) : n < 2 ^ 64 := by
  unfold Json.asU64 at h
  split at h
  · split at h
    · cases h
      omega
    · cases h
  · cases h

theorem asI64_range {v : Json} {n : Int} (h : v.asI64 = some n) : -2 ^ 63 ≤ n ∧ n < 2 ^ 63 := by
  unfold Json.asI64 at h
  split at h
  · split at h
    · cases h
      assumption
    · cases h
  · cases h

theorem asU64_int {n : Nat} (h : n < 2 ^ 64) : Json.asU64 (.number (.int n)) = some n := by
  rw [Json.asU64, if_pos (by omega), Int.toNat_natCast]

theorem asI64_int {n : Int} (h : -2 ^ 63 ≤ n ∧ n < 2 ^ 63) :
    Json.asI64 (.number (.int n)) = some n := by
  rw [Json.asI64, if_pos h]

/-- Nothing is left out of an exporter that has all its members. -/
theorem exporterEntry_exporterRecord {info : Json} {state trace : String} {offset : Nat} {ts : Int}
    (hoffset : offset < 2 ^ 64) (hts : -2 ^ 63 ≤ ts ∧ ts < 2 ^ 63) :
    recordType (exporterRecord (exporterObject info state offset ts trace)) = "exporter"
      ∧ exporterEntry (exporterRecord (exporterObject info state offset ts trace))
        = exporterObject info state offset ts trace := by
  have hinfo : exporterInfo (exporterRecord (exporterObject info state offset ts trace))
      = info := rfl
  have hstate : (exporterRecord (exporterObject info state offset ts trace)).get? "state"
      = some (.string state) := rfl
  have hat : (exporterRecord (exporterObject info state offset ts trace)).get? "offset"
      = some (.number (.int offset)) := rfl
  have htime : (exporterRecord (exporterObject info state offset ts trace)).get? "ts"
      = some (.number (.int ts)) := rfl
  have htrace : (exporterRecord (exporterObject info state offset ts trace)).get? "trace"
      = some (.string trace) := rfl
  refine ⟨rfl, ?_⟩
  rw [exporterEntry, hinfo, hstate, hat, htime, htrace, Option.bind_some, Option.bind_some,
    Option.bind_some, Option.bind_some, asU64_int hoffset, asI64_int hts]
  rfl

theorem filled_exporterEntry (v : Json) :
    recordType (exporterRecord (exporterEntry v)) = "exporter"
      ∧ exporterEntry (exporterRecord (exporterEntry v)) = exporterEntry v := by
  refine exporterEntry_exporterRecord ?_ ?_
  · cases hoffset : (v.get? "offset").bind Json.asU64 with
    | none => simp
    | some n =>
      obtain ⟨x, -, hx⟩ := Option.bind_eq_some_iff.mp hoffset
      exact asU64_lt hx
  · cases hts : (v.get? "ts").bind Json.asI64 with
    | none => simp
    | some n =>
      obtain ⟨x, -, hx⟩ := Option.bind_eq_some_iff.mp hts
      exact asI64_range hx

theorem foldl_exporterRecord {es : List Json} (h : ∀ e ∈ es, ∃ v, e = exporterEntry v)
    (d : TextDump) :
    (es.map exporterRecord).foldl noteRecord d = { d with exporters := d.exporters ++ es } := by
  induction es generalizing d with
  | nil => simp
  | cons e es ih =>
    obtain ⟨⟨v, hv⟩, hes⟩ := List.forall_mem_cons.mp h
    have hfilled := filled_exporterEntry v
    rw [← hv] at hfilled
    rw [List.map_cons, List.foldl_cons, ih hes, noteRecord, hfilled.1, hfilled.2]
    simp

theorem foldl_rows {s : String} {vs : List Json}
    (h : ∀ v ∈ vs, recordType v = "schema" ∧ recordSubject v = some s) {d : TextDump}
    (hs : s ∈ d.subjects) :
    vs.foldl noteRecord d
      = { d with subjects := d.subjects.insert s (d.subjects.getD s [] ++ vs) } := by
  induction vs generalizing d with
  | nil =>
    have hsame : d.subjects.insert s (d.subjects.getD s [] ++ []) = d.subjects := by
      refine ExtTreeMap.ext_getElem? fun k => ?_
      rw [ExtTreeMap.getElem?_insert]
      split
      · next heq =>
          obtain rfl := LawfulEqOrd.compare_eq_iff_eq.mp heq
          obtain ⟨old, hold⟩ :=
            Option.isSome_iff_exists.mp (ExtTreeMap.mem_iff_isSome_getElem?.mp hs)
          rw [ExtTreeMap.getD_eq_getD_getElem?, hold, List.append_nil, Option.getD_some]
      · rfl
    rw [hsame, List.foldl_nil]
  | cons v vs ih =>
    obtain ⟨⟨htype, hsubject⟩, hvs⟩ := List.forall_mem_cons.mp h
    have hnote : d.noteRecord v
        = { d with subjects := d.subjects.insert s (d.subjects.getD s [] ++ [v]) } := by
      simp [noteRecord, htype, hsubject, noteSchema, hs]
    rw [List.foldl_cons, hnote, ih hvs (by simp)]
    congr 1
    refine ExtTreeMap.ext_getElem? fun k => ?_
    simp only [ExtTreeMap.getElem?_insert, ExtTreeMap.getD_insert_self]
    split <;> simp

/-- The versions of a new subject, one after the other. -/
theorem foldl_subject {s : String} {vs : List Json} (hne : vs ≠ [])
    (h : ∀ v ∈ vs, recordType v = "schema" ∧ recordSubject v = some s) {d : TextDump}
    (hs : s ∉ d.subjects) :
    vs.foldl noteRecord d
      = { d with
          subjectOrder := d.subjectOrder ++ [s]
          subjects := d.subjects.insert s vs } := by
  obtain ⟨v, vs, rfl⟩ := List.exists_cons_of_ne_nil hne
  obtain ⟨⟨htype, hsubject⟩, hvs⟩ := List.forall_mem_cons.mp h
  have hnew : d.subjects.getD s [] = [] := ExtTreeMap.getD_eq_fallback hs
  have hnote : d.noteRecord v
      = { d with
          subjectOrder := d.subjectOrder ++ [s]
          subjects := d.subjects.insert s [v] } := by
    simp [noteRecord, htype, hsubject, noteSchema, hs, hnew]
  rw [List.foldl_cons, hnote, foldl_rows hvs (by simp)]
  congr 1
  refine ExtTreeMap.ext_getElem? fun k => ?_
  simp only [ExtTreeMap.getElem?_insert, ExtTreeMap.getD_insert_self]
  split <;> simp

theorem foldl_subjects {rows : String → List Json} {order : List String} (horder : order.Nodup)
    (hrows : ∀ s ∈ order, rows s ≠ [] ∧
      ∀ v ∈ rows s, recordType v = "schema" ∧ recordSubject v = some s)
    {d : TextDump} (hnew : ∀ s ∈ order, s ∉ d.subjects) :
    (order.flatMap rows).foldl noteRecord d
      = { d with
          subjectOrder := d.subjectOrder ++ order
          subjects := order.foldl (fun m s => m.insert s (rows s)) d.subjects } := by
  induction order generalizing d with
  | nil => simp
  | cons s order ih =>
    obtain ⟨hs, horder⟩ := List.nodup_cons.mp horder
    obtain ⟨⟨hne, hrows_s⟩, hrows⟩ := List.forall_mem_cons.mp hrows
    obtain ⟨hnew_s, hnew⟩ := List.forall_mem_cons.mp hnew
    rw [List.flatMap_cons, List.foldl_append, foldl_subject hne hrows_s hnew_s,
      ih horder hrows (fun s' hs' => ?_)]
    · simp
    · rw [ExtTreeMap.mem_insert, LawfulEqOrd.compare_eq_iff_eq]
      rintro (rfl | hin)
      · exact hs hs'
      · exact hnew s' hs' hin

theorem getElem?_foldl_insert {rows : String → List Json} (order : List String)
    (m : ExtTreeMap String (List Json)) (k : String) :
    (order.foldl (fun m s => m.insert s (rows s)) m)[k]?
      = if k ∈ order then some (rows k) else m[k]? := by
  induction order generalizing m with
  | nil => simp
  | cons s order ih =>
    rw [List.foldl_cons, ih, ExtTreeMap.getElem?_insert]
    by_cases hk : k ∈ order
    · simp [hk]
    · by_cases hs : s = k
      · subst hs
        simp
      · simp [hk, hs, Ne.symm hs]

theorem finish_of_sorted {d : TextDump} (h : d.Sorted) : d.finish = d := by
  have hsame : (d.subjects.map fun _ vs =>
      vs.insertionSort fun a b => versionKey a ≤ versionKey b) = d.subjects := by
    refine ExtTreeMap.ext_getElem? fun s => ?_
    rw [ExtTreeMap.getElem?_map]
    cases hvs : d.subjects[s]? with
    | none => rfl
    | some vs => rw [Option.map_some, (h s vs hvs).insertionSort_eq]
  rw [finish, hsame]

/-- What a shaped dump writes is noted as the dump itself. -/
theorem foldl_records {d : TextDump} (h : d.Shaped P) : d.records.foldl noteRecord {} = d := by
  have hheader : d.header.toList.foldl noteRecord {} = { header := d.header } := by
    cases hd : d.header with
    | none => rfl
    | some v => simp [noteRecord, (h.header v hd).2]
  have hrows : ∀ s ∈ d.subjectOrder, d.subjects.getD s [] ≠ [] ∧
      ∀ v ∈ d.subjects.getD s [], recordType v = "schema" ∧ recordSubject v = some s := by
    intro s hs
    obtain ⟨vs, hvs⟩ := Option.isSome_iff_exists.mp
      (ExtTreeMap.mem_iff_isSome_getElem?.mp ((h.listed s).mp hs))
    rw [ExtTreeMap.getD_eq_getD_getElem?, hvs, Option.getD_some]
    exact ⟨(h.rows s vs hvs).1, fun v hv => ((h.rows s vs hvs).2 v hv).2⟩
  have hsubjects : d.subjectOrder.foldl (fun m s => m.insert s (d.subjects.getD s [])) ∅
      = d.subjects := by
    refine ExtTreeMap.ext_getElem? fun k => ?_
    rw [getElem?_foldl_insert]
    split
    · next hk =>
        obtain ⟨vs, hvs⟩ := Option.isSome_iff_exists.mp
          (ExtTreeMap.mem_iff_isSome_getElem?.mp ((h.listed k).mp hk))
        rw [ExtTreeMap.getD_eq_getD_getElem?, hvs, Option.getD_some]
    · next hk =>
        rw [h.listed] at hk
        simp [ExtTreeMap.getElem?_eq_none hk]
  rw [records, List.foldl_append, List.foldl_append, List.foldl_append, List.foldl_append, hheader,
    foldl_configRecord, foldl_modeRecord, foldl_subjects h.order hrows (by simp),
    foldl_exporterRecord fun e he => (h.exporters e he).2]
  simp [hsubjects]

theorem exists_object_of_recordType {v : Json} (h : recordType v ≠ "") :
    ∃ members, v = .object members := by
  cases hget : v.get? "type" with
  | none => simp [recordType, hget] at h
  | some x => exact Json.exists_object_of_get? hget

theorem of_mem_records {d : TextDump} (h : d.Shaped P) :
    ∀ v ∈ d.records, P v ∧ ∃ members, v = .object members := by
  intro v hv
  simp only [records, List.mem_append, Option.mem_toList, List.mem_map, List.mem_flatMap] at hv
  rcases hv with (((hv | ⟨p, hp, rfl⟩) | ⟨p, hp, rfl⟩) | ⟨s, hs, hv⟩) | ⟨e, he, rfl⟩
  · obtain ⟨hv, htype⟩ := h.header v hv
    exact ⟨hv, exists_object_of_recordType (by simp [htype])⟩
  · exact ⟨h.configs p hp, _, rfl⟩
  · exact ⟨h.modes p hp, _, rfl⟩
  · cases hvs : d.subjects[s]? with
    | none => simp [ExtTreeMap.getD_eq_getD_getElem?, hvs] at hv
    | some vs =>
      rw [ExtTreeMap.getD_eq_getD_getElem?, hvs, Option.getD_some] at hv
      obtain ⟨hv, htype, -⟩ := (h.rows s vs hvs).2 v hv
      exact ⟨hv, exists_object_of_recordType (by simp [htype])⟩
  · obtain ⟨he, v, rfl⟩ := h.exporters e he
    exact ⟨he, _, rfl⟩

end TextDump

/-- A dump that was read from a text is read again from what it writes. -/
theorem parse_toNdjson {fromStr : String → Except String Json} {text : String}
    (hserde : TextDump.ReadsBack fromStr text) {d : TextDump}
    (h : TextDump.parse fromStr text = .ok d) :
    TextDump.parse fromStr d.toNdjson = .ok d := by
  obtain ⟨hshaped, hsorted⟩ := TextDump.shaped_of_parse hserde h
  rw [TextDump.toNdjson, TextDump.parse_writtenLines (TextDump.of_mem_records hshaped),
    TextDump.foldl_records hshaped, TextDump.finish_of_sorted hsorted]

section Witness

/-- A reader that knows the printed forms of some values. -/
def readAmong (vs : List Json) (text : String) : Except String Json :=
  match vs.find? (·.render == text) with
  | some v => .ok v
  | none => .error "expected value"

theorem readAmong_render {vs : List Json} {v : Json} (hv : v ∈ vs) :
    readAmong vs v.render = .ok v := by
  cases hfound : vs.find? (·.render == v.render) with
  | none => exact absurd (List.find?_eq_none.mp hfound v hv) (by simp)
  | some w =>
    have hsame := List.find?_some hfound
    rw [beq_iff_eq] at hsame
    rw [readAmong, hfound, Json.render_injective hsame]

/-- A version record of a subject. -/
def versionRecord (subject : String) (version : Int) : Json :=
  .object [("type", .string "schema"), ("subject", .string subject),
    ("version", .number (.int version))]

/-- The versions of two subjects in turn, and an exporter that says only its name. -/
def mixedRecords : List Json :=
  [versionRecord "a" 2, versionRecord "b" 1, versionRecord "a" 1,
    .object [("type", .string "exporter"), ("name", .string "x")]]

/-- The reader knows these records, and those that are written for them. -/
theorem parse_toNdjson_mixed :
    ∃ fromStr d, TextDump.parse fromStr (TextDump.writtenLines mixedRecords) = .ok d
      ∧ d.subjects["a"]? = some [versionRecord "a" 1, versionRecord "a" 2]
      ∧ TextDump.parse fromStr d.toNdjson = .ok d := by
  have hobjects : ∀ v ∈ mixedRecords, ∃ members, v = .object members := by
    simp only [mixedRecords, List.forall_mem_cons]
    exact ⟨⟨_, rfl⟩, ⟨_, rfl⟩, ⟨_, rfl⟩, ⟨_, rfl⟩, by simp⟩
  let known := mixedRecords ++ mixedRecords.map TextDump.rewritten
  have hknown : ∀ v ∈ mixedRecords, readAmong known v.render = .ok v := fun v hv =>
    readAmong_render (List.mem_append_left _ hv)
  have hread := TextDump.parse_writtenLines fun v hv => ⟨hknown v hv, hobjects v hv⟩
  refine ⟨_, _, hread, rfl, parse_toNdjson (fun line hline v hv => readAmong_render ?_) hread⟩
  rw [lines_writtenLines hobjects] at hline
  obtain ⟨w, hw, rfl⟩ := List.mem_map.mp hline
  obtain ⟨members, rfl⟩ := hobjects w hw
  rw [trimText_render_object, hknown _ hw] at hv
  cases hv
  exact List.mem_append_right _ (List.mem_map_of_mem hw)

end Witness

end Backup

end SchemaRegistry
